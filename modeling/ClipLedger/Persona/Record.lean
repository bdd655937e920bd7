import ClipLedger.Content.Class
import ClipLedger.Text.Pairs
import ClipLedger.Json.Number

/-
  The record of one analysis: what each persona answered, in the order in which they answered.
  Novelty is a value of any type that scores are computed in.
-/
namespace ClipLedger

/-- One persona's answer to one item. -/
structure Answer (α : Type) where
  persona : Text
  response : Text
  novelty : α
  contentClass : ContentClass
  previous : Text
  role : Text

/-- The answers to one item, in the order in which they were given. -/
abbrev Record (α : Type) := List (Answer α)

namespace Record

variable {α : Type}

/-- The persona of each answer. -/
def personas (r : Record α) : List Text := r.map Answer.persona

/-- The first answer of `persona`. -/
def answerOf? (r : Record α) (persona : Text) : Option (Answer α) :=
  r.find? fun a => a.persona == persona

/-- What a persona is shown when nobody has answered before. -/
def noPrevious : Text := "no_previous: true".toList

/-- One answer as it is shown to later personas: the label of its persona, then its
`Text.colonLines`. -/
def block (a : Answer α) : Text :=
  a.persona ++ [':', '\n'] ++ Text.join ['\n'] (Text.colonLines a.response)

/-- The answers so far as they are shown to the next persona, by `block`; `noPrevious` where there
are none. -/
def thoughts (r : Record α) : Text :=
  if r.isEmpty then noPrevious else Text.join ['\n'] (r.map block)

end Record

/-- An answer as a JSON object, without its persona. -/
def Answer.toJson (a : Answer Float) : Json :=
  .record [("response", .text a.response), ("novelty_score", .ofFloat a.novelty),
    ("context", .record [("content_type", .text a.contentClass.name),
      ("previous_thoughts", .text a.previous), ("role", .text a.role)])]

/-- A record as a JSON object with a field for each answer, named by its persona. -/
def Record.toJson (r : Record Float) : Json := .object (r.map fun a => (a.persona, a.toJson))

end ClipLedger
