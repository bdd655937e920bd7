import ClipLedger.Text.Basic

/-
  The vocabulary of a text: its lines of the form `key: value`. A line is split at its first
  colon and both sides are trimmed; a line with nothing before the colon names no pair.
-/
namespace ClipLedger

/-- A key with the value given for it. -/
structure Pair where
  key : Text
  value : Text
  deriving DecidableEq, Repr

namespace Text

/-- The lines of `t` that hold a colon, trimmed. -/
def colonLines (t : Text) : List Text :=
  ((lines t).filter fun l => l.contains ':').map trim

/-- The pair on `line`: what the first colon separates, both trimmed; `none` where the key is
empty. -/
def pair? (line : Text) : Option Pair :=
  match splitFirst ':' line with
  | none => none
  | some (before, after) =>
    let key := trim before
    if key = [] then none else some ⟨key, trim after⟩

/-- The pairs of `t` in the order of its lines. -/
def pairs (t : Text) : List Pair := (colonLines t).filterMap pair?

end Text

namespace Pair

/-- The line `key: value`. -/
def line (p : Pair) : Text := p.key ++ [':', ' '] ++ p.value

/-- The pairs as lines, each by `line`. -/
def render (ps : List Pair) : Text := Text.join ['\n'] (ps.map line)

end Pair
end ClipLedger
