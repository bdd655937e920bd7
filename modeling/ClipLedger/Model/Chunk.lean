import ClipLedger.Json.Reader
import ClipLedger.Json.Number
import ClipLedger.Fields

/-
  The lines of a streamed answer. A line holds a JSON object, with or without a `data:` label in
  front. Two shapes carry text: an event with a delta, and choices of which the first one counts.
  All other lines carry none.
-/
namespace ClipLedger

/-- What one line of a stream says: an event with a delta, or choices. -/
inductive Chunk where
  | event (text : Option Text)
  | choices (text : Option Text)
  deriving DecidableEq

namespace Chunk

/-- The text of an event's delta, which is a plain text or an object that may hold one; the outer
`none` stands for another shape. -/
def deltaText? : Json → Option (Option Text)
  | .text t => some (some t)
  | v =>
    match Json.objectFields? ["text".toList] v with
    | some [t] => Json.optional? Json.asText? t
    | _ => none

/-- The text of an event's delta; `none` where the event has another shape. -/
def eventText? (v : Json) : Option (Option Text) :=
  match Json.structureFields? ["delta".toList] v with
  | some [delta] => (Json.optional? deltaText? delta).map Option.join
  | _ => none

/-- The `content` of a choice's delta or message; `none` for another shape. -/
def contentText? (v : Json) : Option (Option Text) :=
  match Json.structureFields? ["content".toList] v with
  | some [content] => Json.optional? Json.asText? content
  | _ => none

/-- The text of a choice: that of its `delta`, or of its `message` where it has no delta. -/
def choiceText? (v : Json) : Option (Option Text) :=
  match Json.structureFields? ["delta".toList, "message".toList] v with
  | some [delta, message] =>
    match Json.optional? contentText? delta, Json.optional? contentText? message with
    | some delta, some message => some (delta.or message).join
    | _, _ => none
  | _ => none

/-- The texts of all choices; `none` where one of them has another shape. -/
def choiceTexts? : List Json → Option (List (Option Text))
  | [] => some []
  | v :: rest =>
    match choiceText? v, choiceTexts? rest with
    | some t, some ts => some (t :: ts)
    | _, _ => none

/-- Reads the value as an event. -/
def ofEvent? (v : Json) : Option Chunk :=
  match Json.objectFields? ["event".toList] v with
  | some [some inner] => (eventText? inner).map Chunk.event
  | _ => none

/-- Reads the value as choices. -/
def ofChoices? (v : Json) : Option Chunk :=
  match Json.objectFields? ["choices".toList] v with
  | some [some (.list items)] => (choiceTexts? items).map fun ts => .choices ts.head?.join
  | _ => none

/-- What the value `v` says. The shape of an event is tried before that of choices. -/
def ofJson? (v : Json) : Option Chunk := (ofEvent? v).or (ofChoices? v)

/-- The text that a chunk carries. -/
def text? : Chunk → Option Text
  | .event t => t
  | .choices t => t

/-- The label that may stand in front of the value of a line. -/
def label : Text := "data:".toList

/-- The part of `line` that holds the value: `label` and blanks are taken off. -/
def payload (line : Text) : Text :=
  let line := Text.trim line
  match Text.after? label line with
  | some rest => Text.trim rest
  | none => line

/-- The value that `payload` spells, if it is an object and `Json.withinLimits`. -/
def value? (payload : Text) : Option Json :=
  if payload.head? = some '\x7b' then
    (Json.read? payload).bind fun v => if v.withinLimits then some v else none
  else none

/-- The text that `line` carries. An empty text counts as none. -/
def decodeLine (line : Text) : Option Text :=
  ((value? (payload line)).bind fun v => (ofJson? v).bind text?).filter (· ≠ [])

end Chunk
end ClipLedger
