import ClipLedger.Json.Token

/-
  Reading JSON. The grammar is a machine that takes one token at a time: it keeps the lists and
  objects that are part way through and what it waits for. Reading succeeds when the tokens end
  just after a value that stands in no list or object.
-/
namespace ClipLedger.Json

/-- A list or an object that has been opened and not closed; its parts so far, the newest
first. -/
inductive Frame where
  | list (done : List Json)
  | object (done : List (Text × Json)) (key : Text)

/-- What may come next inside the innermost frame. -/
inductive Wait where
  | value
  | firstItem
  | firstKey
  | key (done : List (Text × Json))
  | colon (done : List (Text × Json)) (key : Text)
  | after (v : Json)

/-- The open frames, the innermost first, and what may come next. -/
structure State where
  frames : List Frame
  wait : Wait

/-- Takes a token where a value may begin. -/
def State.value (frames : List Frame) : Token → Option State
  | .openList => some ⟨.list [] :: frames, .firstItem⟩
  | .openObject => some ⟨frames, .firstKey⟩
  | .text t => some ⟨frames, .after (.text t)⟩
  | .number digits => some ⟨frames, .after (.number digits)⟩
  | .bool b => some ⟨frames, .after (.bool b)⟩
  | .null => some ⟨frames, .after .null⟩
  | _ => none

/-- Takes one token; `none` where it may not stand. -/
def State.step : State → Token → Option State
  | ⟨frames, .value⟩, token => State.value frames token
  | ⟨.list _ :: frames, .firstItem⟩, .closeList => some ⟨frames, .after (.list [])⟩
  | ⟨frames, .firstItem⟩, token => State.value frames token
  | ⟨frames, .firstKey⟩, .closeObject => some ⟨frames, .after (.object [])⟩
  | ⟨frames, .firstKey⟩, .text k => some ⟨frames, .colon [] k⟩
  | ⟨frames, .key done⟩, .text k => some ⟨frames, .colon done k⟩
  | ⟨frames, .colon done k⟩, .colon => some ⟨.object done k :: frames, .value⟩
  | ⟨.list done :: frames, .after v⟩, .comma => some ⟨.list (v :: done) :: frames, .value⟩
  | ⟨.list done :: frames, .after v⟩, .closeList =>
    some ⟨frames, .after (.list (v :: done).reverse)⟩
  | ⟨.object done k :: frames, .after v⟩, .comma => some ⟨frames, .key ((k, v) :: done)⟩
  | ⟨.object done k :: frames, .after v⟩, .closeObject =>
    some ⟨frames, .after (.object ((k, v) :: done).reverse)⟩
  | _, _ => none

/-- Takes the tokens one after the other with `step`. -/
def State.run : State → List Token → Option State
  | s, [] => some s
  | s, token :: rest =>
    match s.step token with
    | none => none
    | some s => s.run rest

/-- The value that `ts` spells; `none` where a frame is still open at the end, or nothing was
read. -/
def ofTokens? (ts : List Token) : Option Json :=
  match State.run ⟨[], .value⟩ ts with
  | some ⟨[], .after v⟩ => some v
  | _ => none

/-- The value that `t` spells, by `tokens` and `ofTokens?`. -/
def read? (t : Text) : Option Json := (tokens t).bind ofTokens?

end ClipLedger.Json
