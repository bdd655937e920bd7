import ClipLedger.Json.Basic

/-
  Named fields in the order in which they were given. A structure with known fields takes each
  of them at most once, and passes over all others (`uniqueAll?`). In JSON a structure is an object,
  or a list of its fields in their order (`structureFields?`).
-/
namespace ClipLedger.Fields

/-- The field `name`: `none` where it repeats, `some none` where it is missing. -/
def unique? {α : Type} (name : Text) (fields : List (Text × α)) : Option (Option α) :=
  match fields.filter fun f => f.1 == name with
  | [] => some none
  | [(_, v)] => some (some v)
  | _ => none

/-- `unique?` for each of the names; `none` where one of them repeats. Other fields are passed
over. -/
def uniqueAll? {α : Type} : List Text → List (Text × α) → Option (List (Option α))
  | [], _ => some []
  | name :: names, fields =>
    match unique? name fields, uniqueAll? names fields with
    | some v, some vs => some (v :: vs)
    | _, _ => none

/-- A list read as fields: `items` in the order of `names`, the last ones missing; `none` where
there are more. -/
def ofList? {α : Type} (names : List Text) (items : List α) : Option (List (Option α)) :=
  if items.length ≤ names.length then
    some (items.map some ++ List.replicate (names.length - items.length) none)
  else none

end ClipLedger.Fields

namespace ClipLedger.Json

/-- The fields `names` of a structure given as an object. -/
def objectFields? (names : List Text) : Json → Option (List (Option Json))
  | .object fields => Fields.uniqueAll? names fields
  | _ => none

/-- The fields `names` of a structure given as an object or as a list. -/
def structureFields? (names : List Text) : Json → Option (List (Option Json))
  | .object fields => Fields.uniqueAll? names fields
  | .list items => Fields.ofList? names items
  | _ => none

/-- What `read` makes of a value that may be missing or `null`. -/
def optional? {α : Type} (read : Json → Option α) : Option Json → Option (Option α)
  | none => some none
  | some .null => some none
  | some v => (read v).map some

/-- The text that a value is. -/
def asText? : Json → Option Text
  | .text t => some t
  | _ => none

end ClipLedger.Json
