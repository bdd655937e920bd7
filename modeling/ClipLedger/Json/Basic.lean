import ClipLedger.Text.Basic

/-
  JSON values. A number is kept as its written digits, so that reading and writing it again
  gives the same text; the fields of an object keep their order and may repeat.
-/
namespace ClipLedger

/-- A JSON value. Numbers keep their digits, and objects the order of their fields. -/
inductive Json where
  | null
  | bool (b : Bool)
  | number (digits : Text)
  | text (t : Text)
  | list (items : List Json)
  | object (fields : List (Text × Json))

namespace Json

/-- A text given as a literal. -/
def ofString (s : String) : Json := .text s.toList

/-- A natural number. -/
def ofNat (n : Nat) : Json := .number (Text.ofNat n)

/-- `f` of the value, or `null` where there is none. -/
def ofOption {α : Type} (f : α → Json) : Option α → Json
  | none => .null
  | some a => f a

/-- An object whose keys are literals. -/
def record (fields : List (String × Json)) : Json :=
  .object (fields.map fun (k, v) => (k.toList, v))

mutual

/-- How deeply lists and objects are nested; a value that is neither has depth 0. -/
def depth : Json → Nat
  | .list items => depthOfItems items + 1
  | .object fields => depthOfFields fields + 1
  | _ => 0

/-- The greatest depth among items. -/
def depthOfItems : List Json → Nat
  | [] => 0
  | v :: rest => max (depth v) (depthOfItems rest)

/-- The greatest depth among the values of fields. -/
def depthOfFields : List (Text × Json) → Nat
  | [] => 0
  | (_, v) :: rest => max (depth v) (depthOfFields rest)

end

mutual

/-- Whether `p` holds of the digits of every number in the value. -/
def numbersAll (p : Text → Bool) : Json → Bool
  | .number digits => p digits
  | .list items => numbersAllItems p items
  | .object fields => numbersAllFields p fields
  | _ => true

/-- Whether `p` holds of the digits of every number in the items. -/
def numbersAllItems (p : Text → Bool) : List Json → Bool
  | [] => true
  | v :: rest => numbersAll p v && numbersAllItems p rest

/-- Whether `p` holds of the digits of every number in the values of the fields. -/
def numbersAllFields (p : Text → Bool) : List (Text × Json) → Bool
  | [] => true
  | (_, v) :: rest => numbersAll p v && numbersAllFields p rest

end

end Json
end ClipLedger
