import ClipLedger.Content.Item

/-
  The gate in front of the queue: it lets an item through unless it has the fingerprint of the
  last one let through, or is a text below the least length.
-/
namespace ClipLedger

/-- Why `Verdict.of` keeps an item out. -/
inductive SkipReason where
  | duplicate
  | tooShort
  deriving DecidableEq, Repr

/-- What `Gate.verdict` says about an item. -/
inductive Verdict where
  | accept
  | skip (reason : SkipReason)
  deriving DecidableEq, Repr

/-- The verdict on the fingerprint `new` behind `last`; `textLength` is `none` for what is no
text. Equal fingerprints are told first, then texts shorter than `minLength`. -/
def Verdict.of (new : Fingerprint) (last : Option Fingerprint) (textLength : Option Nat)
    (minLength : Nat) : Verdict :=
  if last = some new then .skip .duplicate
  else match textLength with
    | none => .accept
    | some n => if n < minLength then .skip .tooShort else .accept

/-- The least length of texts, and `last`, the fingerprint let through last. -/
structure Gate where
  minLength : Nat
  last : Option Fingerprint
  deriving DecidableEq

namespace Gate

/-- A gate that has let nothing through yet. -/
def fresh (minLength : Nat) : Gate := ⟨minLength, none⟩

/-- `Verdict.of` for `item`, with the length of its text if it is one. -/
def verdict (g : Gate) (item : Item) : Verdict :=
  .of item.fingerprint g.last (item.asText?.map List.length) g.minLength

/-- The `verdict`, and the gate with `item` as `last` where it accepts. -/
def check (g : Gate) (item : Item) : Verdict × Gate :=
  match g.verdict item with
  | .accept => (.accept, { g with last := some item.fingerprint })
  | .skip reason => (.skip reason, g)

end Gate
end ClipLedger
