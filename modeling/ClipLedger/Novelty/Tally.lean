import ClipLedger.Text.Basic

/-
  Tallies: how often each text was seen.
-/
namespace ClipLedger

/-- Texts with the number of times they were seen, each text once. -/
structure Tally where
  entries : List (Text × Nat)

namespace Tally

def empty : Tally := ⟨[]⟩

/-- How often `key` was seen. -/
def count (t : Tally) (key : Text) : Nat := (t.entries.lookup key).getD 0

/-- Counts `key` once more among the entries. -/
def bump (key : Text) : List (Text × Nat) → List (Text × Nat)
  | [] => [(key, 1)]
  | (k, n) :: rest => if key = k then (k, n + 1) :: rest else (k, n) :: bump key rest

/-- Counts `key` once more. -/
def add (t : Tally) (key : Text) : Tally := ⟨bump key t.entries⟩

/-- Counts `keys` one after the other. -/
def addAll (t : Tally) (keys : List Text) : Tally := keys.foldl add t

theorem lookup_bump (key k : Text) (es : List (Text × Nat)) :
    ((bump key es).lookup k).getD 0 = (es.lookup k).getD 0 + if k = key then 1 else 0 := by
  induction es with
  | nil =>
    simp only [bump, List.lookup_cons, List.lookup_nil]
    by_cases h : k = key
    · simp [h]
    · simp [h, beq_false_of_ne h]
  | cons e es ih =>
    obtain ⟨k', n⟩ := e
    rw [bump]
    by_cases h : key = k'
    · subst h
      by_cases hk : k = key
      · simp [hk]
      · simp [hk, List.lookup_cons, beq_false_of_ne hk]
    · rw [if_neg h]
      by_cases hk : k = k'
      · subst hk
        have hne : k ≠ key := fun e => h e.symm
        simp [hne]
      · simp only [List.lookup_cons, beq_false_of_ne hk]
        exact ih

/-- `add` raises the count of its own text by one and no other. -/
theorem count_add (t : Tally) (key k : Text) :
    (t.add key).count k = t.count k + if k = key then 1 else 0 := lookup_bump key k t.entries

/-- `addAll` raises the count of `k` by the number of times `k` is among the texts. -/
theorem count_addAll (t : Tally) (texts : List Text) (k : Text) :
    (t.addAll texts).count k = t.count k + texts.countP fun text => text = k := by
  induction texts generalizing t with
  | nil => rfl
  | cons text texts ih =>
    have hrest := ih (t.add text)
    have hfirst := t.count_add text k
    rw [addAll, List.foldl_cons, ← addAll, hrest, hfirst, List.countP_cons]
    by_cases h : k = text
    · simp [h]
      omega
    · simp [h, Ne.symm h]

end Tally
end ClipLedger
