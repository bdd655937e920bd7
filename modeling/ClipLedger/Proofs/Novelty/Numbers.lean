import ClipLedger.Analyzer
import ClipLedger.Proofs.Novelty.Ranking
import ClipLedger.Proofs.Novelty.Rounding

/-
  Scores in binary64 are numbers: whatever was observed, and however long a text is, its novelty is
  zero or positive and no infinity (`score_below`), and so is a weight (`clampWeight_below`). So the
  worth of a novelty can always be compared (`isNaN_worth`).
-/
namespace ClipLedger

open Binary64
open Float.Model (totalExponent)
open Float.Model.UnpackedFloat

/-! ## Novelty -/

namespace Tracker

theorem rarity_below (t : Tally) (key : Text) :
    Below 2 .positive (rarity t key : Float).toModel.unpack := by
  have hcount : FromOne (Float.ofNat 1 + Float.ofNat (t.count key)).toModel.unpack := by
    rw [unpack_add]
    refine (add_fromOne (ofNat_fromOne one_ne_zero) ?_).packed
    rcases eq_or_ne (t.count key) 0 with hzero | hne
    · exact .inl (by rw [hzero, unpack_ofNat_zero])
    · exact .inr (ofNat_fromOne hne)
  show Below 2 .positive
    (Float.ofNat 1 / (Float.ofNat 1 + Float.ofNat (t.count key))).toModel.unpack
  rw [unpack_div]
  exact (div_below one_below hcount).packed (by decide) (by decide)

/-- A sum of rarities stays below `2 ^ 60`, however many there are. -/
theorem add_rarity_below {x : Float} (hx : Below 60 .positive x.toModel.unpack) (t : Tally)
    (key : Text) : Below 60 .positive (x + rarity t key).toModel.unpack := by
  have hr := rarity_below t key
  rw [unpack_add]
  exact (add_bounded hx hr).packed (by decide) (by decide)

theorem foldl_rarity_below (t : Tally) (texts : List Text) {x : Float}
    (hx : Below 60 .positive x.toModel.unpack) :
    Below 60 .positive (texts.foldl (fun sum k => sum + rarity t k) x).toModel.unpack := by
  induction texts generalizing x with
  | nil => exact hx
  | cons k texts ih => exact ih (add_rarity_below hx t k)

theorem meanRarity_below (t : Tally) {texts : List Text} (h : texts ≠ []) :
    Below 61 .positive (meanRarity t texts : Float).toModel.unpack := by
  have hzero : Below 60 .positive (Float.ofNat 0).toModel.unpack := by
    rw [unpack_ofNat_zero]
    exact .zero _
  have htotal := foldl_rarity_below t texts hzero
  have hlength := ofNat_fromOne fun hnil => h (List.length_eq_zero_iff.1 hnil)
  show Below 61 .positive
    (texts.foldl (fun sum k => sum + rarity t k) (Float.ofNat 0) /
      Float.ofNat texts.length).toModel.unpack
  rw [unpack_div]
  exact (div_below htotal hlength).packed (by decide) (by decide)

/-- A score is zero or positive, and no infinity, whatever was observed. -/
theorem score_below (t : Tracker Float) (text : Text) :
    Below 64 .positive (t.score text).toModel.unpack := by
  unfold score scorePairs
  split
  · show Below 64 .positive (Float.ofNat 0).toModel.unpack
    rw [unpack_ofNat_zero]
    exact .zero _
  · next hpairs =>
    have hkeys : (Text.pairs text).map Pair.key ≠ [] :=
      fun hnil => hpairs (List.map_eq_nil_iff.1 hnil)
    have hvalues : (Text.pairs text).map Pair.value ≠ [] := fun hnil =>
      hpairs (List.map_eq_nil_iff.1 hnil)
    have hsum := add_below (meanRarity_below t.keys hkeys) (meanRarity_below t.values hvalues)
    show Below 64 .positive ((meanRarity t.keys ((Text.pairs text).map Pair.key) +
      meanRarity t.values ((Text.pairs text).map Pair.value)) / Float.ofNat 2).toModel.unpack
    rw [unpack_div, unpack_add]
    exact (div_below (hsum.packed (by decide) (by decide)) (ofNat_fromOne two_ne_zero)).packed
      (by decide) (by decide)

end Tracker

/-! ## Weight and worth -/

theorem rank_le_of_not_lt {x y : Float} (hx : x.isNaN = false) (hy : y.isNaN = false)
    (h : ¬ x < y) : Arith.rank y.toModel.unpack ≤ Arith.rank x.toModel.unpack := by
  refine not_lt.1 fun hrank => h ?_
  have hless : Arith.less x y = true := (Arith.less_float x y).2 ((Arith.lt_iff_rank hx hy).2 hrank)
  exact of_decide_eq_true hless

/-- Between zero and one the ranks leave the zeros, and positive numbers up to one. -/
theorem below_one_of_rank {w : Float} (hnumber : w.isNaN = false)
    (hlow : Arith.rank (Float.ofNat 0).toModel.unpack ≤ Arith.rank w.toModel.unpack)
    (hhigh : Arith.rank w.toModel.unpack ≤ Arith.rank (Float.ofNat 1).toModel.unpack) :
    Below 1 .positive w.toModel.unpack := by
  rw [unpack_ofNat_zero] at hlow
  rw [unpack_ofNat_one] at hhigh
  cases hunpack : w.toModel.unpack with
  | notANumber =>
    have hnan : w.toModel.unpack.isNaN = false := hnumber
    rw [hunpack] at hnan
    cases hnan
  | zero z => exact .zero z
  | infinity s =>
    rw [hunpack] at hlow hhigh
    cases s <;> simp [Arith.rank, Prod.Lex.toLex_le_toLex] at hlow hhigh
  | finite s m e hpos =>
    rw [hunpack] at hlow hhigh
    cases s with
    | negative => simp [Arith.rank, Prod.Lex.toLex_le_toLex] at hlow
    | positive =>
      have he : e ≤ -52 := by
        simp only [Arith.rank, Prod.Lex.toLex_le_toLex, lt_irrefl, false_or, true_and] at hhigh
        omega
      refine .finite hpos ?_
      rcases log2_unpack hunpack with hfull | htiny
      · unfold totalExponent
        omega
      · exact htiny.trans (by decide)

/-- A weight that `clampWeight` lets through is a number from zero to one. -/
theorem clampWeight_below {w u : Float} (h : clampWeight w = some u) :
    Below 1 .positive u.toModel.unpack := by
  unfold clampWeight at h
  split at h
  · cases h
  next hnumber =>
  split at h
  · cases h
    show Below 1 .positive (Float.ofNat 0).toModel.unpack
    rw [unpack_ofNat_zero]
    exact .zero _
  next hnonneg =>
  split at h
  · cases h
    exact one_below
  next hle =>
  cases h
  rw [Bool.not_eq_true] at hnumber
  exact below_one_of_rank hnumber
    (rank_le_of_not_lt hnumber (show (Float.ofNat 0).isNaN = false from rfl) hnonneg)
    (rank_le_of_not_lt (show (Float.ofNat 1).isNaN = false from rfl) hnumber hle)

/-- The worth of a novelty is a number. -/
theorem isNaN_worth {w u novelty : Float} (hw : clampWeight w = some u)
    (hnovelty : Below 64 .positive novelty.toModel.unpack) :
    (Analyzer.worth u novelty).isNaN = false := by
  have hu := clampWeight_below hw
  show ((Float.ofNat 1 - u) + u * novelty).toModel.unpack.isNaN = false
  obtain ⟨s, hrest⟩ : ∃ s, Below 2 s (Float.ofNat 1 - u).toModel.unpack := by
    obtain ⟨s, hsub⟩ := sub_below one_below hu
    rw [unpack_sub]
    exact ⟨s, hsub.packed (by decide) (by decide)⟩
  rw [unpack_add, unpack_mul]
  exact isNaN_packed (isNaN_add hrest (isNaN_packed (isNaN_mul hu hnovelty)))

/-- With a weight of zero every novelty is worth the same. -/
theorem unpack_worth_zero {k : ℤ} {novelty : Float}
    (hnovelty : Below k .positive novelty.toModel.unpack) :
    (Analyzer.worth 0 novelty).toModel.unpack = (Float.ofNat 1).toModel.unpack := by
  obtain ⟨z, hproduct⟩ := zero_mul_below .positive hnovelty
  show ((Float.ofNat 1 - Float.ofNat 0) + Float.ofNat 0 * novelty).toModel.unpack = _
  rw [unpack_add, unpack_mul, unpack_ofNat_zero, hproduct]
  cases z <;> rfl

end ClipLedger
