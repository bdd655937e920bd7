import ClipLedger.Novelty.Arith
import Mathlib

/-
  When an order ranks numbers: nothing comes before what comes before it, and whatever else there is
  comes after the first of two or before the second. Fractions are ranked, and so are all binary64
  numbers but what is no number (`ranked_rat`, `ranked_float`).
-/
namespace ClipLedger.Arith

open Float.Model (UnpackedFloat)

/-- On `s`, `less` is a strict weak order: of two numbers in order, every third one comes behind the
first or before the second. -/
structure Ranked {α : Type} [Arith α] (s : Set α) : Prop where
  asymm : ∀ {x y}, x ∈ s → y ∈ s → less x y = true → ¬ less y x = true
  between : ∀ {x y z}, x ∈ s → y ∈ s → z ∈ s → less x y = true → less x z = true ∨ less z y = true

theorem Ranked.mono {α : Type} [Arith α] {s u : Set α} (h : Ranked u) (hsub : s ⊆ u) : Ranked s :=
  ⟨fun hx hy => h.asymm (hsub hx) (hsub hy),
    fun hx hy hz => h.between (hsub hx) (hsub hy) (hsub hz)⟩

/-- Numbers are ranked if `less` is the order of a `rank`. -/
theorem ranked_of_rank {α κ : Type} [Arith α] [LinearOrder κ] {s : Set α} (rank : α → κ)
    (h : ∀ {x y}, x ∈ s → y ∈ s → (less x y = true ↔ rank x < rank y)) : Ranked s where
  asymm := by
    intro x y hx hy hxy hyx
    rw [h hx hy] at hxy
    rw [h hy hx] at hyx
    exact lt_asymm hxy hyx
  between := by
    intro x y z hx hy hz hxy
    rw [h hx hy] at hxy
    rw [h hx hz, h hz hy]
    rcases lt_or_ge (rank x) (rank z) with hxz | hzx
    · exact .inl hxz
    · exact .inr (hzx.trans_lt hxy)

theorem ranked_rat (s : Set Rat) : Ranked s := by
  refine ranked_of_rank id fun {x y} _ _ => ?_
  exact decide_eq_true_iff

/-- Where a float that is a number stands among the others: by its sign, its exponent and its
mantissa. -/
def rank : UnpackedFloat → ℤ ×ₗ ℤ ×ₗ ℤ
  | .notANumber => toLex (0, toLex (0, 0))
  | .infinity .negative => toLex (-2, toLex (0, 0))
  | .finite .negative m e _ => toLex (-1, toLex (-e, -m))
  | .zero _ => toLex (0, toLex (0, 0))
  | .finite .positive m e _ => toLex (1, toLex (e, m))
  | .infinity .positive => toLex (2, toLex (0, 0))

theorem lt_iff_rank {x y : UnpackedFloat} (hx : x.isNaN = false) (hy : y.isNaN = false) :
    x.lt y = true ↔ rank x < rank y := by
  unfold UnpackedFloat.lt UnpackedFloat.compare
  rcases x with (_ | _) | _ | _ | ⟨_ | _, m, e, h⟩ <;>
  rcases y with (_ | _) | _ | _ | ⟨_ | _, m', e', h'⟩ <;>
  simp [rank, Prod.Lex.toLex_lt_toLex, UnpackedFloat.isNaN, Ordering.then_eq_lt,
    Ordering.then_eq_gt, compare_lt_iff_lt, compare_gt_iff_gt] at hx hy ⊢
  rfl

theorem less_float (x y : Float) :
    less x y = true ↔ x.toModel.unpack.lt y.toModel.unpack = true := by
  have hmodel : x.lt y = true ↔ x.toModel < y.toModel := decide_eq_true_iff
  exact decide_eq_true_iff.trans hmodel

theorem ranked_float : Ranked { x : Float | x.isNaN = false } :=
  ranked_of_rank (fun x => rank x.toModel.unpack) fun {x y} hx hy =>
    (less_float x y).trans (lt_iff_rank hx hy)

end ClipLedger.Arith
