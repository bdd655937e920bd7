import ClipLedger.Text.Basic
import Mathlib.Data.List.DropRight

/-
  Trimming. Blanks at either end make no difference (`trim_append_blanks`, `trim_trimStart`), so
  what was trimmed is trimmed no further (`trim_trim`), and what neither starts nor ends with a
  blank is left of it with any blanks around (`trim_wrapped`). A colon is not blank, so trimming
  does not reach beyond one (`trim_append_colon`).
-/
namespace ClipLedger.Text

/-- `t` holds nothing but blanks. -/
def Blank (t : Text) : Prop := ∀ c ∈ t, isBlank c = true

instance (t : Text) : Decidable (Blank t) := inferInstanceAs (Decidable (∀ c ∈ t, _))

/-! ## Blanks at the ends -/

/-- Blanks at the end make no difference to `trim`. -/
theorem trim_append_blanks (t : Text) {e : Text} (he : Blank e) : trim (t ++ e) = trim t := by
  have hend (x : Text) : trimEnd (x ++ e) = trimEnd x := by
    unfold trimEnd
    rw [List.reverse_append, List.dropWhile_append_of_pos fun c hc => he c (List.mem_reverse.1 hc)]
  unfold trim trimStart
  rw [List.dropWhile_append]
  split
  · next h => rw [List.isEmpty_iff.1 h, List.dropWhile_eq_nil_iff.2 he]
  · exact hend _

theorem trim_trimStart (t : Text) : trim (trimStart t) = trim t := by
  unfold trim trimStart
  rw [List.dropWhile_idempotent]

theorem trim_trimEnd (t : Text) : trim (trimEnd t) = trim t := by
  have ht : trimEnd t ++ (t.reverse.takeWhile isBlank).reverse = t := by
    rw [trimEnd, ← List.reverse_append, List.takeWhile_append_dropWhile, List.reverse_reverse]
  conv_rhs => rw [← ht]
  exact (trim_append_blanks _ fun c hc => List.mem_takeWhile_imp (List.mem_reverse.1 hc)).symm

theorem trim_trim (t : Text) : trim (trim t) = trim t :=
  (trim_trimEnd (trimStart t)).trans (trim_trimStart t)

/-- `trim` takes the blanks around `core` and nothing else. -/
theorem trim_wrapped {before core after : Text} (hbefore : Blank before) (hafter : Blank after)
    {first last : Char} (hhead : core.head? = some first) (hlast : core.getLast? = some last)
    (hfirst : isBlank first = false) (hend : isBlank last = false) :
    trim (before ++ (core ++ after)) = core := by
  have hstart : trimStart (before ++ core) = core := by
    unfold trimStart
    rw [List.dropWhile_append_of_pos hbefore]
    cases core with
    | nil => cases hhead
    | cons c core =>
      cases hhead
      rw [List.dropWhile_cons, if_neg (by rw [hfirst]; decide)]
  rw [← List.append_assoc, trim_append_blanks _ hafter, trim, hstart, trimEnd]
  obtain ⟨body, rfl⟩ := List.getLast?_eq_some_iff.1 hlast
  rw [List.reverse_append, List.reverse_singleton, List.singleton_append, List.dropWhile_cons,
    if_neg (by rw [hend]; decide), List.reverse_cons, List.reverse_reverse]

/-! ## What is left -/

theorem length_trim_le (t : Text) : (trim t).length ≤ t.length := by
  have hstart := length_dropWhile_le isBlank t
  have hend := length_dropWhile_le isBlank (t.dropWhile isBlank).reverse
  unfold trim trimEnd trimStart
  rw [List.length_reverse] at hend ⊢
  omega

theorem mem_of_mem_trim {c : Char} {t : Text} (h : c ∈ trim t) : c ∈ t := by
  have hend := (List.dropWhile_sublist isBlank).mem (List.mem_reverse.1 h)
  exact (List.dropWhile_sublist isBlank).mem (List.mem_reverse.1 hend)

/-- A trimmed text starts with no blank. -/
theorem trimStart_of_trimmed {t : Text} (h : trim t = t) : trimStart t = t := by
  have hsuffix : trimStart t <:+ t := List.dropWhile_suffix isBlank
  have hlength : t.length ≤ (trimStart t).length := by
    have hend := length_trim_le (trimStart t)
    rwa [trim_trimStart, h] at hend
  exact hsuffix.eq_of_length (Nat.le_antisymm hsuffix.length_le hlength)

/-! ## Around a colon -/

/-- `trim` stops at a colon on either side. -/
theorem trim_append_colon (u r : Text) :
    trim (u ++ ':' :: r) = trimStart u ++ ':' :: trimEnd r := by
  have hstart : trimStart (u ++ ':' :: r) = trimStart u ++ ':' :: r := by
    have hcolon : (':' :: r).dropWhile isBlank = ':' :: r := List.dropWhile_cons_of_neg (by decide)
    unfold trimStart
    rw [List.dropWhile_append, hcolon]
    split
    · next h => rw [List.isEmpty_iff.1 h, List.nil_append]
    · rfl
  have hend (v : Text) : trimEnd (v ++ ':' :: r) = v ++ ':' :: trimEnd r := by
    have hcolon : ([':'] ++ v.reverse).dropWhile isBlank = [':'] ++ v.reverse :=
      List.dropWhile_cons_of_neg (by decide)
    unfold trimEnd
    rw [List.reverse_append, List.reverse_cons, List.append_assoc, List.dropWhile_append, hcolon]
    split
    · next h => simp [List.isEmpty_iff.1 h]
    · simp
  rw [trim, hstart, hend]

theorem colon_mem_trim {t : Text} (h : ':' ∈ t) : ':' ∈ trim t := by
  obtain ⟨u, r, rfl, -⟩ := List.eq_append_cons_of_mem h
  rw [trim_append_colon]
  exact List.mem_append_right _ List.mem_cons_self

end ClipLedger.Text
