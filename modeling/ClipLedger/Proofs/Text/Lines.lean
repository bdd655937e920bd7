import ClipLedger.Proofs.Text.Trim
import ClipLedger.Text.Pairs

/-
  Lines that are picked from a text, trimmed and joined again. A line is counted with a character
  for its end, so the lines of a text are at most one character longer than the text, whose last
  line may have no end (`extent_lines_le`). Leaving lines out and trimming the others only shortens
  them, and the last of those that are joined has no end either (`length_join_colonLines_le`).
-/
namespace ClipLedger.Text

/-- One character more in front makes a line longer by one character at most. -/
theorem length_withoutLineEnd_cons_le (c : Char) (t : Text) :
    (withoutLineEnd (c :: t)).length ≤ (withoutLineEnd t).length + 1 := by
  rw [withoutLineEnd.eq_def]
  split
  · exact Nat.zero_le _
  · exact Nat.zero_le _
  · exact Nat.zero_le _
  · next h =>
    cases h
    exact Nat.le_refl _

/-- The characters of the lines, with one for the end of each. -/
def extent : List Text → Nat
  | [] => 0
  | l :: ls => l.length + 1 + extent ls

@[simp] theorem extent_cons (l : Text) (ls : List Text) :
    extent (l :: ls) = l.length + 1 + extent ls := rfl

theorem extent_lines_le (t : Text) : extent (lines t) ≤ t.length + 1 := by
  unfold lines
  induction t with
  | nil => exact Nat.zero_le _
  | cons c rest ih =>
    rw [pieces]
    split
    · next hc =>
      subst hc
      rw [List.map_cons, extent_cons]
      show 0 + 1 + _ ≤ rest.length + 1 + 1
      omega
    · next hc =>
      cases hpieces : pieces rest with
      | nil =>
        have hline : (withoutLineEnd [c]).length ≤ 0 + 1 := length_withoutLineEnd_cons_le c []
        dsimp only
        rw [List.map_cons, List.map_nil, extent_cons, List.length_cons]
        show _ + 1 + 0 ≤ _
        omega
      | cons p ps =>
        have hline := length_withoutLineEnd_cons_le c p
        rw [hpieces, List.map_cons, extent_cons] at ih
        dsimp only
        rw [List.map_cons, extent_cons, List.length_cons]
        omega

theorem extent_filter_le (p : Text → Bool) (ls : List Text) : extent (ls.filter p) ≤ extent ls := by
  induction ls with
  | nil => exact Nat.le_refl _
  | cons l ls ih =>
    rw [List.filter_cons, extent_cons]
    split
    · rw [extent_cons]
      omega
    · omega

theorem extent_map_trim_le (ls : List Text) : extent (ls.map trim) ≤ extent ls := by
  induction ls with
  | nil => exact Nat.le_refl _
  | cons l ls ih =>
    have hl := length_trim_le l
    rw [List.map_cons, extent_cons, extent_cons]
    omega

/-- Joined lines lack the end of the last one. -/
theorem length_join (sep : Char) (ls : List Text) : (join [sep] ls).length = extent ls - 1 := by
  fun_induction join [sep] ls with
  | case1 => rfl
  | case2 t => rfl
  | case3 t ts hts ih =>
    obtain ⟨u, us, rfl⟩ := List.exists_cons_of_ne_nil hts
    rw [extent_cons] at ih
    rw [List.length_append, List.length_append, ih, extent_cons, extent_cons]
    show t.length + 1 + _ = _
    omega

/-- The lines with a colon are no longer, joined, than the text that they are from. -/
theorem length_join_colonLines_le (t : Text) :
    (join ['\n'] (colonLines t)).length ≤ t.length := by
  have htrim := extent_map_trim_le ((lines t).filter fun l => l.contains ':')
  have hfilter := extent_filter_le (fun l => l.contains ':') (lines t)
  have hlines := extent_lines_le t
  rw [length_join, colonLines]
  omega

end ClipLedger.Text
