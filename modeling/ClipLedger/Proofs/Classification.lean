import ClipLedger.Content.Class
import Mathlib.Data.List.Basic

/-
  Scores of joined texts. Counting from the left finds as many occurrences as can stand side by
  side in a text (`packs_occurrences`, `Packs.le_occurrences`), though it may find others than
  were chosen: four blanks overlap themselves. So joining texts loses no occurrence, and the seam
  adds one at most (`occurrences_append_ge`, `occurrences_append_le`), and none of a needle of one
  character. Scores add up accordingly (`scores_append`), and so a class once reached by a text is
  not lost among more text.
-/
namespace ClipLedger

namespace Text

/-! ## Occurrences side by side -/

/-- `n` occurrences of `needle` stand in the text without overlap, wherever they are chosen. -/
inductive Packs (needle : Text) : Nat → Text → Prop
  | none (t : Text) : Packs needle 0 t
  | next (gap : Text) {n : Nat} {rest : Text} (later : Packs needle n rest) :
      Packs needle (n + 1) (gap ++ (needle ++ rest))

variable {needle : Text}

theorem Packs.prepend {n : Nat} {t : Text} (h : Packs needle n t) (s : Text) :
    Packs needle n (s ++ t) := by
  cases h with
  | none => exact .none _
  | next gap later =>
    rw [← List.append_assoc]
    exact .next (s ++ gap) later

theorem Packs.append {n m : Nat} {s t : Text} (hs : Packs needle n s) (ht : Packs needle m t) :
    Packs needle (n + m) (s ++ t) := by
  induction hs with
  | none s =>
    rw [Nat.zero_add]
    exact ht.prepend s
  | @next gap n rest later ih =>
    rw [List.append_assoc, List.append_assoc, Nat.add_right_comm]
    exact .next gap ih

/-- A cut between `s` and `t` goes through at most one of the occurrences. -/
theorem Packs.split {n : Nat} {s t : Text} (h : Packs needle n (s ++ t)) :
    ∃ i j, Packs needle i s ∧ Packs needle j t ∧ n ≤ i + j + 1 := by
  generalize hw : s ++ t = w at h
  induction h generalizing s with
  | none => exact ⟨0, 0, .none s, .none t, Nat.zero_le _⟩
  | @next gap n rest later ih =>
    rw [← List.append_assoc] at hw
    rcases List.append_eq_append_iff.1 hw with ⟨u, hfirst, hrest⟩ | ⟨u, hs, hrest⟩
    · -- the cut comes before the end of the first occurrence
      exact ⟨0, n, .none s, hrest ▸ later.prepend u, by omega⟩
    · obtain ⟨i, j, hi, hj, hn⟩ := ih hrest.symm
      refine ⟨i + 1, j, ?_, hj, by omega⟩
      rw [hs, List.append_assoc]
      exact .next gap hi

/-- Without its first character a text has as many occurrences, unless one starts there. -/
theorem Packs.tail {n : Nat} {c : Char} {t : Text} (h : Packs needle n (c :: t))
    (hnot : ¬ needle <+: c :: t) : Packs needle n t := by
  generalize hw : c :: t = w at h
  cases h with
  | none => exact .none t
  | @next gap n rest later =>
    cases gap with
    | nil => exact absurd (hw ▸ List.prefix_append needle rest) hnot
    | cons d gap =>
      cases hw
      exact .next gap later

/-- Behind an occurrence at the start one fewer is left: wherever the first one was chosen, the
others come behind this one. -/
theorem Packs.behind {n : Nat} {rest : Text} (h : Packs needle (n + 1) (needle ++ rest)) :
    Packs needle n rest := by
  generalize hw : needle ++ rest = w at h
  cases h with
  | @next gap _ others later =>
    have hlength := congrArg List.length hw
    simp only [List.length_append] at hlength
    have hothers : others <:+ needle ++ rest :=
      hw ▸ (List.suffix_append needle others).trans (List.suffix_append gap _)
    obtain ⟨between, rfl⟩ :=
      List.suffix_of_suffix_length_le hothers (List.suffix_append needle rest) (by omega)
    exact later.prepend between

/-! ## Counting from the left -/

theorem occurrencesAfter_eq (needle : Text) (skip : Nat) (t : Text) :
    occurrencesAfter needle skip t = occurrences needle (t.drop skip) := by
  induction t generalizing skip with
  | nil => cases skip <;> rfl
  | cons c t ih =>
    cases skip with
    | zero => rfl
    | succ skip => exact ih skip

theorem occurrences_behind (hne : needle ≠ []) (rest : Text) :
    occurrences needle (needle ++ rest) = occurrences needle rest + 1 := by
  obtain ⟨c, tail, rfl⟩ := List.exists_cons_of_ne_nil hne
  have hprefix : (c :: tail).isPrefixOf (c :: (tail ++ rest)) = true :=
    List.isPrefixOf_iff_prefix.2 (List.prefix_append (c :: tail) rest)
  rw [occurrences, List.cons_append, occurrencesAfter, if_pos hprefix, occurrencesAfter_eq]
  simp

theorem occurrences_cons {c : Char} {t : Text} (hnot : ¬ needle <+: c :: t) :
    occurrences needle (c :: t) = occurrences needle t := by
  rw [occurrences, occurrencesAfter, if_neg (mt List.isPrefixOf_iff_prefix.1 hnot)]
  rfl

/-- The occurrences that are counted stand in the text without overlap. -/
theorem packs_occurrences (hne : needle ≠ []) (t : Text) :
    Packs needle (occurrences needle t) t := by
  induction h : t.length using Nat.strongRecOn generalizing t with
  | ind n ih =>
    cases t with
    | nil => exact .none []
    | cons c t =>
      by_cases hprefix : needle <+: c :: t
      · obtain ⟨rest, hrest⟩ := hprefix
        have hlength := congrArg List.length hrest
        have hpos := List.length_pos_iff.2 hne
        simp only [List.length_append] at hlength
        rw [← hrest, occurrences_behind hne]
        exact .next [] (ih rest.length (by omega) rest rfl)
      · rw [occurrences_cons hprefix]
        exact (ih t.length (by simp at h; omega) t rfl).prepend [c]

/-- **No choice of occurrences without overlap has more of them than `occurrences` counts.** -/
theorem Packs.le_occurrences (hne : needle ≠ []) {n : Nat} {t : Text} (h : Packs needle n t) :
    n ≤ occurrences needle t := by
  induction hl : t.length using Nat.strongRecOn generalizing t n with
  | ind l ih =>
    cases t with
    | nil =>
      generalize hw : ([] : Text) = w at h
      cases h with
      | none => exact Nat.zero_le _
      | next gap later =>
        have hnil := List.append_eq_nil_iff.1 hw.symm
        exact absurd (List.append_eq_nil_iff.1 hnil.2).1 hne
    | cons c t =>
      by_cases hprefix : needle <+: c :: t
      · obtain ⟨rest, hrest⟩ := hprefix
        have hlength := congrArg List.length hrest
        have hpos := List.length_pos_iff.2 hne
        simp only [List.length_append] at hlength
        rw [← hrest] at h ⊢
        rw [occurrences_behind hne]
        cases n with
        | zero => exact Nat.zero_le _
        | succ n => exact Nat.succ_le_succ (ih rest.length (by omega) h.behind rfl)
      · rw [occurrences_cons hprefix]
        exact ih t.length (by simp at hl; omega) (h.tail hprefix) rfl

/-! ## Texts that are joined -/

theorem occurrences_append_ge (hne : needle ≠ []) (s t : Text) :
    occurrences needle s + occurrences needle t ≤ occurrences needle (s ++ t) :=
  ((packs_occurrences hne s).append (packs_occurrences hne t)).le_occurrences hne

theorem occurrences_append_le (hne : needle ≠ []) (s t : Text) :
    occurrences needle (s ++ t) ≤ occurrences needle s + occurrences needle t + 1 := by
  obtain ⟨i, j, hi, hj, hle⟩ := (packs_occurrences hne (s ++ t)).split
  have hs := hi.le_occurrences hne
  have ht := hj.le_occurrences hne
  omega

theorem occurrences_char (x : Char) (t : Text) : occurrences [x] t = t.count x := by
  induction t with
  | nil => rfl
  | cons c t ih =>
    by_cases hc : x = c
    · subst hc
      have h := occurrences_behind (List.cons_ne_nil x []) t
      rw [List.singleton_append] at h
      rw [h, ih, List.count_cons_self]
    · have hnot : ¬ [x] <+: c :: t := by simp [List.cons_prefix_cons, hc]
      rw [occurrences_cons hnot, ih, List.count_cons_of_ne (Ne.symm hc)]

/-- How many occurrences of `needle` a seam between two texts may add. -/
def seam (needle : Text) : Nat := if needle.length ≤ 1 then 0 else 1

theorem occurrences_append_le_seam (hne : needle ≠ []) (s t : Text) :
    occurrences needle (s ++ t) ≤ occurrences needle s + occurrences needle t + seam needle := by
  unfold seam
  split
  · next hshort =>
    obtain ⟨x, rfl⟩ : ∃ x, needle = [x] := by
      have hpos := List.length_pos_iff.2 hne
      exact List.length_eq_one_iff.1 (by omega)
    simp only [occurrences_char, List.count_append]
    exact Nat.le_refl _
  · exact occurrences_append_le hne s t

end Text

namespace ContentClass

/-! ## Scores -/

theorem score_cons (i : Indicator) (is : List Indicator) (t : Text) :
    score (i :: is) t = Text.occurrences i.needle t * i.weight + score is t := rfl

/-- The weight of every indicator once. -/
def totalWeight (is : List Indicator) : Nat := is.foldr (fun i total => i.weight + total) 0

/-- What a seam between two texts may add to the score of the indicators `is`. -/
def seamWeight (is : List Indicator) : Nat :=
  is.foldr (fun i total => Text.seam i.needle * i.weight + total) 0

theorem score_append (is : List Indicator) (hne : ∀ i ∈ is, i.needle ≠ []) (a b : Text) :
    score is a + score is b ≤ score is (a ++ b) ∧
      score is (a ++ b) ≤ score is a + score is b + seamWeight is := by
  induction is with
  | nil => exact ⟨Nat.le_refl 0, Nat.le_refl 0⟩
  | cons i is ih =>
    obtain ⟨hge, hle⟩ := ih fun j hj => hne j (List.mem_cons_of_mem i hj)
    have hi := hne i List.mem_cons_self
    have hfirst := Nat.mul_le_mul_right i.weight (Text.occurrences_append_ge hi a b)
    have hlast := Nat.mul_le_mul_right i.weight (Text.occurrences_append_le_seam hi a b)
    rw [Nat.add_mul] at hfirst
    rw [Nat.add_mul, Nat.add_mul] at hlast
    have hseam : seamWeight (i :: is) = Text.seam i.needle * i.weight + seamWeight is := rfl
    rw [score_cons, score_cons, score_cons, hseam]
    omega

theorem ofText_eq_code_iff (t : Text) : ofText t = .code ↔ threshold < codeScore t := by
  unfold ofText
  split
  · next h => exact ⟨fun _ => h, fun _ => rfl⟩
  · next h => split <;> simp [h]

theorem ofText_eq_naturalText_iff (t : Text) :
    ofText t = .naturalText ↔ codeScore t ≤ threshold ∧ structuredScore t ≤ threshold := by
  unfold ofText
  split
  · next h => simp [Nat.not_le.2 h]
  · split
    · next h => simp [Nat.not_le.2 h]
    · next hcode hstructured => simp [Nat.not_lt.1 hcode, Nat.not_lt.1 hstructured]

theorem lt_structuredScore_of_ofText {t : Text} (h : ofText t = .structuredData) :
    threshold < structuredScore t := by
  unfold ofText at h
  split at h
  · cases h
  · split at h
    · assumption
    · cases h

/-- **Scores of joined texts.** `codeScore (a ++ b)` is at least the sum of the scores of `a` and
`b`, and greater by at most 20, the weight of every indicator once; `structuredScore (a ++ b)` is
greater by at most the weight of the two quoted words. So text around a text takes no evidence from
it: what is code stays code, and structured data does not become natural text. -/
theorem scores_append (a b : Text) :
    (codeScore a + codeScore b ≤ codeScore (a ++ b) ∧
      codeScore (a ++ b) ≤ codeScore a + codeScore b + 20 ∧ totalWeight codeIndicators = 20) ∧
    (structuredScore a + structuredScore b ≤ structuredScore (a ++ b) ∧
      structuredScore (a ++ b) ≤ structuredScore a + structuredScore b + 4) ∧
    (ofText a = .code ∨ ofText b = .code → ofText (a ++ b) = .code) ∧
    (ofText a = .structuredData ∨ ofText b = .structuredData → ofText (a ++ b) ≠ .naturalText) := by
  obtain ⟨hcode_ge, hcode_le⟩ := score_append codeIndicators (by decide) a b
  obtain ⟨hstructured_ge, hstructured_le⟩ := score_append structuredIndicators (by decide) a b
  have hcode : codeScore a + codeScore b ≤ codeScore (a ++ b) := hcode_ge
  have hstructured : structuredScore a + structuredScore b ≤ structuredScore (a ++ b) :=
    hstructured_ge
  refine ⟨⟨hcode, hcode_le, rfl⟩, ⟨hstructured, hstructured_le⟩, ?_, ?_⟩
  · rw [ofText_eq_code_iff, ofText_eq_code_iff, ofText_eq_code_iff]
    omega
  · intro h
    rw [Ne, ofText_eq_naturalText_iff]
    rcases h with h | h
    · have := lt_structuredScore_of_ofText h
      omega
    · have := lt_structuredScore_of_ofText h
      omega

/-- Two blanks on each side of a seam make an indentation that neither side has. -/
theorem scores_append_seam :
    let a := "def f:\n  def g:\n  def h:\n  def i:\n  ".toList
    let b := "  return 1".toList
    ofText a = .code ∧ codeScore a = 12 ∧ codeScore b = 3 ∧ codeScore (a ++ b) = 17 ∧
      ofText (a ++ b) = .code := by
  intro a b
  have ha : ofText a = .code := by decide
  exact ⟨ha, by decide, by decide, by decide, (scores_append a b).2.2.1 (.inl ha)⟩

end ContentClass
end ClipLedger
