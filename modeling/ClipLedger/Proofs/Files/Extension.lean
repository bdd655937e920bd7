import ClipLedger.Capture.Screenshots
import ClipLedger.Proofs.Text.Utf8
import Mathlib.Data.List.TakeWhile

/-
  File names with an extension. The extension is what follows the last dot, if something stands
  before that dot (`extension?_eq_some`); so a name is that of an image if it is a stem, a dot and
  the three letters, each in either case (`isImageName_iff`).
-/
namespace ClipLedger

namespace Path

theorem bne_dot_of_not_mem {name : Bytes} (h : dot ∉ name) :
    ∀ b ∈ name.reverse, (b != dot) = true := by
  intro b hb
  rw [bne_iff_ne]
  rintro rfl
  exact h (List.mem_reverse.1 hb)

/-- An extension without a dot is what `reverse` and `takeWhile` find behind the last dot. -/
theorem last_dot (stem : Bytes) {extension : Bytes} (h : dot ∉ extension) :
    ((stem ++ dot :: extension).reverse.takeWhile (· != dot)).reverse = extension ∧
      (stem ++ dot :: extension).take
        ((stem ++ dot :: extension).length - extension.length - 1) = stem := by
  have hreverse :
      (stem ++ dot :: extension).reverse = extension.reverse ++ dot :: stem.reverse := by
    simp
  have hlength : (stem ++ dot :: extension).length - extension.length - 1 = stem.length := by
    rw [List.length_append, List.length_cons]
    omega
  constructor
  · rw [hreverse, List.takeWhile_append_of_pos (bne_dot_of_not_mem h),
      List.takeWhile_cons_of_neg (by decide), List.append_nil, List.reverse_reverse]
  · rw [hlength]
    exact List.take_left

/-- A name with a dot has a last one. -/
theorem exists_last_dot {name : Bytes} (h : dot ∈ name) :
    ∃ stem last, name = stem ++ dot :: last ∧ dot ∉ last := by
  obtain ⟨ending, front, hsplit, hending⟩ := List.eq_append_cons_of_mem (List.mem_reverse.2 h)
  refine ⟨front.reverse, ending.reverse, ?_, fun hmem => hending (List.mem_reverse.1 hmem)⟩
  rw [← List.reverse_reverse name, hsplit]
  simp

theorem extension?_eq_some {name extension : Bytes} :
    extension? name = some extension ↔ name ≠ [dot, dot] ∧
      ∃ stem, stem ≠ [] ∧ name = stem ++ dot :: extension ∧ dot ∉ extension := by
  unfold extension?
  by_cases hdots : name = [dot, dot]
  · simp [hdots]
  rw [if_neg hdots]
  dsimp only
  by_cases hdot : dot ∈ name
  · obtain ⟨stem, last, rfl, hlast⟩ := exists_last_dot hdot
    obtain ⟨hafter, hbefore⟩ := last_dot stem hlast
    have hshorter : last.length ≠ (stem ++ dot :: last).length := by
      rw [List.length_append, List.length_cons]
      omega
    rw [hafter, hbefore]
    constructor
    · intro h
      split at h
      · cases h
      next hstem =>
      cases h
      exact ⟨hdots, stem, fun he => hstem (.inr he), rfl, hlast⟩
    · rintro ⟨-, stem', hne, hname, hplain⟩
      -- the name has one last dot only
      obtain ⟨hafter', hbefore'⟩ := last_dot stem' hplain
      rw [← hname, hafter] at hafter'
      subst hafter'
      rw [← hname, hbefore] at hbefore'
      subst hbefore'
      rw [if_neg (not_or.2 ⟨hshorter, hne⟩)]
  · have hall : name.reverse.takeWhile (· != dot) = name.reverse :=
      List.takeWhile_eq_self_iff.2 (bne_dot_of_not_mem hdot)
    rw [hall, List.reverse_reverse, if_pos (.inl rfl)]
    constructor
    · intro h
      cases h
    · rintro ⟨-, stem, -, rfl, -⟩
      exact absurd (List.mem_append_right stem List.mem_cons_self) hdot

end Path

namespace Screenshots

/-- **`isImageName`** holds of a stem that is not empty, a dot and `png` in letters of either
case. -/
theorem isImageName_iff {name : Bytes} : isImageName name = true ↔
    ∃ stem extension, stem ≠ [] ∧ name = stem ++ Path.dot :: Utf8.encode extension ∧
      Text.asciiLower extension = "png".toList := by
  have hpng : Text.asciiLower "png".toList = "png".toList := by decide
  unfold isImageName
  constructor
  · intro h
    split at h
    · next extension hread =>
      obtain ⟨ending, hending, hdecode⟩ := Option.bind_eq_some_iff.1 hread
      obtain ⟨-, stem, hstem, hname, -⟩ := Path.extension?_eq_some.1 hending
      rw [Utf8.decode?_eq_some_iff] at hdecode
      rw [Text.sameIgnoringCase, hpng, beq_iff_eq] at h
      exact ⟨stem, extension, hstem, by rw [hdecode, hname], h⟩
    · cases h
  · rintro ⟨stem, extension, hstem, rfl, hlower⟩
    have hplain : Path.dot ∉ Utf8.encode extension := by
      intro hmem
      have hdot : '.' ∈ extension := Utf8.mem_encode_ascii (by decide) hmem
      have hlow : Char.toLower '.' ∈ Text.asciiLower extension := List.mem_map_of_mem hdot
      rw [hlower] at hlow
      exact absurd hlow (by decide)
    have hdots : stem ++ Path.dot :: Utf8.encode extension ≠ [Path.dot, Path.dot] := by
      intro hsame
      have hdecode := Utf8.decode?_encode extension
      have hnil : Utf8.encode extension = [] := by
        have hlength := congrArg List.length hsame
        have hpos := List.length_pos_iff.2 hstem
        simp only [List.length_append, List.length_cons, List.length_nil] at hlength
        exact List.length_eq_zero_iff.1 (by omega)
      rw [hnil] at hdecode
      cases hdecode
      cases hlower
    rw [Path.extension?_eq_some.2 ⟨hdots, stem, hstem, rfl, hplain⟩, Option.bind_some,
      Utf8.decode?_encode]
    dsimp only
    rw [Text.sameIgnoringCase, hpng, hlower, beq_self_eq_true]

end Screenshots
end ClipLedger
