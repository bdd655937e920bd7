import ClipLedger.Proofs.Text.Pairs

/-
  The lines with a colon that are picked from a text. The end of a line is blank, so trimming would
  take it anyway (`trim_withoutLineEnd`), and what is picked before a line feed and after it does
  not depend on each other (`colonLines_append_lineFeed`). So the lines picked from joined texts are
  those picked from each (`colonLines_join`), and lines that were picked once are picked again as
  they are (`colonLines_join_self`).
-/
namespace ClipLedger.Text

/-! ## One line -/

theorem trim_withoutLineEnd (t : Text) : trim (withoutLineEnd t) = trim t := by
  obtain ⟨e, ht, he⟩ := exists_line_end t
  conv_rhs => rw [← ht]
  exact (trim_append_blanks _ he).symm

theorem colon_mem_withoutLineEnd (t : Text) : ':' ∈ withoutLineEnd t ↔ ':' ∈ t := by
  obtain ⟨e, ht, he⟩ := exists_line_end t
  refine ⟨mem_of_mem_withoutLineEnd, fun h => ?_⟩
  rw [← ht] at h
  exact (List.mem_append.1 h).resolve_right fun hmem => absurd (he _ hmem) (by decide)

/-- The lines may be picked before their ends are taken off. -/
theorem colonLines_eq (t : Text) :
    colonLines t = ((pieces t).filter fun p => p.contains ':').map trim := by
  have hpick : (fun l : Text => l.contains ':') ∘ withoutLineEnd = fun p => p.contains ':' := by
    funext p
    simp [colon_mem_withoutLineEnd]
  have htrim : trim ∘ withoutLineEnd = trim := funext trim_withoutLineEnd
  unfold colonLines lines
  rw [List.filter_map, List.map_map, hpick, htrim]

theorem colonLines_of_not_mem {u : Text} (hu : '\n' ∉ u) :
    colonLines u = if ':' ∈ u then [trim u] else [] := by
  by_cases hne : u = []
  · subst hne
    rfl
  · rw [colonLines_eq, pieces_of_not_mem hu hne, List.filter_singleton]
    split <;> simp_all

/-! ## Several lines -/

theorem pieces_append_lineFeed {u : Text} (hu : '\n' ∉ u) (b : Text) :
    pieces (u ++ '\n' :: b) = (u ++ ['\n']) :: pieces b := by
  induction u with
  | nil => rw [List.nil_append, pieces, if_pos rfl, List.nil_append]
  | cons c u ih =>
    obtain ⟨hc, hu⟩ := List.ne_and_not_mem_of_not_mem_cons hu
    rw [List.cons_append, pieces, if_neg (Ne.symm hc), ih hu]
    rfl

/-- **`colonLines` picks the same lines on either side of a line feed.** -/
theorem colonLines_append_lineFeed (a b : Text) :
    colonLines (a ++ '\n' :: b) = colonLines a ++ colonLines b := by
  obtain ⟨whole, u, rfl, hu, hpieces⟩ := exists_whole_lines a
  have hwhole (x : Text) : colonLines (whole ++ x) = colonLines whole ++ colonLines x := by
    rw [colonLines_eq, colonLines_eq, colonLines_eq, hpieces, List.filter_append, List.map_append]
  have hline : colonLines (u ++ '\n' :: b) = colonLines u ++ colonLines b := by
    have htrim : trim (u ++ ['\n']) = trim u := trim_append_blanks u (by decide)
    rw [colonLines_of_not_mem hu, colonLines_eq, colonLines_eq, pieces_append_lineFeed hu,
      List.filter_cons]
    by_cases hcolon : ':' ∈ u
    · simp [hcolon, htrim]
    · simp [hcolon]
  rw [List.append_assoc, hwhole, hwhole, hline, List.append_assoc]

theorem colonLines_join (ts : List Text) : colonLines (join ['\n'] ts) = ts.flatMap colonLines := by
  induction ts with
  | nil => rfl
  | cons t ts ih =>
    cases ts with
    | nil => exact (List.flatMap_singleton _ t).symm
    | cons u us =>
      have hjoin : join ['\n'] (t :: u :: us) = t ++ '\n' :: join ['\n'] (u :: us) := by simp [join]
      rw [hjoin, colonLines_append_lineFeed, ih, ← List.flatMap_cons]

/-! ## Picked lines -/

/-- `l` is a line as `colonLines` picks it: it has a colon, and there is nothing to trim or to
split. -/
structure IsColonLine (l : Text) : Prop where
  colon : ':' ∈ l
  single : '\n' ∉ l
  trimmed : trim l = l

theorem IsColonLine.colonLines_eq {l : Text} (h : IsColonLine l) : colonLines l = [l] := by
  rw [colonLines_of_not_mem h.single, if_pos h.colon, h.trimmed]

theorem isColonLine_of_mem {t l : Text} (h : l ∈ colonLines t) : IsColonLine l := by
  -- line by line: the text ends, or goes on after its first line feed
  induction hn : t.length using Nat.strong_induction_on generalizing t with
  | _ n ih =>
    have hone : ∀ {u : Text}, '\n' ∉ u → l ∈ colonLines u → IsColonLine l := by
      intro u hu hl
      rw [colonLines_of_not_mem hu] at hl
      split at hl
      · next hcolon =>
        rw [List.mem_singleton.1 hl]
        exact ⟨colon_mem_trim hcolon, fun hmem => hu (mem_of_mem_trim hmem), trim_trim u⟩
      · cases hl
    by_cases hline : '\n' ∈ t
    · obtain ⟨u, b, rfl, hu⟩ := List.eq_append_cons_of_mem hline
      rw [colonLines_append_lineFeed] at h
      rcases List.mem_append.1 h with h | h
      · exact hone hu h
      · refine ih b.length ?_ h rfl
        rw [← hn, List.length_append, List.length_cons]
        omega
    · exact hone hline h

theorem colonLines_join_of_isColonLine {ls : List Text} (h : ∀ l ∈ ls, IsColonLine l) :
    colonLines (join ['\n'] ls) = ls := by
  rw [colonLines_join, List.flatMap_congr fun l hl => (h l hl).colonLines_eq,
    List.flatMap_singleton']

/-- **Picked lines are picked again as they are.** -/
theorem colonLines_join_self (t : Text) :
    colonLines (join ['\n'] (colonLines t)) = colonLines t :=
  colonLines_join_of_isColonLine fun _ => isColonLine_of_mem

end ClipLedger.Text
