import ClipLedger.Proofs.Text.Trim
import ClipLedger.Text.Pairs
import ClipLedger.Text.Basic

/-
  The vocabulary of a text that was cut. A cut leaves all lines before it as they are, and the
  marker after it holds neither a colon nor a line feed, so of all pairs only the last can change,
  and that one keeps its key (`pairs_truncate`). A cut loses keys; it makes none up
  (`keys_truncate`).
-/
namespace ClipLedger.Text

/-! ## One line -/

/-- The pair on one of the `pieces` of a text, if it names one. -/
def piecePair? (piece : Text) : Option Pair :=
  if (withoutLineEnd piece).contains ':' then pair? (trim (withoutLineEnd piece)) else none

theorem pairs_eq (t : Text) : pairs t = (pieces t).filterMap piecePair? := by
  unfold pairs colonLines lines
  rw [List.filterMap_map, List.filterMap_filter, List.filterMap_map]
  rfl

theorem splitFirst_append {sep : Char} {u : Text} (hu : sep ∉ u) (r : Text) :
    splitFirst sep (u ++ sep :: r) = some (u, r) := by
  induction u with
  | nil => simp [splitFirst]
  | cons c u ih =>
    obtain ⟨hc, hu⟩ := List.ne_and_not_mem_of_not_mem_cons hu
    rw [List.cons_append, splitFirst, if_neg (Ne.symm hc), ih hu]
    rfl

theorem withoutLineEnd_append_colon (u r : Text) :
    withoutLineEnd (u ++ ':' :: r) = u ++ ':' :: withoutLineEnd r := by
  induction u with
  | nil => simp [withoutLineEnd]
  | cons c u ih =>
    -- there is a colon to come, so this is no line end
    have hcolon : ':' ∈ u ++ ':' :: r := by simp
    rw [List.cons_append, List.cons_append, ← ih]
    generalize u ++ ':' :: r = rest at hcolon ⊢
    refine withoutLineEnd.eq_4 c rest ?_ ?_
    · rintro - rfl
      cases hcolon
    · rintro - rfl
      exact absurd hcolon (by decide)

/-- The end of a line is blank. -/
theorem exists_line_end (t : Text) : ∃ e, withoutLineEnd t ++ e = t ∧ Blank e := by
  fun_induction withoutLineEnd t with
  | case1 => exact ⟨[], rfl, by decide⟩
  | case2 => exact ⟨['\n'], rfl, by decide⟩
  | case3 => exact ⟨['\r', '\n'], rfl, by decide⟩
  | case4 c rest _ _ ih =>
    obtain ⟨e, hrest, he⟩ := ih
    exact ⟨e, congrArg (c :: ·) hrest, he⟩

theorem mem_of_mem_withoutLineEnd {c : Char} {t : Text} (h : c ∈ withoutLineEnd t) : c ∈ t := by
  obtain ⟨e, ht, -⟩ := exists_line_end t
  have hmem := List.mem_append_left e h
  rwa [ht] at hmem

/-- A piece without a colon names no pair. -/
theorem piecePair?_of_not_mem {piece : Text} (h : ':' ∉ piece) : piecePair? piece = none := by
  have hnot : (withoutLineEnd piece).contains ':' = false := by
    rw [List.contains_eq_mem, decide_eq_false_iff_not]
    exact fun hmem => h (mem_of_mem_withoutLineEnd hmem)
  rw [piecePair?, hnot, if_neg Bool.false_ne_true]

/-- The key on a piece is what stands before its first colon, whatever follows that. -/
theorem piecePair?_key {u : Text} (hu : ':' ∉ u) (r : Text) :
    (piecePair? (u ++ ':' :: r)).map Pair.key = if trim u = [] then none else some (trim u) := by
  have hstart : ':' ∉ trimStart u := fun h => hu ((List.dropWhile_sublist isBlank).mem h)
  have hcolon : (u ++ ':' :: withoutLineEnd r).contains ':' = true := by simp
  rw [piecePair?, withoutLineEnd_append_colon, hcolon, if_pos rfl, trim_append_colon, pair?,
    splitFirst_append hstart]
  dsimp only
  rw [trim_trimStart]
  split
  · rfl
  · rfl

/-! ## The pieces of a text that goes on -/

/-- A text is some whole lines and a rest without a line feed. -/
theorem exists_whole_lines (a : Text) : ∃ whole rest, a = whole ++ rest ∧ '\n' ∉ rest ∧
    ∀ b, pieces (whole ++ b) = pieces whole ++ pieces b := by
  induction a with
  | nil => exact ⟨[], [], rfl, List.not_mem_nil, fun _ => rfl⟩
  | cons c a ih =>
    obtain ⟨whole, rest, ha, hrest, hpieces⟩ := ih
    by_cases hc : c = '\n'
    · refine ⟨c :: whole, rest, by rw [ha, List.cons_append], hrest, fun b => ?_⟩
      rw [List.cons_append, pieces, pieces, if_pos hc, if_pos hc, hpieces, List.cons_append]
    cases whole with
    | nil =>
      refine ⟨[], c :: rest, by rw [ha, List.nil_append, List.nil_append], ?_, fun _ => rfl⟩
      simp [hrest, Ne.symm hc]
    | cons d whole =>
      refine ⟨c :: d :: whole, rest, by rw [ha]; rfl, hrest, fun b => ?_⟩
      have hne : pieces (d :: whole) ≠ [] := fun h => by
        have hflat := pieces_flatten (d :: whole)
        rw [h] at hflat
        cases hflat
      obtain ⟨p, ps, hp⟩ := List.exists_cons_of_ne_nil hne
      rw [List.cons_append, pieces, if_neg hc, hpieces, pieces.eq_2 c, if_neg hc, hp]
      rfl

theorem pieces_of_not_mem {t : Text} (h : '\n' ∉ t) (hne : t ≠ []) : pieces t = [t] := by
  induction t with
  | nil => exact absurd rfl hne
  | cons c t ih =>
    obtain ⟨hc, ht⟩ := List.ne_and_not_mem_of_not_mem_cons h
    rw [pieces, if_neg (Ne.symm hc)]
    cases t with
    | nil => rfl
    | cons d t => rw [ih ht (List.cons_ne_nil d t)]

/-- Text in front that holds no line feed belongs to the first piece. -/
theorem pieces_append_of_not_mem {u : Text} (hu : '\n' ∉ u) {b : Text} (hb : b ≠ []) :
    ∃ v ps, pieces (u ++ b) = (u ++ v) :: ps := by
  induction u with
  | nil =>
    cases hp : pieces b with
    | nil =>
      have hflat := pieces_flatten b
      rw [hp] at hflat
      exact absurd hflat.symm hb
    | cons p ps => exact ⟨p, ps, hp⟩
  | cons c u ih =>
    obtain ⟨hc, hu⟩ := List.ne_and_not_mem_of_not_mem_cons hu
    obtain ⟨v, ps, hp⟩ := ih hu
    refine ⟨v, ps, ?_⟩
    rw [List.cons_append, pieces, if_neg (Ne.symm hc), hp]
    rfl

/-! ## A cut -/

/-- **A cut makes up no pairs.** The pairs of the cut text are those of the text, but for the last
one, which has the same key. -/
theorem pairs_truncate (max : Nat) (t : Text) : ∃ same cut rest,
    pairs (truncate max t) = same ++ cut ∧ pairs t = same ++ rest ∧ cut.length ≤ 1 ∧
      cut.map Pair.key <+: rest.map Pair.key := by
  by_cases hshort : t.length ≤ max
  · rw [truncate_of_le hshort]
    exact ⟨pairs t, [], [], by simp, by simp, Nat.zero_le 1, List.nil_prefix⟩
  obtain ⟨whole, u, hu, hline, hpieces⟩ := exists_whole_lines (t.take max)
  have hleft : t.drop max ≠ [] := by
    intro h
    have hdrop := congrArg List.length h
    rw [List.length_drop, List.length_nil] at hdrop
    omega
  obtain ⟨v, ps, hv⟩ := pieces_append_of_not_mem hline hleft
  have hmark : '\n' ∉ u ++ truncationMarker := by
    have hnot : '\n' ∉ truncationMarker := by decide
    simp [hline, hnot]
  have hone : pieces (u ++ truncationMarker) = [u ++ truncationMarker] :=
    pieces_of_not_mem hmark (List.append_ne_nil_of_right_ne_nil _ (by decide))
  have hcut : pairs (truncate max t) = (pieces whole).filterMap piecePair? ++
      [u ++ truncationMarker].filterMap piecePair? := by
    rw [pairs_eq, truncate, if_neg hshort, hu, List.append_assoc, hpieces, hone,
      List.filterMap_append]
  have hwhole : pairs t = (pieces whole).filterMap piecePair? ++
      ((u ++ v) :: ps).filterMap piecePair? := by
    have ht : t = whole ++ (u ++ t.drop max) := by
      rw [← List.append_assoc, ← hu, List.take_append_drop]
    rw [pairs_eq, ht, hpieces, hv, List.filterMap_append]
  refine ⟨_, _, _, hcut, hwhole, List.length_filterMap_le _ _, ?_⟩
  by_cases hcolon : ':' ∈ u
  · obtain ⟨w, r, rfl, hw⟩ := List.eq_append_cons_of_mem hcolon
    have hkeys (x : Text) := piecePair?_key hw (r ++ x)
    rw [List.map_filterMap, List.map_filterMap, List.append_assoc, List.append_assoc,
      List.cons_append, List.cons_append]
    simp only [List.filterMap_cons, List.filterMap_nil, hkeys]
    split
    · exact List.nil_prefix
    · exact List.prefix_append _ _
  · have hnone : piecePair? (u ++ truncationMarker) = none := by
      have hnot : ':' ∉ truncationMarker := by decide
      exact piecePair?_of_not_mem (by simp [hcolon, hnot])
    rw [List.filterMap_cons_none hnone]
    exact List.nil_prefix

theorem truncate_of_lt {max : Nat} {t : Text} (h : max < t.length) :
    truncate max t = t.take max ++ truncationMarker := if_neg (Nat.not_le.2 h)

/-- A cut text is longer than `max` by the marker alone, so it is cut there again. -/
theorem truncate_truncate (max : Nat) (t : Text) :
    truncate max (truncate max t) = truncate max t := by
  rcases Nat.lt_or_ge max t.length with hlong | hshort
  · have hleft : (t.take max).length = max := List.length_take_of_le (Nat.le_of_lt hlong)
    have hmore : max < (t.take max ++ truncationMarker).length := by
      have hm : truncationMarker.length = 15 := by decide
      rw [List.length_append, hleft, hm]
      omega
    rw [truncate_of_lt hlong, truncate_of_lt hmore,
      List.take_append_of_le_length (Nat.le_of_eq hleft.symm), List.take_take, Nat.min_self]
  · rw [truncate_of_le hshort, truncate_of_le hshort]

/-- **What a cut leaves of the vocabulary.** The keys of `truncate max t` are the first ones of `t`,
and each but the last has the value that it has there. A text of at most `max` characters is not
cut, and one that was cut is not cut further. -/
theorem keys_truncate (max : Nat) (t : Text) :
    (pairs (truncate max t)).map Pair.key <+: (pairs t).map Pair.key ∧
    (∀ i, i + 1 < (pairs (truncate max t)).length →
      (pairs (truncate max t))[i]? = (pairs t)[i]?) ∧
    truncate max (truncate max t) = truncate max t ∧
    (t.length ≤ max → truncate max t = t) ∧
    (max < t.length → truncate max t = t.take max ++ truncationMarker) := by
  obtain ⟨same, cut, rest, hcut, hwhole, hone, hkeys⟩ := pairs_truncate max t
  refine ⟨?_, fun i hi => ?_, truncate_truncate max t, truncate_of_le, truncate_of_lt⟩
  · rw [hcut, hwhole, List.map_append, List.map_append, List.prefix_append_right_inj]
    exact hkeys
  · rw [hcut, List.length_append] at hi
    have hsame : i < same.length := by omega
    rw [hcut, hwhole, List.getElem?_append_left hsame, List.getElem?_append_left hsame]

/-- The cut falls between a carriage return and its line feed, and the marker goes to the value. -/
theorem keys_truncate_at_line_end :
    let t := "kind: note\r\ntopic: space\r\ntime: 12:30".toList
    let left := "kind: note\r\ntopic: space\r... [truncated]".toList
    25 < t.length ∧ truncate 25 t = left ∧
      pairs left = [⟨"kind".toList, "note".toList⟩,
        ⟨"topic".toList, "space\r... [truncated]".toList⟩] ∧
      (pairs left).map Pair.key <+: (pairs t).map Pair.key ∧
      0 + 1 < (pairs left).length ∧ (pairs left)[0]? = (pairs t)[0]? := by
  intro t left
  obtain ⟨hkeys, hvalues, -, -, hcut⟩ := keys_truncate 25 t
  have hlong : 25 < t.length := by decide +kernel
  have hleft : truncate 25 t = left := hcut hlong
  rw [hleft] at hkeys hvalues
  have htwo : 0 + 1 < (pairs left).length := by decide +kernel
  exact ⟨hlong, hleft, by decide +kernel, hkeys, htwo, hvalues 0 htwo⟩

end ClipLedger.Text
