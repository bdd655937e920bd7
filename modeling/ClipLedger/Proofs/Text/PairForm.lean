import ClipLedger.Proofs.Text.ColonLines

/-
  Pairs as they are read, and as they are printed. What is read has a trimmed key that is not empty
  and has no colon, a trimmed value, and no line feed on either side (`normal_of_mem_pairs`). Such
  pairs, printed one on a line, are read as they were (`pairs_render`): a space after the colon is
  trimmed with the value, and also where the value is empty, and further colons belong to the value.
-/
namespace ClipLedger

/-- `p` is a pair as it is read: nothing to trim, one line, and a key that ends at the first
colon. -/
structure Pair.Normal (p : Pair) : Prop where
  named : p.key ≠ []
  key_trimmed : Text.trim p.key = p.key
  key_plain : ':' ∉ p.key
  key_single : '\n' ∉ p.key
  value_trimmed : Text.trim p.value = p.value
  value_single : '\n' ∉ p.value

instance (p : Pair) : Decidable p.Normal :=
  decidable_of_iff (p.key ≠ [] ∧ Text.trim p.key = p.key ∧ ':' ∉ p.key ∧ '\n' ∉ p.key ∧
      Text.trim p.value = p.value ∧ '\n' ∉ p.value)
    ⟨fun ⟨h₁, h₂, h₃, h₄, h₅, h₆⟩ => ⟨h₁, h₂, h₃, h₄, h₅, h₆⟩,
      fun h => ⟨h.named, h.key_trimmed, h.key_plain, h.key_single, h.value_trimmed,
        h.value_single⟩⟩

namespace Text

/-! ## What is read -/

theorem splitFirst_eq_some {sep : Char} {t before after : Text}
    (h : splitFirst sep t = some (before, after)) : t = before ++ sep :: after ∧ sep ∉ before := by
  induction t generalizing before with
  | nil => cases h
  | cons c rest ih =>
    rw [splitFirst] at h
    split at h
    · next hc =>
      cases h
      exact ⟨by rw [hc, List.nil_append], List.not_mem_nil⟩
    · next hc =>
      obtain ⟨⟨b, a⟩, hrest, heq⟩ := Option.map_eq_some_iff.1 h
      cases heq
      obtain ⟨rfl, hb⟩ := ih hrest
      exact ⟨rfl, List.not_mem_cons_of_ne_of_not_mem (Ne.symm hc) hb⟩

theorem normal_of_pair? {l : Text} (hline : '\n' ∉ l) {p : Pair} (h : pair? l = some p) :
    p.Normal := by
  unfold pair? at h
  split at h
  · cases h
  next before after hsplit =>
  obtain ⟨rfl, hcolon⟩ := splitFirst_eq_some hsplit
  rw [List.mem_append, List.mem_cons, not_or, not_or] at hline
  dsimp only at h
  split at h
  · cases h
  next hkey =>
  cases h
  exact ⟨hkey, trim_trim before, fun hmem => hcolon (mem_of_mem_trim hmem),
    fun hmem => hline.1 (mem_of_mem_trim hmem), trim_trim after,
    fun hmem => hline.2.2 (mem_of_mem_trim hmem)⟩

/-- **Whatever `pairs` reads is `Normal`.** -/
theorem normal_of_mem_pairs {t : Text} {p : Pair} (h : p ∈ pairs t) : p.Normal := by
  obtain ⟨l, hl, hp⟩ := List.mem_filterMap.1 h
  exact normal_of_pair? (isColonLine_of_mem hl).single hp

/-! ## What is printed -/

theorem pairs_join (ts : List Text) : pairs (join ['\n'] ts) = ts.flatMap pairs := by
  unfold pairs
  rw [colonLines_join, List.filterMap_flatMap]

/-- A printed pair is read from its line. -/
theorem pairs_line {p : Pair} (h : p.Normal) : pairs p.line = [p] := by
  have hline : p.line = p.key ++ ':' :: ' ' :: p.value := by simp [Pair.line]
  have hsingle : '\n' ∉ p.line := by simp [hline, h.key_single, h.value_single]
  have hcolon : ':' ∈ p.line := by simp [hline]
  have htrim : trim p.line = p.key ++ ':' :: trimEnd (' ' :: p.value) := by
    rw [hline, trim_append_colon, trimStart_of_trimmed h.key_trimmed]
  have hvalue : trim (trimEnd (' ' :: p.value)) = p.value := by
    rw [trim_trimEnd, ← trim_trimStart, trimStart, List.dropWhile_cons_of_pos (by decide),
      ← trimStart, trim_trimStart, h.value_trimmed]
  have hpair : pair? (trim p.line) = some p := by
    rw [htrim, pair?, splitFirst_append h.key_plain]
    dsimp only
    rw [h.key_trimmed, if_neg h.named, hvalue]
  rw [pairs, colonLines_of_not_mem hsingle, if_pos hcolon, List.filterMap_cons_some hpair,
    List.filterMap_nil]

/-- **Pairs that are `Normal` are read as `render` printed them.** -/
theorem pairs_render {ps : List Pair} (h : ∀ p ∈ ps, p.Normal) : pairs (Pair.render ps) = ps := by
  rw [Pair.render, pairs_join, List.flatMap_map, List.flatMap_congr fun p hp => pairs_line (h p hp),
    List.flatMap_singleton']

theorem pairs_render_pairs (t : Text) : pairs (Pair.render (pairs t)) = pairs t :=
  pairs_render fun _ => normal_of_mem_pairs

end Text
end ClipLedger
