/-
  Lists that are cut and thinned out: where a run of elements ends, and lists without their
  repetitions, of which `eraseDups` keeps each element where it stands first.
-/
namespace ClipLedger

variable {α : Type}

/-- `takeWhile` and `dropWhile` cut `l ++ rest` at the seam if `p` holds throughout `l` and fails at
the first element of `rest`. -/
theorem takeWhile_append_ends {p : α → Bool} {l rest : List α} (hl : ∀ x ∈ l, p x = true)
    (hr : ∀ x ∈ rest.head?, p x = false) :
    (l ++ rest).takeWhile p = l ∧ (l ++ rest).dropWhile p = rest := by
  rw [List.takeWhile_append_of_pos hl, List.dropWhile_append_of_pos hl]
  cases rest with
  | nil => simp
  | cons x rest => simp [hr x rfl]

theorem exists_mapM {β : Type} {f : α → Option β} {l : List α} (h : ∀ x ∈ l, ∃ y, f x = some y) :
    ∃ ys, l.mapM f = some ys := by
  induction l with
  | nil => exact ⟨[], rfl⟩
  | cons x l ih =>
    obtain ⟨y, hy⟩ := h x List.mem_cons_self
    obtain ⟨ys, hys⟩ := ih fun x' hx' => h x' (List.mem_cons_of_mem x hx')
    refine ⟨y :: ys, ?_⟩
    rw [List.mapM_cons, hy, hys]
    rfl

variable [BEq α] [LawfulBEq α]

theorem nodup_eraseDups : (l : List α) → l.eraseDups.Nodup
  | [] => List.nodup_nil
  | x :: l => by
    have hrest := nodup_eraseDups (l.filter fun y => !y == x)
    have hnot : x ∉ (l.filter fun y => !y == x).eraseDups := by
      intro h
      have hmem := List.mem_eraseDups.1 h
      simp at hmem
    rw [List.eraseDups_cons]
    exact List.nodup_cons.2 ⟨hnot, hrest⟩
termination_by l => l.length
decreasing_by
  have hle := List.length_filter_le (fun y => !y == x) l
  rw [List.length_cons]
  omega

/-- A last element is kept by `eraseDups` if it is new. -/
theorem eraseDups_concat (l : List α) (x : α) :
    (l ++ [x]).eraseDups = if x ∈ l then l.eraseDups else l.eraseDups ++ [x] := by
  rw [List.eraseDups_append]
  by_cases h : x ∈ l
  · simp [List.removeAll, h]
  · simp [List.removeAll, h, List.eraseDups_cons]

end ClipLedger
