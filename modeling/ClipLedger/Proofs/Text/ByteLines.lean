import ClipLedger.Text.Utf8

/-
  The lines of a byte sequence. A line feed ends a line; what follows the last one is unfinished.
  A sequence is framed when nothing is unfinished, that is when it is empty or ends in a line feed.
-/
namespace ClipLedger.Bytes

/-- The byte that ends a line. -/
def lineFeed : UInt8 := 0x0A

/-- The complete lines of `bytes`, without their line feeds. -/
def lines (bytes : Bytes) : List Bytes := (bytes.splitOn lineFeed).dropLast

/-- What stands behind the last line feed. -/
def unfinished (bytes : Bytes) : Bytes := (bytes.splitOn lineFeed).getLast (List.splitOn_ne_nil _ _)

/-- Nothing is `unfinished`: the bytes are none, or end in a line feed. -/
def Framed (bytes : Bytes) : Prop := bytes = [] ∨ bytes.getLast? = some lineFeed

theorem splitOn_eq (bytes : Bytes) : bytes.splitOn lineFeed = lines bytes ++ [unfinished bytes] :=
  (List.dropLast_concat_getLast (List.splitOn_ne_nil _ _)).symm

theorem lines_eq_of_splitOn {bytes : Bytes} {ls : List Bytes} {l : Bytes}
    (h : bytes.splitOn lineFeed = ls ++ [l]) : lines bytes = ls ∧ unfinished bytes = l := by
  unfold lines unfinished
  refine ⟨by rw [h, List.dropLast_concat], ?_⟩
  simp only [h, List.getLast_concat]

theorem lines_nil : lines [] = [] := rfl

/-- The lines before a line feed do not depend on what follows it. -/
theorem lines_append_lineFeed (a b : Bytes) :
    lines (a ++ lineFeed :: b) = lines a ++ unfinished a :: lines b ∧
      unfinished (a ++ lineFeed :: b) = unfinished b := by
  apply lines_eq_of_splitOn
  rw [List.splitOn_append_cons_self, splitOn_eq a, splitOn_eq b]
  simp

theorem lines_cons_lineFeed (b : Bytes) :
    lines (lineFeed :: b) = [] :: lines b ∧ unfinished (lineFeed :: b) = unfinished b :=
  lines_append_lineFeed [] b

theorem lines_of_not_mem {a : Bytes} (h : lineFeed ∉ a) : lines a = [] ∧ unfinished a = a :=
  lines_eq_of_splitOn (by rw [List.splitOn_eq_singleton h, List.nil_append])

/-- A line put at the end of a framed sequence is one more line, and nothing else changes. -/
theorem lines_append_line {a l : Bytes} (ha : Framed a) (hl : lineFeed ∉ l) :
    lines (a ++ (l ++ [lineFeed])) = lines a ++ [l] := by
  have h1 := lines_of_not_mem hl
  rcases ha with rfl | ha
  · have h2 := (lines_append_lineFeed l []).1
    rw [h1.1, h1.2] at h2
    exact h2
  · obtain ⟨a', rfl⟩ := List.getLast?_eq_some_iff.1 ha
    have h2 := (lines_append_lineFeed l []).1
    rw [h1.1, h1.2] at h2
    rw [List.append_assoc, List.singleton_append, (lines_append_lineFeed a' _).1,
      (lines_append_lineFeed a' []).1, h2, lines_nil]
    simp

theorem framed_append_line (a l : Bytes) : Framed (a ++ (l ++ [lineFeed])) :=
  .inr (by rw [← List.append_assoc, List.getLast?_concat])

/-- The lines `ls`, each with its line feed. -/
def ofLines (ls : List Bytes) : Bytes := ls.flatMap (· ++ [lineFeed])

/-- Lines put at the end of a framed sequence are the lines that it has then in addition. -/
theorem lines_append_ofLines {a : Bytes} (ha : Framed a) {ls : List Bytes}
    (hls : ∀ l ∈ ls, lineFeed ∉ l) : lines (a ++ ofLines ls) = lines a ++ ls := by
  induction ls generalizing a with
  | nil => rw [ofLines, List.flatMap_nil, List.append_nil, List.append_nil]
  | cons l ls ih =>
    have hrest := ih (framed_append_line a l) (fun m hm => hls m (List.mem_cons_of_mem l hm))
    rw [ofLines, List.flatMap_cons, ← List.append_assoc, ← ofLines, hrest,
      lines_append_line ha (hls l List.mem_cons_self), List.append_assoc, List.singleton_append]

end ClipLedger.Bytes
