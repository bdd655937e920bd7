import ClipLedger.Model.Server
import ClipLedger.Proofs.Text.ByteLines
import ClipLedger.Proofs.Text.Trim
import ClipLedger.Proofs.Text.Utf8

/-
  A streamed answer does not depend on how its body was cut into pieces. The buffer that gathers
  pieces until a line is complete yields what splitting the whole body at its line feeds yields
  (`opening_eq_lines`), also when a cut falls inside a character, and after a failure of the
  connection nothing but the complete lines counts for the collected text.
-/
namespace ClipLedger

namespace Body

/-! ## The buffer and the whole body -/

theorem newline_eq : newline = Bytes.lineFeed := rfl

/-- `takeLines` takes off the complete lines, each with its line feed. -/
theorem takeLines_eq (a : Bytes) :
    takeLines a = ((Bytes.lines a).map (· ++ [newline]), Bytes.unfinished a) := by
  induction a with
  | nil => rfl
  | cons b a ih =>
    rw [takeLines, ih]
    by_cases hb : b = newline
    · have h := Bytes.lines_cons_lineFeed a
      dsimp only
      rw [hb, if_pos rfl, newline_eq, h.1, h.2]
      rfl
    · have hs : (b :: a).splitOn Bytes.lineFeed =
          (a.splitOn Bytes.lineFeed).modifyHead (b :: ·) := by
        rw [List.splitOn_cons_eq_if_modifyHead, if_neg (by simpa [← newline_eq] using hb)]
      rw [Bytes.splitOn_eq a] at hs
      dsimp only
      rw [if_neg hb]
      cases hl : Bytes.lines a with
      | nil =>
        rw [hl] at hs
        have h := Bytes.lines_eq_of_splitOn (show _ = [] ++ [_] from hs)
        rw [h.1, h.2]
        rfl
      | cons l ls =>
        rw [hl] at hs
        have h := Bytes.lines_eq_of_splitOn (show _ = ((b :: l) :: ls) ++ [_] from hs)
        rw [h.1, h.2]
        rfl

/-- Feeding pieces one after the other is feeding them all at once, if the buffer holds no complete
line at the start. -/
theorem feedAll_eq (buffer : Bytes) (pieces : List Bytes) :
    (takeLines buffer).1 = [] →
    feedAll buffer pieces =
      ((takeLines (buffer ++ pieces.flatten)).1.filterMap lineText?,
        (takeLines (buffer ++ pieces.flatten)).2) := by
  induction pieces generalizing buffer with
  | nil =>
    intro h
    have hf := takeLines_flatten buffer
    rw [h, List.flatten_nil, List.nil_append] at hf
    rw [List.flatten_nil, List.append_nil, h, hf]
    rfl
  | cons piece rest ih =>
    intro _
    have hleft : (takeLines (takeLines (buffer ++ piece)).2).1 = [] := by
      have h := congrArg (fun x => x.1.length) (takeLines_append (buffer ++ piece) [])
      simp only [List.append_nil, List.length_append] at h
      exact List.length_eq_zero_iff.1 (by omega)
    rw [feedAll, feed]
    dsimp only
    rw [ih _ hleft, List.flatten_cons, ← List.append_assoc,
      takeLines_append (buffer ++ piece) rest.flatten, List.filterMap_append]

/-! ## What a line carries -/

/-- The line feed at the end of a line does not count. -/
theorem lineText?_append_newline (line : Bytes) :
    lineText? (line ++ [newline]) = lineText? line := by
  have h : Utf8.decodeLossy (line ++ [newline]) = Utf8.decodeLossy line ++ ['\n'] :=
    Utf8.decodeLossy_append_ascii line [] (by decide)
  unfold lineText?
  rw [h]
  unfold Chunk.decodeLine Chunk.payload
  rw [Text.trim_append_blanks _ (by decide)]

/-- The deltas of the lines that carry a text when they are read as UTF-8. -/
def lineEvents (lines : List Bytes) : List StreamEvent :=
  (lines.filterMap fun line => Chunk.decodeLine (Utf8.decodeLossy line)).map .delta

theorem lineEvents_singleton (line : Bytes) :
    lineEvents [line] = ((lineText? line).map .delta).toList := by
  change ([line].filterMap lineText?).map StreamEvent.delta = _
  cases h : lineText? line with
  | none => rw [List.filterMap_cons_none h]; rfl
  | some t => rw [List.filterMap_cons_some h]; rfl

theorem events_eq (pieces : List Bytes) (broken : Bool) :
    events pieces broken = lineEvents (Bytes.lines pieces.flatten) ++
      (if broken then [.failure .transport] else []) ++
        lineEvents [Bytes.unfinished pieces.flatten] := by
  have hlines : ((Bytes.lines pieces.flatten).map (· ++ [newline])).filterMap lineText? =
      (Bytes.lines pieces.flatten).filterMap lineText? := by
    rw [List.filterMap_map]
    congr 1
    funext line
    exact lineText?_append_newline line
  unfold events
  rw [feedAll_eq [] pieces rfl, List.nil_append, takeLines_eq, lineEvents_singleton]
  dsimp only
  rw [hlines]
  rfl

end Body

namespace StreamEvent

/-- Nothing behind a failure is gathered. -/
theorem gather_failure (seen : List Text) (room : Nat) (ts : List Text) (e : ModelError)
    (rest : List StreamEvent) :
    gather seen room (ts.map .delta ++ .failure e :: rest) = gather seen room (ts.map .delta) := by
  induction ts generalizing seen room with
  | nil => rfl
  | cons t ts ih =>
    rw [List.map_cons, List.cons_append, gather, gather, ih, ih]

end StreamEvent

namespace Response

/-- The bytes of the body that arrive, however they were cut into pieces; none if `r.bodiless`. -/
def received (r : Response) : Bytes := if r.bodiless then [] else r.pieces.flatten

/-- Whether the connection fails after the bytes that arrive. -/
def interrupted (r : Response) : Bool := r.broken && !r.bodiless

theorem opening_of_isSuccess (r : Response) (hr : r.isSuccess = true) :
    r.opening = .stream (Body.lineEvents (Bytes.lines r.received) ++
      (if r.interrupted then [.failure .transport] else []) ++
      Body.lineEvents [Bytes.unfinished r.received]) := by
  have hflat : (if r.bodiless then [] else r.pieces).flatten = r.received := by
    unfold received
    split <;> rfl
  unfold opening
  dsimp only
  rw [if_pos hr, Body.events_eq, hflat]
  rfl

/-- **The stream of an accepted response depends on the bytes that arrive, not on their pieces.** It
brings the text of each line, the unfinished last one included. If it is `interrupted`, the failure
stands behind those of the complete lines, at most one delta comes late, and `collect` gives what
the complete lines alone give. -/
theorem opening_eq_lines (r : Response) (hr : r.isSuccess = true) (max : Nat) :
    let complete := Body.lineEvents (Bytes.lines r.received)
    let late := Body.lineEvents [Bytes.unfinished r.received]
    (r.interrupted = false →
      r.opening = .stream (Body.lineEvents (r.received.splitOn Body.newline))) ∧
    (r.interrupted = true →
      r.opening = .stream (complete ++ .failure .transport :: late) ∧ late.length ≤ 1 ∧
      StreamEvent.collect max (complete ++ .failure .transport :: late) =
        StreamEvent.collect max complete) := by
  have hopen := opening_of_isSuccess r hr
  dsimp only
  refine ⟨fun h => ?_, fun h => ⟨?_, ?_, ?_⟩⟩
  · rw [hopen, h, Body.newline_eq, Bytes.splitOn_eq]
    simp [Body.lineEvents]
  · rw [hopen, h]
    simp
  · rw [Body.lineEvents_singleton]
    cases Body.lineText? (Bytes.unfinished r.received) <;> simp
  · unfold StreamEvent.collect Body.lineEvents
    rw [StreamEvent.gather_failure]

/-- A body that is cut inside a character and inside a line end, and then breaks off. -/
theorem opening_eq_lines_cut :
    let r : Response := ⟨200, [Utf8.encode "data: \x7b\"event\":\x7b\"delta\":\"".toList ++ [0xC3],
      0xA9 :: Utf8.encode "\"\x7d\x7d\r".toList, [], Utf8.encode "\ndata".toList], true⟩
    r.isSuccess = true ∧ r.interrupted = true ∧
      r.opening = .stream [.delta ['é'], .failure .transport] ∧
      StreamEvent.collect 10 [.delta ['é'], .failure .transport] =
        StreamEvent.collect 10 [.delta ['é']] := by
  intro r
  have hr : r.isSuccess = true := by decide
  have hi : r.interrupted = true := by decide
  obtain ⟨hopen, -, hcollect⟩ := (opening_eq_lines r hr 10).2 hi
  have hlines : Body.lineEvents (Bytes.lines r.received) = [.delta ['é']] := by decide +kernel
  have hlate : Body.lineEvents [Bytes.unfinished r.received] = [] := by decide +kernel
  rw [hlines, hlate] at hopen hcollect
  exact ⟨hr, hi, hopen, hcollect⟩

end Response
end ClipLedger
