import ClipLedger.Pipeline.Basic
import ClipLedger.Proofs.Analyzer
import ClipLedger.Proofs.Capture
import ClipLedger.Proofs.Storage.Dataset

/-
  What the steps of the pipeline do to the queue and to the dataset. Only storing adds to the
  dataset, if no other path of the pipeline leads there (`Distinct`), and then one line or nothing
  (`finish_spec`); only collecting adds to the queue, and then the item that was captured
  (`collect_spec`).
-/
namespace ClipLedger

open FileTree (SameLinks Keeps Apart Grows Puts)

/-- A push puts the item at the end, or drops it and leaves the queue as it was. -/
theorem WorkQueue.push_cases {α : Type} (q : WorkQueue α) (a : α) :
    q.push a = (.queued, { q with items := q.items ++ [a] }) ∨ q.push a = (.dropped, q) := by
  by_cases hroom : q.length < q.capacity
  · exact .inl (push_of_lt a hroom)
  · exact .inr (push_of_le a (Nat.le_of_not_lt hroom))

namespace Pipeline

/-- The log, the baseline and the images of `p` lie elsewhere than its dataset. -/
structure Distinct (p : Pipeline) (t : FileTree) : Prop where
  log : Apart t p.log p.dataset
  baseline : Apart t p.baseline p.dataset
  assets : ∀ f, Apart t (Assets.location p.source.assets f) p.dataset

theorem Distinct.of_sameLinks {p : Pipeline} {t t' : FileTree} (h : Distinct p t)
    (hlinks : SameLinks t t') : Distinct p t' :=
  ⟨hlinks.apart h.log, hlinks.apart h.baseline, fun f => hlinks.apart (h.assets f)⟩

/-! ## Processing and the queue -/

/-- `analyse` changes nothing but the conversation. -/
theorem analyse_session (p : Pipeline) (item : Item) (s : PipelineState) :
    ∃ session, (p.analyse item s).2 = { s with session := session } := by
  unfold analyse
  split <;> exact ⟨_, rfl⟩

theorem queue_analyse (p : Pipeline) (item : Item) (s : PipelineState) :
    (p.analyse item s).2.queue = s.queue := by
  obtain ⟨session, h⟩ := p.analyse_session item s
  rw [h]

theorem queue_store (p : Pipeline) (item : Item) (r : Record Float) (s : PipelineState) :
    (p.store item r s).2.queue = s.queue := rfl

theorem queue_observe (p : Pipeline) (a : Analysis Float) (s : PipelineState) :
    (p.observe a s).queue = s.queue := by
  unfold observe
  dsimp only
  split <;> rfl

theorem queue_finish (p : Pipeline) (item : Item) (a : Analysis Float) (s : PipelineState) :
    (p.finish item a s).2.queue = s.queue := by
  have hqueue := p.queue_observe a s
  unfold finish
  dsimp only
  split
  · exact hqueue
  · split <;> next h => exact snd_of_eq h hqueue

theorem queue_process (p : Pipeline) (item : Item) (s : PipelineState) :
    (p.process item s).2.queue = s.queue := by
  have hanalyse := p.queue_analyse item s
  unfold process
  split
  · next e s' h => exact snd_of_eq h hanalyse
  · next a s' h =>
    have hfinish : (p.finish item a s').2.queue = s.queue :=
      (p.queue_finish item a s').trans (snd_of_eq h hanalyse)
    split <;> next h => exact snd_of_eq h hfinish

/-! ## Collecting and the dataset -/

/-- The item that a poll captures, if it captures any. -/
def captured? (p : Pipeline) (reading : Reading) (s : PipelineState) : Option Item :=
  match (p.source.capture s.files reading).1 with
  | .ok item? => item?
  | .error _ => none

/-- A poll keeps the dataset, and the queue grows by what was captured, if that was queued. -/
theorem collect_spec {p : Pipeline} {s : PipelineState} (h : Distinct p s.files)
    (reading : Reading) :
    let (result, s') := p.collect reading s
    Keeps s.files s'.files p.dataset ∧ s'.session = s.session ∧
      ((result = .ok .queued ∧ ∃ item, p.captured? reading s = some item ∧
        s'.queue.items = s.queue.items ++ [item]) ∨
      (result ≠ .ok .queued ∧ s'.queue = s.queue)) := by
  have hkeeps := Source.capture_keeps h.assets reading
  unfold collect captured?
  cases hcap : p.source.capture s.files reading with
  | mk result files =>
    rw [hcap] at hkeeps
    cases result with
    | error e => exact ⟨hkeeps, rfl, .inr ⟨fun h => (by cases h), rfl⟩⟩
    | ok item? =>
      cases item? with
      | none => exact ⟨hkeeps, rfl, .inr ⟨fun h => (by cases h), rfl⟩⟩
      | some item =>
        dsimp only
        unfold enqueue
        dsimp only
        cases s.gate.check item with
        | mk verdict gate =>
          cases verdict with
          | skip reason => exact ⟨hkeeps, rfl, .inr ⟨fun h => (by cases h), rfl⟩⟩
          | accept =>
            dsimp only
            rcases s.queue.push_cases item with hpush | hpush
            · rw [hpush]
              exact ⟨hkeeps, rfl, .inl ⟨rfl, item, rfl, rfl⟩⟩
            · rw [hpush]
              exact ⟨hkeeps, rfl, .inr ⟨fun h => (by cases h), rfl⟩⟩

/-- For a client that `Stands`, `analyse` comes to its end, and changes nothing but the
conversation. -/
theorem analyse_spec {p : Pipeline} (hc : p.client.Stands) (item : Item) {s : PipelineState}
    (hs : s.session.Untimed) :
    ∃ a session, p.analyse item s = (.ok a, { s with session := session }) ∧ session.Untimed := by
  obtain ⟨a, session, ha, hsession⟩ := p.analyzer.analyze_untimed hc s.tracker item hs
  refine ⟨a, session, ?_, hsession⟩
  unfold analyse
  rw [ha]

theorem observe_spec {p : Pipeline} (a : Analysis Float) {s : PipelineState}
    (h : Distinct p s.files) :
    Keeps s.files (p.observe a s).files p.dataset ∧ (p.observe a s).queue = s.queue ∧
      (p.observe a s).session = s.session := by
  unfold observe
  dsimp only
  split
  · exact ⟨.refl _ _, rfl, rfl⟩
  · exact ⟨(FileTree.write_puts _ _ _).keeps h.baseline, rfl, rfl⟩

/-- The end of a process call adds the line of the item that was stored to the dataset, or nothing
if none was. -/
theorem finish_spec {p : Pipeline} (item : Item) (a : Analysis Float) {s : PipelineState}
    (h : Distinct p s.files) :
    let (result, s') := p.finish item a s
    s'.queue = s.queue ∧ s'.session = s.session ∧ SameLinks s.files s'.files ∧
      ((∀ done, result ≠ .ok (some done)) ∧
        s'.files.contentOf p.dataset = s.files.contentOf p.dataset ∨
      ∃ r line, result = .ok (some ⟨item, r⟩) ∧ Dataset.LineOf item r line ∧
        s'.files.contentOf p.dataset =
          s.files.contentOf p.dataset ++ (line ++ [Bytes.lineFeed])) := by
  obtain ⟨hkeeps, hqueue, hsession⟩ := observe_spec a h
  unfold finish
  dsimp only
  split
  · exact ⟨hqueue, hsession, hkeeps.links, .inl ⟨fun _ h => (by cases h), hkeeps.content⟩⟩
  unfold store
  dsimp only
  rcases Dataset.append_spec (p.observe a s).files p.dataset p.modelInfo
    (p.stamp (p.observe a s).stamped) item a.record with ⟨e, he⟩ | ⟨t', line, he, hline, hlinks, hc⟩
  · rw [he]
    exact ⟨hqueue, hsession, hkeeps.links, .inl ⟨fun _ h => (by cases h), hkeeps.content⟩⟩
  · rw [he]
    refine ⟨hqueue, hsession, hkeeps.links.trans hlinks, .inr ⟨_, line, rfl, hline, ?_⟩⟩
    exact hc.trans (by rw [hkeeps.content])

/-- `report` keeps the dataset. -/
theorem report_spec {p : Pipeline} (item : Item) {s : PipelineState} (h : Distinct p s.files) :
    let s' := (p.report item s).2
    Keeps s.files s'.files p.dataset ∧ s'.queue = s.queue ∧ s'.session = s.session :=
  ⟨(EventLog.append_puts _ _ _ _ _ _).keeps h.log, rfl, rfl⟩

end Pipeline
end ClipLedger
