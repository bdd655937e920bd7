import ClipLedger.Analyzer
import ClipLedger.Capture.Source
import ClipLedger.Gate
import ClipLedger.Settings.Basic
import ClipLedger.Storage.Dataset
import ClipLedger.WorkQueue

/-
  The way from the clipboard to the dataset, in single steps: collecting one item through the gate
  into the queue (`collect`), taking a batch (`nextBatch`), processing an item (`process`), and
  reporting it (`report`). Each step is one function of `PipelineState`. Left out: what is traced,
  and the locks around the gate, the tracker and the files, since a step is not interrupted here;
  `Pipeline.Tasks` and the proofs about interleavings cut the steps where another loop can come
  between.
-/
namespace ClipLedger

/-- What stays the same while items pass. `stamp k` is the identity and the time for what is
stored as number `k`. -/
structure Pipeline where
  performance : Performance
  source : Source
  analyzer : Analyzer Float
  client : Client
  modelInfo : ModelInfo
  dataset : Path
  log : Path
  baseline : Path
  stamp : Nat → Stamp

/-- What changes while items pass. `tracker` is what was observed, `session` the conversation with
the model, `stamped` the number of stamps used up. -/
structure PipelineState where
  gate : Gate
  queue : WorkQueue Item
  tracker : Tracker Float
  session : Session
  files : FileTree
  stamped : Nat

/-- What came of one `collect`. -/
inductive Collected where
  | nothing
  | skipped (reason : SkipReason)
  | queued
  | dropped
  deriving DecidableEq, Repr

/-- An `item` that was analysed and stored with `record`. -/
structure Processed where
  item : Item
  record : Record Float

/-- Why an item was not processed: a `failure`, or a `halt` that ends the worker. -/
inductive Trouble where
  | failure (f : Failure)
  | halt (h : Halt)
  deriving DecidableEq

namespace Pipeline

/-- The pipeline of the settings `s`. -/
def ofSettings (s : Settings) (client : Client) (stamp : Nat → Stamp) : Pipeline where
  performance := s.performance
  source := ⟨s.paths.screenshots, s.paths.assets⟩
  analyzer := .ofSettings s.performance s.model
  client := client
  modelInfo := s.model.info
  dataset := s.paths.dataset
  log := s.paths.log
  baseline := s.paths.baseline
  stamp := stamp

/-- The state before the first step, with a queue for `maxQueue` items, or for one where that is
zero. Fails where no queue is so large (`WorkQueue.create?`). -/
def start (p : Pipeline) (files : FileTree) : Except WorkQueue.Misfit PipelineState :=
  (WorkQueue.create? (max p.performance.maxQueue 1)).map fun queue =>
    { gate := .fresh p.performance.minContent
      queue := queue
      tracker := .fresh p.performance.historySize p.performance.baselinePeriod
      session := .fresh
      files := files
      stamped := 0 }

/-- Shows `item` to the gate, which remembers it where it accepts it, also if the queue then drops
it. -/
def enqueue (item : Item) (s : PipelineState) : Collected × PipelineState :=
  match s.gate.check item with
  | (.skip reason, _) => (.skipped reason, s)
  | (.accept, gate) =>
    match s.queue.push item with
    | (.queued, queue) => (.queued, { s with gate := gate, queue := queue })
    | (.dropped, queue) => (.dropped, { s with gate := gate, queue := queue })

/-- Captures once by `reading`, and passes what was captured to `enqueue`. -/
def collect (p : Pipeline) (reading : Reading) (s : PipelineState) :
    Except Failure Collected × PipelineState :=
  match p.source.capture s.files reading with
  | (.error e, files) => (.error e, { s with files := files })
  | (.ok none, files) => (.ok .nothing, { s with files := files })
  | (.ok (some item), files) =>
    let (c, s) := enqueue item { s with files := files }
    (.ok c, s)

/-- How many items a batch may have: `batchSize`, and one at least. -/
def batchLimit (p : Pipeline) : Nat := max p.performance.batchSize 1

/-- Takes up to `batchLimit` items from the queue. -/
def nextBatch (p : Pipeline) (s : PipelineState) : List Item × PipelineState :=
  let (batch, queue) := s.queue.takeMany p.batchLimit
  (batch, { s with queue := queue })

/-- Analyses `item` with the tracker of `s`, which stays as it is; only the session changes. -/
def analyse (p : Pipeline) (item : Item) (s : PipelineState) :
    Except Trouble (Analysis Float) × PipelineState :=
  match p.analyzer.analyze p.client s.tracker item s.session with
  | (.error (.template e), session) =>
    (.error (.failure (.template e)), { s with session := session })
  | (.error (.halt h), session) => (.error (.halt h), { s with session := session })
  | (.ok a, session) => (.ok a, { s with session := session })

/-- Takes over the tracker of `a`, and writes its `baseline` to the file if there is one, with the
current stamp. -/
def observe (p : Pipeline) (a : Analysis Float) (s : PipelineState) : PipelineState :=
  let s := { s with tracker := a.tracker }
  match a.baseline with
  | none => s
  | some m => { s with files := m.writeTo s.files p.baseline (p.stamp s.stamped).timestamp }

/-- `analyse`, then `observe`; the record is not stored. -/
def analyseAndObserve (p : Pipeline) (item : Item) (s : PipelineState) :
    Except Trouble (Analysis Float) × PipelineState :=
  match p.analyse item s with
  | (.error e, s) => (.error e, s)
  | (.ok a, s) => (.ok a, p.observe a s)

/-- Appends the line of `item` and `r` to the dataset, of which the system makes `w`. A stamp is
used up also where that fails. -/
def store (p : Pipeline) (item : Item) (r : Record Float) (s : PipelineState)
    (w : Writing := .whole) : Except Failure Unit × PipelineState :=
  let (result, files) :=
    Dataset.append s.files p.dataset p.modelInfo (p.stamp s.stamped) item r w
  (result, { s with files := files, stamped := s.stamped + 1 })

/-- What follows an analysis `a`: `observe`, then `store` unless the record is empty. -/
def finish (p : Pipeline) (item : Item) (a : Analysis Float) (s : PipelineState)
    (w : Writing := .whole) : Except Failure (Option Processed) × PipelineState :=
  let s := p.observe a s
  if a.record.isEmpty then (.ok none, s)
  else match p.store item a.record s w with
    | (.error e, s) => (.error e, s)
    | (.ok (), s) => (.ok (some ⟨item, a.record⟩), s)

/-- `analyse`, then `finish` with what the analysis yields. -/
def process (p : Pipeline) (item : Item) (s : PipelineState) (w : Writing := .whole) :
    Except Trouble (Option Processed) × PipelineState :=
  match p.analyse item s with
  | (.error e, s) => (.error e, s)
  | (.ok a, s) =>
    match p.finish item a s w with
    | (.error e, s) => (.error (.failure e), s)
    | (.ok done, s) => (.ok done, s)

/-- `process` for one item after the other, whatever comes of each. -/
def processAll (p : Pipeline) :
    List Item → PipelineState → List (Except Trouble (Option Processed)) × PipelineState
  | [], s => ([], s)
  | item :: rest, s =>
    let (result, s) := p.process item s
    let (results, s) := processAll p rest s
    (result :: results, s)

/-- What `report` says about `item`. -/
def reportText (item : Item) : Text :=
  "Type: ".toList ++ item.kind.name ++ ", Hash: ".toList ++ item.fingerprint.short

/-- Appends a line about `item` to the event log. A stamp is used up also where that fails. -/
def report (p : Pipeline) (item : Item) (s : PipelineState) :
    Except Failure Unit × PipelineState :=
  let (result, files) := EventLog.append s.files p.log (p.stamp s.stamped).timestamp
    "Content Processed".toList (reportText item)
  (result, { s with files := files, stamped := s.stamped + 1 })

end Pipeline
end ClipLedger
