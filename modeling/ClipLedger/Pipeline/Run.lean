import ClipLedger.Pipeline.Basic

/-
  A run over time, as one schedule of its steps (`runUntil`). The collector looks at the clipboard
  at time 0 and then once in every interval; one worker takes batches and processes them. Only
  waiting takes time: the pauses between attempts, and the pause after a failure. Where both act
  at one instant, the worker goes first until it waits or is about to store something, then the
  collector, and then the worker again. The run ends when its time is up, or when the worker broke
  down.

  Left out here: the loop that reports, with the channel to it and its timeout, and the timeout of
  a worker that pops. They are in `Pipeline.Tasks`, where the loops move in any order; `runUntil`
  is one of the runs there, and `report` follows at once on what was stored.
-/
namespace ClipLedger

/-- The worker of a run: it is `waiting` for an item, `ready` at `now` to go on with `batch`, has
an analysis that is over at `now` (`analysed`), or makes no further step: an analysis `cutOff` at
the deadline, a client that broke down at `time` (`broken`). -/
inductive Worker where
  | waiting
  | ready (now : Nat) (batch : List Item)
  | analysed (now : Nat) (item : Item) (a : Analysis Float) (batch : List Item)
  | cutOff
  | broken (time : Nat)

/-- A run under way: the state that is shared, and the `worker`. -/
structure RunState where
  state : PipelineState
  worker : Worker

namespace Pipeline

/-- The pause of the worker after a failure, in milliseconds. -/
def errorPause : Nat := 100

/-- `now` comes before `limit`, or is `limit` where `atLimit`. -/
def isDue (now limit : Nat) (atLimit : Bool) : Bool := now < limit || (now == limit && atLimit)

/-- The worker takes a batch (`nextBatch`) at `now`, and is `waiting` where it is empty. -/
def fetch (p : Pipeline) (now : Nat) (s : PipelineState) : RunState :=
  match p.nextBatch s with
  | ([], s) => ⟨s, .waiting⟩
  | (batch, s) => ⟨s, .ready now batch⟩

/-- The worker starts on `item` at `now`, with `rest` behind it. The analysis ends when its
session does; a failure costs `errorPause`, a `halt` ends the worker. -/
def begin (p : Pipeline) (now deadline : Nat) (item : Item) (rest : List Item)
    (s : PipelineState) : RunState :=
  let session := { s.session with clock := now, deadline := some deadline }
  match p.analyse item { s with session := session } with
  | (.ok a, s) => ⟨s, .analysed s.session.clock item a rest⟩
  | (.error (.failure _), s) => ⟨s, .ready (s.session.clock + errorPause) rest⟩
  | (.error (.halt .overdue), s) => ⟨s, .cutOff⟩
  | (.error (.halt .breakdown), s) => ⟨s, .broken s.session.clock⟩

/-- The end of the analysis `a` of `item` at `now`: `finish`, then `report` where an item was
stored. A failure costs `errorPause`. -/
def conclude (p : Pipeline) (now : Nat) (item : Item) (a : Analysis Float) (rest : List Item)
    (s : PipelineState) : RunState :=
  match p.finish item a s with
  | (.error _, s) => ⟨s, .ready (now + errorPause) rest⟩
  | (.ok none, s) => ⟨s, .ready now rest⟩
  | (.ok (some done), s) => ⟨(p.report done.item s).2, .ready now rest⟩

/-- The next step of the worker, or `none` where it has none that `isDue`. At `limit` itself
nothing is stored, so `atLimit` counts for an `analysed` item only if its record is empty. -/
def workerStep (p : Pipeline) (deadline limit : Nat) (atLimit : Bool) (r : RunState) :
    Option RunState :=
  match r.worker with
  | .ready now [] => if isDue now limit atLimit then some (p.fetch now r.state) else none
  | .ready now (item :: rest) =>
    if isDue now limit atLimit then some (p.begin now deadline item rest r.state) else none
  | .analysed now item a rest =>
    if isDue now limit (atLimit && a.record.isEmpty) then
      some (p.conclude now item a rest r.state)
    else none
  | .waiting => none
  | .cutOff => none
  | .broken _ => none

/-- Up to `fuel` steps of the worker, as long as `workerStep` has one. -/
def work (p : Pipeline) (deadline limit : Nat) (atLimit : Bool) : Nat → RunState → RunState
  | 0, r => r
  | fuel + 1, r =>
    match p.workerStep deadline limit atLimit r with
    | none => r
    | some r => work p deadline limit atLimit fuel r

/-- The number of items in the batch of the worker. -/
def Worker.pending : Worker → Nat
  | .ready _ batch => batch.length
  | .analysed _ _ _ batch => batch.length
  | _ => 0

/-- A bound on `workerStep`s: three for each item that waits or is in the batch, and three. -/
def workBound (r : RunState) : Nat :=
  3 * (r.state.queue.length + Worker.pending r.worker) + 3

/-- All the steps of the worker that are due before `limit`, or at it where `atLimit`
(`workerStep_workUntil`). -/
def workUntil (p : Pipeline) (deadline limit : Nat) (atLimit : Bool) (r : RunState) : RunState :=
  p.work deadline limit atLimit (workBound r) r

/-- A worker that is `waiting` takes a batch at `now`. -/
def wake (p : Pipeline) (now : Nat) (r : RunState) : RunState :=
  match r.worker with
  | .waiting => p.fetch now r.state
  | _ => r

/-- The worker is `broken` since a time up to `now`. -/
def brokeBy (now : Nat) (r : RunState) : Bool :=
  match r.worker with
  | .broken t => t ≤ now
  | _ => false

/-- A look at the clipboard at `now`: `collect`, then `wake`. -/
def poll (p : Pipeline) (now : Nat) (reading : Reading) (r : RunState) : RunState :=
  p.wake now ⟨(p.collect reading r.state).2, r.worker⟩

/-- `n` looks, of which the first is number `k`, each after the work that is due by then. They end
where the worker broke down. -/
def polls (p : Pipeline) (deadline : Nat) (reading : Nat → Reading) :
    Nat → Nat → RunState → RunState
  | 0, _, r => r
  | n + 1, k, r =>
    let now := k * p.performance.pollInterval
    let r := p.workUntil deadline now true r
    if brokeBy now r then r
    else polls p deadline reading n (k + 1) (p.poll now (reading k) r)

/-- How many of the times `k * pollInterval` come before `deadline`. With an interval of zero the
collector is gone before it has looked, and there is none. -/
def pollCount (p : Pipeline) (deadline : Nat) : Nat :=
  let interval := p.performance.pollInterval
  if interval = 0 then 0 else (deadline + interval - 1) / interval

/-- How a run ended: the `time` and the state. -/
structure Ended where
  time : Nat
  state : PipelineState

/-- The run with one worker until `duration`, in one order of its steps: where several are due,
the worker goes first until it waits or is to store something, then the collector, then the
worker. It ends at `duration`, or when the worker broke down. -/
def runUntil (p : Pipeline) (duration : Nat) (reading : Nat → Reading) (s : PipelineState) :
    Ended :=
  if duration = 0 then ⟨0, s⟩
  else
    let r := p.fetch 0 s
    let r := p.polls duration reading (p.pollCount duration) 0 r
    let r := p.workUntil duration duration false r
    let state := { r.state with session := { r.state.session with deadline := none } }
    match r.worker with
    | .broken t => ⟨t, state⟩
    | _ => ⟨duration, state⟩

/-- `runUntil` the timer for `span` ends. -/
def run (p : Pipeline) (span : Nat) (reading : Nat → Reading) (s : PipelineState) : Ended :=
  p.runUntil (Span.timed span) reading s

end Pipeline
end ClipLedger
