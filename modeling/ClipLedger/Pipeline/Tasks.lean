import ClipLedger.Pipeline.Run

/-
  A run as the three loops it is made of: `Collector`, `Processor` and `Reporter`, with the queue
  between the first two and the channel `Tasks.results` between the last two. `Pipeline.act?` says
  what a `LoopMove` does and where it is possible; `Pipeline.Step` lets any loop that can move go
  next, and `Tasks.clock` goes on only where none can, to the next timer. `Pipeline.runUntil`
  fixes one order of the moves, and has no reporter of its own.

  A loop is cut where it awaits something, so that the others can move in between: the collector
  between capturing and the gate; the worker between two items of a batch, before and after an
  analysis, between the snapshot, the line of the dataset and the result; the reporter between
  receiving and logging. An analysis is one move: it talks to the model alone, and what it
  observed counts from its end on. Left out: more than one worker (see `Crew`), with it the lock
  of the queue (see `SharedQueue`); what is traced; and the last steps of a loop that `stop`
  aborts.
-/
namespace ClipLedger

/-- The loop that looks at the clipboard: it is `sleeping` until `next`, or has `captured` an item
that the gate has not seen. With an interval of zero it is `gone`. -/
inductive Collector where
  | gone
  | sleeping (next : Nat)
  | captured (next : Nat) (item : Item)

/-- The loop of the worker. It is `popping`, at most until `due`, is `gathering` a batch, and goes
on `handling` its items: `analysing` one, which takes until `due`, `storing` its record, `sending`
what was stored, or `pausing` after a failure. An analysis that would go on after the deadline is
`cutOff`; one in which the client breaks down at `time` leaves the worker `breaking`, then
`gone`. -/
inductive Processor where
  | popping (due : Nat)
  | gathering (batch : List Item)
  | handling (batch : List Item)
  | analysing (due : Nat) (item : Item) (a : Analysis Float) (rest : List Item)
  | storing (item : Item) (r : Record Float) (rest : List Item)
  | sending (done : Processed) (rest : List Item)
  | pausing (due : Nat) (rest : List Item)
  | cutOff
  | breaking (time : Nat)
  | gone

/-- The loop that reports results: it is `receiving`, at most until `due`, or `reporting` a result,
until the run has `ended`. -/
inductive Reporter where
  | receiving (due : Nat)
  | reporting (done : Processed)
  | ended

/-- A run under way: what the loops share, the time, how many looks were made, the loops, and the
results that were sent and not received. -/
structure Tasks where
  state : PipelineState
  clock : Nat
  looks : Nat
  collector : Collector
  processor : Processor
  results : List Processed
  reporter : Reporter

/-- What the loops can do next. The collector and the worker have one way to go on, and the worker
may give up popping. The reporter receives and reports a result; its time to receive may lapse; it
stops at the deadline, and closes where no worker is left to send anything. -/
inductive LoopMove where
  | collect
  | work
  | giveUp
  | receive
  | report
  | lapse
  | stop
  | close
  deriving DecidableEq, Repr

/-! ## Timers -/

/-- When the collector wakes up, if it sleeps. -/
def Collector.timer? : Collector → Option Nat
  | .sleeping next => some next
  | _ => none

/-- When the worker goes on, or gives up popping; `none` where it waits for no time. -/
def Processor.timer? : Processor → Option Nat
  | .popping due => some due
  | .analysing due _ _ _ => some due
  | .pausing due _ => some due
  | .breaking time => some time
  | _ => none

/-- When the reporter no longer waits for a result. -/
def Reporter.timer? : Reporter → Option Nat
  | .receiving due => some due
  | _ => none

namespace Tasks

/-- The run has ended: no loop moves any more. -/
def ended (t : Tasks) : Bool :=
  match t.reporter with
  | .ended => true
  | _ => false

/-- `next`, provided that the time `due` has come. -/
def since? (t : Tasks) (due : Nat) (next : Tasks) : Option Tasks :=
  if t.clock < due then none else some next

theorem since?_eq_none {t next : Tasks} {due : Nat} : t.since? due next = none ↔ t.clock < due := by
  unfold since?
  split
  · next h => simp [h]
  · next h => simp [h]

theorem since?_eq_some {t next t' : Tasks} {due : Nat} :
    t.since? due next = some t' ↔ due ≤ t.clock ∧ next = t' := by
  unfold since?
  split
  · next h => simp [Nat.not_le.2 h]
  · next h => simp [Nat.not_lt.1 h]

/-- The first of the timers, of which `deadline` is one. -/
def alarm (deadline : Nat) (t : Tasks) : Nat :=
  min (t.collector.timer?.getD deadline)
    (min (t.processor.timer?.getD deadline) (min (t.reporter.timer?.getD deadline) deadline))

end Tasks

namespace Pipeline

/-- How long the reporter waits for a result before it waits again, in milliseconds. -/
def reportTimeout : Nat := 1000

/-- The start of a run with what is shared in the state `s`: no look was made, and the channel is
empty. -/
def tasks (p : Pipeline) (s : PipelineState) : Tasks where
  state := s
  clock := 0
  looks := 0
  collector := if p.performance.pollInterval = 0 then .gone else .sleeping 0
  processor := .handling []
  results := []
  reporter := .receiving reportTimeout

/-- One look at the clipboard, with the reading of this look. The next one comes an interval from
now, and an item that was captured is kept for the gate. -/
def capture (p : Pipeline) (reading : Nat → Reading) (t : Tasks) : Tasks :=
  let next := t.clock + p.performance.pollInterval
  let (result, files) := p.source.capture t.state.files (reading t.looks)
  { t with
    state := { t.state with files := files }
    looks := t.looks + 1
    collector := match result with
      | .ok (some item) => .captured next item
      | .ok none => .sleeping next
      | .error _ => .sleeping next }

/-- The collector goes on: it captures once `next` has come, and what it captured goes through the
gate into the queue. -/
def collectorAct? (p : Pipeline) (reading : Nat → Reading) (t : Tasks) : Option Tasks :=
  match t.collector with
  | .gone => none
  | .sleeping next => t.since? next (p.capture reading t)
  | .captured next item =>
    some { t with state := (enqueue item t.state).2, collector := .sleeping next }

/-- The worker starts on an item: `begin`, with the time of the run. -/
def startOn (p : Pipeline) (deadline : Nat) (item : Item) (rest : List Item) (t : Tasks) : Tasks :=
  let session := { t.state.session with clock := t.clock, deadline := some deadline }
  match p.analyse item { t.state with session := session } with
  | (.ok a, s) => { t with state := s, processor := .analysing s.session.clock item a rest }
  | (.error (.failure _), s) =>
    { t with state := s, processor := .pausing (s.session.clock + errorPause) rest }
  | (.error (.halt .overdue), s) => { t with state := s, processor := .cutOff }
  | (.error (.halt .breakdown), s) =>
    { t with state := s, processor := .breaking s.session.clock }

/-- The end of the analysis `a`: `observe`, and then the record is to be stored unless it is
empty. -/
def takeOver (p : Pipeline) (item : Item) (a : Analysis Float) (rest : List Item) (t : Tasks) :
    Tasks :=
  { t with
    state := p.observe a t.state
    processor := if a.record.isEmpty then .handling rest else .storing item a.record rest }

/-- The worker goes on. It takes an item as soon as there is one, and then, one by one, what else is
there, up to `batchLimit` items. -/
def processorAct? (p : Pipeline) (deadline : Nat) (t : Tasks) : Option Tasks :=
  match t.processor with
  | .popping _ =>
    match t.state.queue.take with
    | (none, _) => none
    | (some item, queue) =>
      some { t with state := { t.state with queue := queue }, processor := .gathering [item] }
  | .gathering batch =>
    if batch.length < p.batchLimit then
      match t.state.queue.take with
      | (none, _) => some { t with processor := .handling batch }
      | (some item, queue) =>
        some { t with
          state := { t.state with queue := queue }
          processor := .gathering (batch ++ [item]) }
    else some { t with processor := .handling batch }
  | .handling [] => some { t with processor := .popping (t.clock + p.performance.pollInterval) }
  | .handling (item :: rest) => some (p.startOn deadline item rest t)
  | .analysing due item a rest => t.since? due (p.takeOver item a rest t)
  | .storing item r rest =>
    match p.store item r t.state with
    | (.ok (), s) => some { t with state := s, processor := .sending ⟨item, r⟩ rest }
    | (.error _, s) =>
      some { t with state := s, processor := .pausing (t.clock + errorPause) rest }
  | .sending done rest =>
    some { t with results := t.results ++ [done], processor := .handling rest }
  | .pausing due rest => t.since? due { t with processor := .handling rest }
  | .cutOff => none
  | .breaking time => t.since? time { t with processor := .gone }
  | .gone => none

/-- The worker gives up popping: its batch is empty, and it pops again. This is possible as soon
as the time is up, also where an item has come in meanwhile. -/
def giveUp? (t : Tasks) : Option Tasks :=
  match t.processor with
  | .popping due => t.since? due { t with processor := .handling [] }
  | _ => none

/-- The reporter receives the oldest result. One that comes just as `lapse?` is possible may be
received or stay in the channel. -/
def receive? (t : Tasks) : Option Tasks :=
  match t.reporter, t.results with
  | .receiving _, done :: rest => some { t with results := rest, reporter := .reporting done }
  | _, _ => none

/-- The reporter logs the result that it received, and receives again. -/
def report? (p : Pipeline) (t : Tasks) : Option Tasks :=
  match t.reporter with
  | .reporting done => some { t with
      state := (p.report done.item t.state).2
      reporter := .receiving (t.clock + reportTimeout) }
  | _ => none

/-- The reporter has waited long enough, and receives again. -/
def lapse? (t : Tasks) : Option Tasks :=
  match t.reporter with
  | .receiving due => t.since? due { t with reporter := .receiving (t.clock + reportTimeout) }
  | _ => none

/-- The run stops at the deadline, unless a result is being reported. What is in the channel then is
lost, and what the worker has in hand. -/
def stop? (deadline : Nat) (t : Tasks) : Option Tasks :=
  match t.reporter with
  | .receiving _ => t.since? deadline { t with reporter := .ended }
  | _ => none

/-- The run ends where nobody is left who could send a result. -/
def close? (t : Tasks) : Option Tasks :=
  match t.reporter, t.processor, t.results with
  | .receiving _, .gone, [] => some { t with reporter := .ended }
  | _, _, _ => none

/-- What the move does; `none` where it is not possible in `t`. -/
def act? (p : Pipeline) (deadline : Nat) (reading : Nat → Reading) (t : Tasks) :
    LoopMove → Option Tasks
  | .collect => p.collectorAct? reading t
  | .work => p.processorAct? deadline t
  | .giveUp => giveUp? t
  | .receive => receive? t
  | .report => p.report? t
  | .lapse => lapse? t
  | .stop => stop? deadline t
  | .close => close? t

/-- One step of a run that has not ended: some move that is possible, or, where none is, time goes
on to the next timer. -/
inductive Step (p : Pipeline) (deadline : Nat) (reading : Nat → Reading) : Tasks → Tasks → Prop
  | move {t t' : Tasks} (m : LoopMove) (hgoes : t.ended = false)
      (h : p.act? deadline reading t m = some t') : Step p deadline reading t t'
  | pass {t : Tasks} (hgoes : t.ended = false) (h : ∀ m, p.act? deadline reading t m = none) :
      Step p deadline reading t { t with clock := t.alarm deadline }

end Pipeline
end ClipLedger
