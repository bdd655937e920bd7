import ClipLedger.Pipeline.Run
import ClipLedger.Proofs.Timing
import Mathlib.Algebra.Group.Nat.Defs

/-
  No stage of a run dies. A run with one worker makes every look at the clipboard that comes before
  its end, and ends then and not before (`runUntil_looks`). So it is with any number of workers that
  take their steps in any order, while others change the state and the client as they like
  (`turns_alive`): the collector looks at time 0 and once in every interval from then on, and no
  worker breaks down as long as no client does. Two settings are not covered: a queue that is
  too long for a channel cannot be made at all, and with an interval of zero the collector is gone
  before it has looked once (`stages_stand`).
-/
namespace ClipLedger

/-- Whether the worker is gone because the client broke down. -/
def Worker.isBroken : Worker → Bool
  | .broken _ => true
  | _ => false

namespace Pipeline

/-! ## Steps of a worker -/

theorem fetch_unbroken (p : Pipeline) (now : Nat) (s : PipelineState) :
    (p.fetch now s).worker.isBroken = false := by
  unfold fetch
  split <;> rfl

theorem begin_unbroken {p : Pipeline} (hc : p.client.Stands) (now deadline : Nat) (item : Item)
    (rest : List Item) (s : PipelineState) :
    (p.begin now deadline item rest s).worker.isBroken = false := by
  have hanalyse : ∀ s, (p.analyse item s).1 ≠ .error (.halt .breakdown) := by
    intro s
    have hunbroken := p.analyzer.analyze_unbroken hc s.tracker item s.session
    unfold analyse
    split
    · exact fun h => by cases h
    · next h session heq =>
      rw [heq] at hunbroken
      exact fun he => hunbroken (by cases he; rfl)
    · exact fun h => by cases h
  unfold begin
  dsimp only
  split
  · rfl
  · rfl
  · rfl
  · next heq =>
    have hbroken := hanalyse
      { s with session := { s.session with clock := now, deadline := some deadline } }
    rw [heq] at hbroken
    exact absurd rfl hbroken

theorem conclude_unbroken (p : Pipeline) (now : Nat) (item : Item) (a : Analysis Float)
    (rest : List Item) (s : PipelineState) :
    (p.conclude now item a rest s).worker.isBroken = false := by
  unfold conclude
  split <;> rfl

/-- No step breaks a worker whose client stands. -/
theorem workerStep_unbroken {p : Pipeline} (hc : p.client.Stands) {deadline limit : Nat}
    {atLimit : Bool} {r r' : RunState} (h : p.workerStep deadline limit atLimit r = some r') :
    r'.worker.isBroken = false := by
  unfold workerStep at h
  split at h
  · split at h
    · cases h
      exact fetch_unbroken p _ _
    · cases h
  · split at h
    · cases h
      exact begin_unbroken hc _ _ _ _ _
    · cases h
  · split at h
    · cases h
      exact conclude_unbroken p _ _ _ _ _
    · cases h
  · cases h
  · cases h
  · cases h

/-! ## A run with one worker -/

theorem workUntil_unbroken {p : Pipeline} (hc : p.client.Stands) (deadline limit : Nat)
    (atLimit : Bool) {r : RunState} (hr : r.worker.isBroken = false) :
    (p.workUntil deadline limit atLimit r).worker.isBroken = false := by
  unfold workUntil
  generalize workBound r = fuel
  induction fuel generalizing r with
  | zero => exact hr
  | succ n ih =>
    rw [work]
    split
    · exact hr
    · next h => exact ih (workerStep_unbroken hc h)

theorem poll_unbroken (p : Pipeline) (now : Nat) (reading : Reading) {r : RunState}
    (hr : r.worker.isBroken = false) : (p.poll now reading r).worker.isBroken = false := by
  unfold poll wake
  split
  · exact fetch_unbroken p _ _
  · exact hr

/-- The work up to look number `k` at the clipboard, and the look. -/
def look (p : Pipeline) (deadline : Nat) (reading : Nat → Reading) (r : RunState) (k : Nat) :
    RunState :=
  let now := k * p.performance.pollInterval
  p.poll now (reading k) (p.workUntil deadline now true r)

/-- `polls` leaves no look out. -/
theorem polls_eq_foldl {p : Pipeline} (hc : p.client.Stands) (deadline : Nat)
    (reading : Nat → Reading) (n k : Nat) {r : RunState} (hr : r.worker.isBroken = false) :
    p.polls deadline reading n k r = (List.range' k n).foldl (p.look deadline reading) r := by
  induction n generalizing k r with
  | zero => rfl
  | succ n ih =>
    have hwork := workUntil_unbroken hc deadline (k * p.performance.pollInterval) true hr
    have hgoes : brokeBy (k * p.performance.pollInterval)
        (p.workUntil deadline (k * p.performance.pollInterval) true r) = false := by
      unfold brokeBy
      split
      · next h =>
        rw [h] at hwork
        cases hwork
      · rfl
    rw [polls]
    exact (if_neg (hgoes ▸ Bool.false_ne_true)).trans (ih (k + 1) (poll_unbroken p _ _ hwork))

theorem looks_unbroken {p : Pipeline} (hc : p.client.Stands) (deadline : Nat)
    (reading : Nat → Reading) (ks : List Nat) {r : RunState} (hr : r.worker.isBroken = false) :
    (ks.foldl (p.look deadline reading) r).worker.isBroken = false := by
  induction ks generalizing r with
  | nil => exact hr
  | cons k ks ih => exact ih (poll_unbroken p _ _ (workUntil_unbroken hc _ _ _ hr))

/-- `pollCount` counts the looks before the end, one in each interval from time 0 on. -/
theorem lt_pollCount_iff {p : Pipeline} (hpoll : 0 < p.performance.pollInterval)
    (duration k : Nat) : k < p.pollCount duration ↔ k * p.performance.pollInterval < duration := by
  unfold pollCount
  dsimp only
  rw [if_neg (Nat.pos_iff_ne_zero.1 hpoll), ← Nat.succ_le_iff, Nat.le_div_iff_mul_le hpoll,
    Nat.succ_mul]
  omega

/-- **A run ends on time, and makes every look before that.** -/
theorem runUntil_looks {p : Pipeline} (hc : p.client.Stands) (reading : Nat → Reading)
    (s : PipelineState) {duration : Nat} (hpos : 0 < duration) :
    let r := (List.range (p.pollCount duration)).foldl (p.look duration reading) (p.fetch 0 s)
    let last := (p.workUntil duration duration false r).state
    p.runUntil duration reading s =
      ⟨duration, { last with session := { last.session with deadline := none } }⟩ := by
  intro r last
  have hpolls : p.polls duration reading (p.pollCount duration) 0 (p.fetch 0 s) = r := by
    rw [polls_eq_foldl hc duration reading _ 0 (fetch_unbroken p 0 s), ← List.range_eq_range']
  have hr : r.worker.isBroken = false :=
    looks_unbroken hc duration reading _ (fetch_unbroken p 0 s)
  have hlast := workUntil_unbroken hc duration duration false hr
  unfold runUntil
  rw [if_neg (Nat.pos_iff_ne_zero.1 hpos)]
  dsimp only
  rw [hpolls]
  split
  · next h =>
    rw [h] at hlast
    cases hlast
  · rfl

/-! ## Any number of workers -/

/-- The collector and its workers at the time `clock`: when the collector looks next, and when it
looked. -/
structure Crew where
  state : PipelineState
  clock : Nat
  next? : Option Nat
  looks : List Nat
  workers : List Worker

/-- The start of a run. With an interval of zero the collector is gone at once. -/
def crew (p : Pipeline) (s : PipelineState) : Crew where
  state := s
  clock := 0
  next? := if p.performance.pollInterval = 0 then none else some 0
  looks := []
  workers := List.replicate (max p.performance.workers 1) .waiting

/-- What can happen next. A worker talks to a client that need not be the one of another step, and
whatever else goes on may change the state. -/
inductive Turn where
  | look (reading : Reading)
  | work (i : Nat) (client : Client)
  | other (change : PipelineState → PipelineState)
  | wait (time : Nat)

/-- One step of a worker at the time `now`: it takes a batch, or it goes on. -/
def advance (p : Pipeline) (deadline now : Nat) (r : RunState) : Option RunState :=
  match r.worker with
  | .waiting => some (p.fetch now r.state)
  | _ => p.workerStep deadline (now + 1) false r

/-- Takes a turn; `none` where it cannot be taken. The collector looks exactly when `next` has come,
and time does not pass over a look. -/
def turn (p : Pipeline) (deadline : Nat) (c : Crew) : Turn → Option Crew
  | .look reading =>
    if c.next? = some c.clock then
      some { c with
        state := (p.collect reading c.state).2
        next? := some (c.clock + p.performance.pollInterval)
        looks := c.looks ++ [c.clock] }
    else none
  | .work i client =>
    match c.workers[i]? with
    | none => none
    | some worker =>
      (advance { p with client := client } deadline c.clock ⟨c.state, worker⟩).map fun r =>
        { c with state := r.state, workers := c.workers.set i r.worker }
  | .other change => some { c with state := change c.state }
  | .wait time =>
    if c.next?.all (c.clock + time ≤ ·) then some { c with clock := c.clock + time } else none

/-- Takes the turns one after the other. -/
def turns (p : Pipeline) (deadline : Nat) (c : Crew) (ts : List Turn) : Option Crew :=
  ts.foldlM (p.turn deadline) c

/-- The client of the turn stands. -/
def Turn.Stands : Turn → Prop
  | .work _ client => client.Stands
  | _ => True

/-- Whether all workers are gone, so that the run is over before its time. -/
def Crew.isOver (c : Crew) : Bool := c.workers.all Worker.isBroken

/-- No worker is broken, and the collector made every look up to now and no other. -/
structure Alive (p : Pipeline) (c : Crew) : Prop where
  staffed : c.workers.length = max p.performance.workers 1
  unbroken : ∀ w ∈ c.workers, w.isBroken = false
  looks : c.looks = (List.range c.looks.length).map (· * p.performance.pollInterval)
  next : c.next? = if p.performance.pollInterval = 0 then none
    else some (c.looks.length * p.performance.pollInterval)
  within : ∀ time, c.next? = some time → c.clock ≤ time

theorem crew_alive (p : Pipeline) (s : PipelineState) : Alive p (p.crew s) where
  staffed := List.length_replicate
  unbroken := fun w hw => by rw [List.eq_of_mem_replicate hw]; rfl
  looks := rfl
  next := by simp [crew]
  within := fun _ _ => Nat.zero_le _

theorem advance_unbroken {p : Pipeline} (hc : p.client.Stands) {deadline now : Nat}
    {r r' : RunState} (h : p.advance deadline now r = some r') : r'.worker.isBroken = false := by
  unfold advance at h
  split at h
  · cases h
    exact fetch_unbroken p now _
  · exact workerStep_unbroken hc h

theorem look_alive {p : Pipeline} {c : Crew} (h : Alive p c) (hnext : c.next? = some c.clock)
    (s : PipelineState) :
    Alive p { c with
      state := s
      next? := some (c.clock + p.performance.pollInterval)
      looks := c.looks ++ [c.clock] } := by
  have hschedule := h.next
  rw [hnext] at hschedule
  split at hschedule
  · cases hschedule
  next hpoll =>
  have hclock : c.clock = c.looks.length * p.performance.pollInterval :=
    Option.some.inj hschedule
  refine ⟨h.staffed, h.unbroken, ?_, ?_, ?_⟩
  · dsimp only
    rw [List.length_append, List.length_singleton, List.range_succ, List.map_append, ← h.looks,
      hclock, List.map_singleton]
  · dsimp only
    rw [if_neg hpoll, List.length_append, List.length_singleton, Nat.add_mul, Nat.one_mul, hclock]
  · intro time htime
    cases htime
    exact Nat.le_add_right _ _

/-- **A turn leaves the collector and all workers alive.** -/
theorem turn_alive {p : Pipeline} {deadline : Nat} {c c' : Crew} {t : Turn} (h : Alive p c)
    (ht : t.Stands) (hturn : p.turn deadline c t = some c') : Alive p c' := by
  cases t with
  | look reading =>
    rw [turn] at hturn
    split at hturn
    · next hnext =>
      cases hturn
      exact look_alive h hnext _
    · cases hturn
  | work i client =>
    rw [turn] at hturn
    split at hturn
    · cases hturn
    obtain ⟨r, hr, rfl⟩ := Option.map_eq_some_iff.1 hturn
    have hunbroken := advance_unbroken (p := { p with client := client }) ht hr
    refine ⟨List.length_set.trans h.staffed, ?_, h.looks, h.next, h.within⟩
    intro w hw
    rcases List.mem_or_eq_of_mem_set hw with hold | rfl
    · exact h.unbroken w hold
    · exact hunbroken
  | other change =>
    cases hturn
    exact ⟨h.staffed, h.unbroken, h.looks, h.next, h.within⟩
  | wait time =>
    rw [turn] at hturn
    split at hturn
    · next hall =>
      cases hturn
      refine ⟨h.staffed, h.unbroken, h.looks, h.next, ?_⟩
      intro next hnext
      dsimp only at hnext ⊢
      rw [hnext] at hall
      exact of_decide_eq_true hall
    · cases hturn

/-- Whatever turns are taken, the collector and all workers stay alive. -/
theorem turns_alive {p : Pipeline} {deadline : Nat} {c c' : Crew} (h : Alive p c)
    {ts : List Turn} (hts : ∀ t ∈ ts, t.Stands) (hturns : p.turns deadline c ts = some c') :
    Alive p c' := by
  induction ts generalizing c with
  | nil =>
    cases hturns
    exact h
  | cons t ts ih =>
    rw [List.forall_mem_cons] at hts
    obtain ⟨c₁, hturn, hrest⟩ := Option.bind_eq_some_iff.1 hturns
    exact ih (turn_alive h hts.1 hturn) hts.2 hrest

/-- A crew that is alive is not over. -/
theorem Alive.isOver {p : Pipeline} {c : Crew} (h : Alive p c) : c.isOver = false := by
  have hlen := h.staffed
  unfold Crew.isOver
  cases hworkers : c.workers with
  | nil =>
    rw [hworkers, List.length_nil] at hlen
    omega
  | cons w ws =>
    rw [List.all_cons, h.unbroken w (hworkers ▸ List.mem_cons_self), Bool.false_and]

/-- No look that was due is missing. -/
theorem Alive.lt_looks {p : Pipeline} {c : Crew} (h : Alive p c)
    (hpoll : 0 < p.performance.pollInterval) {k : Nat}
    (hk : k * p.performance.pollInterval < c.clock) : k < c.looks.length := by
  have hnext := h.next
  rw [if_neg (Nat.pos_iff_ne_zero.1 hpoll)] at hnext
  exact Nat.lt_of_mul_lt_mul_right (Nat.lt_of_lt_of_le hk (h.within _ hnext))

/-! ## The whole of it -/

theorem start_of_lt {p : Pipeline} (h : WorkQueue.capacityLimit < p.performance.maxQueue)
    (files : FileTree) : p.start files = .error .tooLarge := by
  unfold start WorkQueue.create?
  rw [if_neg (by omega), if_pos (by omega)]
  rfl

/-- `start` succeeds unless the queue has to hold more than `capacityLimit`. -/
theorem start_isOk_iff (p : Pipeline) (files : FileTree) :
    (∃ s, p.start files = .ok s) ↔ p.performance.maxQueue ≤ WorkQueue.capacityLimit := by
  constructor
  · intro ⟨s, hs⟩
    refine Nat.le_of_not_lt fun hlong => ?_
    rw [start_of_lt hlong] at hs
    cases hs
  · intro hle
    have hlimit : 1 ≤ WorkQueue.capacityLimit := by decide
    unfold start WorkQueue.create?
    rw [if_neg (by omega), if_neg (by omega)]
    exact ⟨_, rfl⟩

/-- **No stage dies.** A pipeline can be started exactly if `maxQueue` is within `capacityLimit`. If
the client stands and the interval is not zero, `runUntil` with one worker ends on time with every
look made. And after any `turns` of any number of workers, whatever they and others do, no worker is
broken and, unless the interval is zero, no look is left out. -/
theorem stages_stand (p : Pipeline) (files : FileTree) :
    ((∃ s, p.start files = .ok s) ↔ p.performance.maxQueue ≤ WorkQueue.capacityLimit) ∧
    (p.client.Stands → 0 < p.performance.pollInterval →
      ∀ (reading : Nat → Reading) (s : PipelineState) (duration : Nat), 0 < duration →
        ∃ n, (∀ k, k < n ↔ k * p.performance.pollInterval < duration) ∧
          let r := (List.range n).foldl (p.look duration reading) (p.fetch 0 s)
          let last := (p.workUntil duration duration false r).state
          p.runUntil duration reading s =
            ⟨duration, { last with session := { last.session with deadline := none } }⟩) ∧
    (∀ (deadline : Nat) (s : PipelineState) (ts : List Turn) (c : Crew),
      (∀ t ∈ ts, t.Stands) → p.turns deadline (p.crew s) ts = some c →
        c.isOver = false ∧ (∀ w ∈ c.workers, w.isBroken = false) ∧
        (0 < p.performance.pollInterval →
          ∃ n, c.looks = (List.range n).map (· * p.performance.pollInterval) ∧
            ∀ k, k * p.performance.pollInterval < c.clock → k < n)) := by
  refine ⟨p.start_isOk_iff files, ?_, ?_⟩
  · intro hc hpoll reading s duration hpos
    exact ⟨p.pollCount duration, lt_pollCount_iff hpoll duration,
      runUntil_looks hc reading s hpos⟩
  · intro deadline s ts c hts hturns
    have halive := turns_alive (crew_alive p s) hts hturns
    exact ⟨halive.isOver, halive.unbroken, fun hpoll =>
      ⟨_, halive.looks, fun k hk => halive.lt_looks hpoll hk⟩⟩

/-- Two looks, and a step of each worker after one of them. -/
theorem stages_stand_two_looks :
    let performance := { Performance.default with pollInterval := 5 }
    let p := ofSettings { Settings.default none with performance := performance }
      (.constant "topic: ships".toList) fun _ => ⟨[], []⟩
    let files := FileTree.empty 0
    let ts : List Turn :=
      [.look (.failed "busy".toList), .work 0 p.client, .wait 5,
        .look (.text "the quick brown fox".toList), .work 1 p.client, .wait 1]
    ∃ s c, p.start files = .ok s ∧ p.turns 6 (p.crew s) ts = some c ∧
      c.workers.length = 2 ∧ c.looks = [0, 5] ∧ c.isOver = false ∧
      (∀ w ∈ c.workers, w.isBroken = false) ∧
      ∀ reading, (p.runUntil 6 reading s).time = 6 := by
  intro performance p files ts
  have hstands : p.client.Stands := (Client.constant_opens _).stands
  have hts : ∀ t ∈ ts, t.Stands := by
    simp only [ts, List.forall_mem_cons]
    exact ⟨trivial, hstands, trivial, trivial, hstands, trivial, List.forall_mem_nil _⟩
  obtain ⟨hstart, hrun, hcrew⟩ := stages_stand p files
  obtain ⟨s, hs⟩ := hstart.2 (by decide)
  obtain ⟨c, hc, hcount, hlooks⟩ : ∃ c, p.turns 6 (p.crew s) ts = some c ∧
      c.workers.length = 2 ∧ c.looks = [0, 5] := ⟨_, rfl, rfl, rfl⟩
  obtain ⟨hover, hunbroken, -⟩ := hcrew 6 s ts c hts hc
  refine ⟨s, c, hs, hc, hcount, hlooks, hover, hunbroken, fun reading => ?_⟩
  obtain ⟨n, -, hend⟩ := hrun hstands (by decide) reading s 6 (by decide)
  exact congrArg Ended.time hend

/-- A queue as long as a size can say keeps the pipeline from being made, and with an interval of
zero a run does not look at the clipboard at all. -/
theorem stages_fall_at_extremes :
    let p (maxQueue pollInterval : Nat) : Pipeline :=
      let s := Settings.default none
      ofSettings { s with performance :=
        { s.performance with maxQueue := maxQueue, pollInterval := pollInterval } }
        (.constant "topic: ships".toList) fun _ => ⟨[], []⟩
    (∀ files, (p (2 ^ 64 - 1) 500).client.Stands ∧
      (p (2 ^ 64 - 1) 500).start files = .error .tooLarge) ∧
    (∀ files, ∃ s, (p 100 0).client.Stands ∧ (p 100 0).start files = .ok s ∧
      ∀ duration reading, (p 100 0).runUntil duration reading s =
        (p 100 0).runUntil duration (fun _ => .empty) s) := by
  intro p
  have hstands : (Client.constant "topic: ships".toList).Stands :=
    (Client.constant_opens _).stands
  have hlong : WorkQueue.capacityLimit < 2 ^ 64 - 1 := by decide +kernel
  refine ⟨fun files => ⟨hstands, start_of_lt hlong files⟩, fun files => ?_⟩
  obtain ⟨s, hs⟩ := ((p 100 0).start_isOk_iff files).2 (by decide)
  exact ⟨s, hstands, hs, fun duration reading => rfl⟩

end Pipeline
end ClipLedger
