import ClipLedger.Pipeline.Tasks
import ClipLedger.Proofs.Pipeline.Effects

/-
  Every run of the loops comes to an end. A move costs `Tasks.rank` and leaves the time as it is
  (`act?_rank`), so that only finitely many come before time goes on, and it goes on no further
  than to the deadline (`alarm_le`, `lt_alarm`). Hence no chain of steps is infinite
  (`step_wellFounded`), and a run that has not ended has a step to make (`exists_step`).
  `Inevitable` says that every run from a state comes to a goal; `inevitable` has it from an
  invariant of the steps.
-/
namespace ClipLedger

/-! ## What is left to do at one instant -/

/-- What the collector can still do at the time `clock`: a look where `next` has come, and the
item it captured, which counts 13 in the queue. -/
def Collector.rank (clock : Nat) : Collector → Nat
  | .gone => 0
  | .sleeping next => if clock < next then 0 else 15
  | .captured next _ => (if clock < next then 0 else 15) + 14

/-- What the worker can still do at the time `clock`: 10 for an item of its batch, of which a result
that it sends takes 5. -/
def Processor.rank (clock : Nat) : Processor → Nat
  | .popping due => if clock < due then 0 else 2
  | .gathering batch => 2 + 10 * batch.length
  | .handling batch => 1 + 10 * batch.length
  | .analysing _ _ _ rest => 10 + 10 * rest.length
  | .storing _ _ rest => 9 + 10 * rest.length
  | .sending _ rest => 8 + 10 * rest.length
  | .pausing _ rest => 2 + 10 * rest.length
  | .cutOff => 0
  | .breaking _ => 1
  | .gone => 0

/-- What the reporter can still do at the time `clock`. -/
def Reporter.rank (clock : Nat) : Reporter → Nat
  | .receiving due => if clock < due then 1 else 2
  | .reporting _ => 5
  | .ended => 0

/-- A bound on the moves that are possible before time goes on. -/
def Tasks.rank (t : Tasks) : Nat :=
  t.collector.rank t.clock + 13 * t.state.queue.length + t.processor.rank t.clock +
    5 * t.results.length + t.reporter.rank t.clock

namespace Pipeline

variable {p : Pipeline} {deadline : Nat} {reading : Nat → Reading} {t t' : Tasks}

theorem length_enqueue_le (item : Item) (s : PipelineState) :
    (enqueue item s).2.queue.length ≤ s.queue.length + 1 := by
  have hpush : ∀ q : WorkQueue Item, (q.push item).2.length ≤ q.length + 1 := by
    intro q
    unfold WorkQueue.push
    split
    · exact Nat.le_of_eq List.length_append
    · exact Nat.le_succ _
  have hq := hpush s.queue
  unfold enqueue
  split
  · exact Nat.le_succ _
  · split
    · next h => exact snd_of_eq h hq
    · next h => exact snd_of_eq h hq

theorem collectorAct?_rank (hpoll : 0 < p.performance.pollInterval)
    (h : p.collectorAct? reading t = some t') : t'.clock = t.clock ∧ t'.rank < t.rank := by
  have hlater : t.clock < t.clock + p.performance.pollInterval := Nat.lt_add_of_pos_right hpoll
  unfold collectorAct? at h
  split at h
  · cases h
  · next hc =>
    obtain ⟨hdue, rfl⟩ := Tasks.since?_eq_some.1 h
    refine ⟨rfl, ?_⟩
    simp only [Tasks.rank, capture, hc]
    split <;> simp only [Collector.rank, if_neg (Nat.not_lt.2 hdue), if_pos hlater] <;> omega
  · next next item hc =>
    cases h
    have hlen := length_enqueue_le item t.state
    refine ⟨rfl, ?_⟩
    simp only [Tasks.rank, Collector.rank, hc]
    omega

theorem length_take {q q' : WorkQueue Item} {item : Item} (h : q.take = (some item, q')) :
    q.length = q'.length + 1 := congrArg List.length (WorkQueue.items_of_some h).1

/-- Starting on an item changes the conversation and the worker, who is at work on the item, or done
with it. -/
theorem startOn_spec (p : Pipeline) (deadline : Nat) (item : Item) (rest : List Item) (t : Tasks) :
    ∃ session processor, p.startOn deadline item rest t =
      { t with state := { t.state with session := session }, processor := processor } ∧
      processor.rank t.clock ≤ 10 + 10 * rest.length := by
  obtain ⟨session, hsession⟩ := p.analyse_session item
    { t.state with session := { t.state.session with clock := t.clock, deadline := some deadline } }
  unfold startOn
  dsimp only
  split <;> next h => 
    rw [h] at hsession
    subst hsession
    refine ⟨session, _, rfl, ?_⟩
    simp only [Processor.rank]
    omega

/-- Where only the worker goes on, the rank sinks as that of the worker does. -/
theorem rank_lt {q q' : Processor} (hp : t.processor = q)
    (h : q'.rank t.clock < q.rank t.clock) :
    Tasks.rank { t with processor := q' } < t.rank := by
  simp only [Tasks.rank, hp]
  omega

/-- An item that the worker takes counts 13 in the queue, and 10 or 12 with the worker. -/
theorem rank_take_lt {q q' : Processor} {item : Item} {queue : WorkQueue Item}
    (hp : t.processor = q) (htake : t.state.queue.take = (some item, queue))
    (h : q'.rank t.clock < q.rank t.clock + 13) :
    Tasks.rank { t with state := { t.state with queue := queue }, processor := q' } < t.rank := by
  have hlen := length_take htake
  simp only [Tasks.rank, hp, hlen]
  omega

theorem popping_rank {due : Nat} (hp : t.processor = .popping due)
    (h : p.processorAct? deadline t = some t') : t'.clock = t.clock ∧ t'.rank < t.rank := by
  unfold processorAct? at h
  rw [hp] at h
  dsimp only at h
  split at h
  · cases h
  · next item queue htake =>
    cases h
    refine ⟨rfl, rank_take_lt hp htake ?_⟩
    simp only [Processor.rank, List.length_singleton]
    omega

theorem gathering_rank {batch : List Item} (hp : t.processor = .gathering batch)
    (h : p.processorAct? deadline t = some t') : t'.clock = t.clock ∧ t'.rank < t.rank := by
  have hdone : Tasks.rank { t with processor := .handling batch } < t.rank :=
    rank_lt hp (Nat.add_lt_add_right Nat.one_lt_two _)
  unfold processorAct? at h
  rw [hp] at h
  dsimp only at h
  split at h
  · split at h
    · cases h
      exact ⟨rfl, hdone⟩
    · next item queue htake =>
      cases h
      refine ⟨rfl, rank_take_lt hp htake ?_⟩
      simp only [Processor.rank, List.length_append, List.length_singleton]
      omega
  · cases h
    exact ⟨rfl, hdone⟩

theorem storing_rank {item : Item} {r : Record Float} {rest : List Item}
    (hp : t.processor = .storing item r rest) (h : p.processorAct? deadline t = some t') :
    t'.clock = t.clock ∧ t'.rank < t.rank := by
  unfold processorAct? at h
  rw [hp] at h
  dsimp only at h
  split at h <;> next s hstore =>
    cases h
    have hqueue : s.queue = t.state.queue := snd_of_eq hstore (p.queue_store item r t.state)
    refine ⟨rfl, ?_⟩
    simp only [Tasks.rank, Processor.rank, hp, hqueue]
    omega

theorem takeOver_rank {due : Nat} {item : Item} {a : Analysis Float} {rest : List Item}
    (hp : t.processor = .analysing due item a rest) :
    Tasks.rank (p.takeOver item a rest t) < t.rank := by
  simp only [Tasks.rank, takeOver, hp, queue_observe]
  split <;> simp only [Processor.rank] <;> omega

theorem processorAct?_rank (hpoll : 0 < p.performance.pollInterval)
    (h : p.processorAct? deadline t = some t') : t'.clock = t.clock ∧ t'.rank < t.rank := by
  have hact := h
  unfold processorAct? at h
  split at h
  case h_1 due hp => exact popping_rank hp hact
  case h_2 batch hp => exact gathering_rank hp hact
  case h_3 hp =>
    have hlater : t.clock < t.clock + p.performance.pollInterval := Nat.lt_add_of_pos_right hpoll
    cases h
    refine ⟨rfl, rank_lt hp ?_⟩
    simp only [Processor.rank, if_pos hlater]
    omega
  case h_4 item rest hp =>
    cases h
    obtain ⟨session, q, hstart, hrank⟩ := p.startOn_spec deadline item rest t
    rw [hstart]
    refine ⟨rfl, rank_lt hp (Nat.lt_of_le_of_lt hrank ?_)⟩
    simp only [Processor.rank, List.length_cons]
    omega
  case h_5 due item a rest hp =>
    obtain ⟨-, rfl⟩ := Tasks.since?_eq_some.1 h
    exact ⟨rfl, takeOver_rank hp⟩
  case h_6 item r rest hp => exact storing_rank hp hact
  case h_7 done rest hp =>
    cases h
    refine ⟨rfl, ?_⟩
    simp only [Tasks.rank, Processor.rank, hp, List.length_append, List.length_singleton]
    omega
  case h_8 due rest hp =>
    obtain ⟨-, rfl⟩ := Tasks.since?_eq_some.1 h
    exact ⟨rfl, rank_lt hp (Nat.add_lt_add_right Nat.one_lt_two _)⟩
  case h_9 => cases h
  case h_10 time hp =>
    obtain ⟨-, rfl⟩ := Tasks.since?_eq_some.1 h
    exact ⟨rfl, rank_lt hp Nat.one_pos⟩
  case h_11 => cases h

theorem receive?_eq_some (h : receive? t = some t') : ∃ due done rest,
    t.reporter = .receiving due ∧ t.results = done :: rest ∧
      t' = { t with results := rest, reporter := .reporting done } := by
  unfold receive? at h
  split at h
  · next due done rest hr hresults =>
    cases h
    exact ⟨due, done, rest, hr, hresults, rfl⟩
  · cases h

theorem report?_eq_some (h : p.report? t = some t') : ∃ done, t.reporter = .reporting done ∧
    t' = { t with
      state := (p.report done.item t.state).2
      reporter := .receiving (t.clock + reportTimeout) } := by
  unfold report? at h
  split at h
  · next done hr =>
    cases h
    exact ⟨done, hr, rfl⟩
  · cases h

theorem lapse?_eq_some (h : lapse? t = some t') : ∃ due, t.reporter = .receiving due ∧
    due ≤ t.clock ∧ t' = { t with reporter := .receiving (t.clock + reportTimeout) } := by
  unfold lapse? at h
  split at h
  · next due hr =>
    obtain ⟨hdue, rfl⟩ := Tasks.since?_eq_some.1 h
    exact ⟨due, hr, hdue, rfl⟩
  · cases h

theorem stop?_eq_some (h : stop? deadline t = some t') : ∃ due, t.reporter = .receiving due ∧
    deadline ≤ t.clock ∧ t' = { t with reporter := .ended } := by
  unfold stop? at h
  split at h
  · next due hr =>
    obtain ⟨hdue, rfl⟩ := Tasks.since?_eq_some.1 h
    exact ⟨due, hr, hdue, rfl⟩
  · cases h

theorem close?_eq_some (h : close? t = some t') : ∃ due, t.reporter = .receiving due ∧
    t.processor = .gone ∧ t.results = [] ∧ t' = { t with reporter := .ended } := by
  unfold close? at h
  split at h
  · next due hr hp hresults =>
    cases h
    exact ⟨due, hr, hp, hresults, rfl⟩
  · cases h

theorem giveUp?_eq_some (h : giveUp? t = some t') : ∃ due, t.processor = .popping due ∧
    due ≤ t.clock ∧ t' = { t with processor := .handling [] } := by
  unfold giveUp? at h
  split at h
  · next due hp =>
    obtain ⟨hdue, rfl⟩ := Tasks.since?_eq_some.1 h
    exact ⟨due, hp, hdue, rfl⟩
  · cases h

theorem rank_receiving_pos (due clock : Nat) : 1 ≤ (Reporter.receiving due).rank clock := by
  simp only [Reporter.rank]
  split <;> omega

/-- Ending a run costs rank. -/
theorem rank_ended {due : Nat} (hr : t.reporter = .receiving due) :
    ({ t with reporter := .ended } : Tasks).rank < t.rank := by
  have hwas := rank_receiving_pos due t.clock
  simp only [Tasks.rank, hr]
  simp only [Reporter.rank] at hwas ⊢
  omega

/-- **A move costs `Tasks.rank`,** and takes no time. -/
theorem act?_rank (hpoll : 0 < p.performance.pollInterval) {m : LoopMove}
    (h : p.act? deadline reading t m = some t') : t'.clock = t.clock ∧ t'.rank < t.rank := by
  have hlater : t.clock < t.clock + reportTimeout := Nat.lt_add_of_pos_right (by decide)
  cases m with
  | collect => exact collectorAct?_rank hpoll h
  | work => exact processorAct?_rank hpoll h
  | giveUp =>
    obtain ⟨due, hp, hdue, rfl⟩ := giveUp?_eq_some h
    refine ⟨rfl, ?_⟩
    simp only [Tasks.rank, Processor.rank, hp, if_neg (Nat.not_lt.2 hdue), List.length_nil]
    omega
  | receive =>
    obtain ⟨due, done, rest, hr, hresults, rfl⟩ := receive?_eq_some h
    have hwas := rank_receiving_pos due t.clock
    refine ⟨rfl, ?_⟩
    simp only [Tasks.rank, hr, hresults, List.length_cons]
    simp only [Reporter.rank] at hwas ⊢
    omega
  | report =>
    obtain ⟨done, hr, rfl⟩ := report?_eq_some h
    refine ⟨rfl, ?_⟩
    simp only [Tasks.rank, Reporter.rank, hr, if_pos hlater, report]
    omega
  | lapse =>
    obtain ⟨due, hr, hdue, rfl⟩ := lapse?_eq_some h
    refine ⟨rfl, ?_⟩
    simp only [Tasks.rank, Reporter.rank, hr, if_pos hlater, if_neg (Nat.not_lt.2 hdue)]
    omega
  | stop =>
    obtain ⟨due, hr, -, rfl⟩ := stop?_eq_some h
    exact ⟨rfl, rank_ended hr⟩
  | close =>
    obtain ⟨due, hr, -, -, rfl⟩ := close?_eq_some h
    exact ⟨rfl, rank_ended hr⟩

/-! ## Time goes on -/

theorem collector_asleep (h : p.collectorAct? reading t = none) (hlate : t.clock < deadline) :
    t.clock < t.collector.timer?.getD deadline := by
  unfold collectorAct? at h
  cases hc : t.collector with
  | gone => exact hlate
  | sleeping next =>
    rw [hc] at h
    exact Tasks.since?_eq_none.1 h
  | captured next item =>
    rw [hc] at h
    cases h

theorem processor_waits (hwork : p.processorAct? deadline t = none) (hpop : giveUp? t = none)
    (hlate : t.clock < deadline) : t.clock < t.processor.timer?.getD deadline := by
  unfold giveUp? at hpop
  unfold processorAct? at hwork
  cases hp : t.processor with
  | popping due =>
    rw [hp] at hpop
    exact Tasks.since?_eq_none.1 hpop
  | analysing due item a rest =>
    rw [hp] at hwork
    exact Tasks.since?_eq_none.1 hwork
  | pausing due rest =>
    rw [hp] at hwork
    exact Tasks.since?_eq_none.1 hwork
  | breaking time =>
    rw [hp] at hwork
    exact Tasks.since?_eq_none.1 hwork
  | gathering batch => exact hlate
  | handling batch => exact hlate
  | storing item r rest => exact hlate
  | sending done rest => exact hlate
  | cutOff => exact hlate
  | gone => exact hlate

/-- A reporter that has no move to make waits for a result, and the deadline has not come. -/
theorem reporter_waits (hgoes : t.ended = false) (hreport : p.report? t = none)
    (hlapse : lapse? t = none) (hstop : stop? deadline t = none) :
    t.clock < deadline ∧ t.clock < t.reporter.timer?.getD deadline := by
  unfold report? at hreport
  unfold lapse? at hlapse
  unfold stop? at hstop
  unfold Tasks.ended at hgoes
  cases hr : t.reporter with
  | receiving due =>
    rw [hr] at hlapse hstop
    exact ⟨Tasks.since?_eq_none.1 hstop, Tasks.since?_eq_none.1 hlapse⟩
  | reporting done =>
    rw [hr] at hreport
    cases hreport
  | ended =>
    rw [hr] at hgoes
    cases hgoes

/-- Where no move is possible, no timer has run out. -/
theorem lt_alarm (hgoes : t.ended = false) (h : ∀ m, p.act? deadline reading t m = none) :
    t.clock < t.alarm deadline := by
  obtain ⟨hlate, hreporter⟩ := reporter_waits hgoes (h .report) (h .lapse) (h .stop)
  have hcollector := collector_asleep (h .collect) hlate
  have hprocessor := processor_waits (h .work) (h .giveUp) hlate
  unfold Tasks.alarm
  omega

theorem alarm_le (deadline : Nat) (t : Tasks) : t.alarm deadline ≤ deadline := by
  unfold Tasks.alarm
  omega

/-! ## Every run ends -/

/-- **No run goes on forever,** whatever the client and the files do: between two moments the moves
are bounded by `Tasks.rank`, and time ends at the deadline. -/
theorem step_wellFounded (hpoll : 0 < p.performance.pollInterval) (deadline : Nat)
    (reading : Nat → Reading) :
    WellFounded fun t' t => p.Step deadline reading t t' := by
  refine Subrelation.wf (fun {t' t} h => ?_)
    (InvImage.wf (fun t : Tasks => (deadline - t.clock, t.rank))
      (Prod.lex Nat.lt_wfRel Nat.lt_wfRel).wf)
  show Prod.Lex (· < ·) (· < ·) (deadline - t'.clock, t'.rank) (deadline - t.clock, t.rank)
  cases h with
  | move m hgoes h =>
    obtain ⟨hclock, hrank⟩ := act?_rank hpoll h
    rw [hclock]
    exact .right _ hrank
  | pass hgoes h =>
    have hlt := lt_alarm hgoes h
    have hle := alarm_le deadline t
    refine .left _ _ ?_
    dsimp only
    omega

/-- A run that has not ended goes on. -/
theorem exists_step (p : Pipeline) (deadline : Nat) (reading : Nat → Reading)
    (hgoes : t.ended = false) : ∃ t', p.Step deadline reading t t' := by
  by_cases h : ∀ m, p.act? deadline reading t m = none
  · exact ⟨_, .pass hgoes h⟩
  · obtain ⟨m, hm⟩ := Classical.not_forall.1 h
    obtain ⟨t', ht'⟩ := Option.isSome_iff_exists.1 (Option.isSome_iff_ne_none.2 hm)
    exact ⟨t', .move m hgoes ht'⟩

/-- No step is made where the run has ended. -/
theorem not_step_of_ended (hended : t.ended = true) : ¬ p.Step deadline reading t t' := by
  intro h
  cases h with
  | move m hgoes => exact absurd hended (Bool.eq_false_iff.1 hgoes)
  | pass hgoes => exact absurd hended (Bool.eq_false_iff.1 hgoes)

/-- Every run from a state comes to `goal`: it is reached, or there is a step to make and every step
leads to where it is inevitable. -/
inductive Inevitable (p : Pipeline) (deadline : Nat) (reading : Nat → Reading)
    (goal : Tasks → Prop) : Tasks → Prop
  | reached {t : Tasks} (h : goal t) : Inevitable p deadline reading goal t
  | later {t : Tasks} (hgoes : ∃ t', p.Step deadline reading t t')
      (h : ∀ t', p.Step deadline reading t t' → Inevitable p deadline reading goal t') :
      Inevitable p deadline reading goal t

/-- What every step keeps holds at the end of every run. -/
theorem inevitable (hpoll : 0 < p.performance.pollInterval) {keeps goal : Tasks → Prop}
    (hstep : ∀ t t', keeps t → p.Step deadline reading t t' → keeps t')
    (hgoal : ∀ t, keeps t → t.ended = true → goal t) (ht : keeps t) :
    Inevitable p deadline reading goal t := by
  induction t using (step_wellFounded hpoll deadline reading).induction with
  | _ t ih =>
    by_cases hgoes : t.ended = true
    · exact .reached (hgoal t ht hgoes)
    · exact .later (exists_step p deadline reading (Bool.eq_false_iff.2 hgoes))
        fun t' h => ih t' h (hstep t t' ht h)

end Pipeline
end ClipLedger
