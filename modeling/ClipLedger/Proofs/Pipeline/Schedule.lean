import ClipLedger.Proofs.Pipeline.Crew
import ClipLedger.Proofs.Pipeline.Sleeping
import ClipLedger.Proofs.Pipeline.Worker

/-
  `runUntil` is one schedule of the loops. `Mirrors` relates its worker to the `Processor`, and
  `Agrees` a `RunState` to `Tasks` with an empty channel and a reporter that waits. One step of
  `workerStep` is some steps of the loops (`Agrees.step`), one `poll` is a look, what the gate
  makes of it and the worker's next batch (`Agrees.poll`), and so it goes on by induction through
  `work` and `polls`. In between `Sleeps.reaches` lets the time pass that `runUntil` skips.

  Proved: `runUntil_reached`, for every client, every state and every `duration`; only an interval
  of zero is left out, with which the collector is gone and a worker that pops could give up for
  ever at one instant. With `tasks_rounds` it yields `runUntil_rounds`.
-/
namespace ClipLedger

namespace Pipeline

variable {p : Pipeline} {deadline : Nat} {reading : Nat → Reading} {t t' : Tasks}
  {s : PipelineState} {item : Item} {r r' : RunState} {limit : Nat} {atLimit : Bool}

/-! ## The worker of a run and the worker of the loops -/

/-- A batch is complete once the queue has no item ready. -/
theorem act?_gathering_of_none {batch : List Item} {queue : WorkQueue Item}
    (hp : t.processor = .gathering batch) (htake : t.state.queue.take = (none, queue)) :
    p.act? deadline reading t .work = some { t with processor := .handling batch } := by
  unfold act? processorAct?
  dsimp only
  rw [hp, htake]
  exact ite_self _

/-- A batch is complete once it holds `p.batchLimit` items. -/
theorem act?_gathering_of_le {batch : List Item} (hp : t.processor = .gathering batch)
    (hfull : p.batchLimit ≤ batch.length) :
    p.act? deadline reading t .work = some { t with processor := .handling batch } := by
  unfold act? processorAct?
  dsimp only
  rw [hp]
  exact if_neg (Nat.not_lt.mpr hfull)

theorem act?_gathering_of_some {batch : List Item} {queue : WorkQueue Item}
    (hp : t.processor = .gathering batch) (hroom : batch.length < p.batchLimit)
    (htake : t.state.queue.take = (some item, queue)) :
    p.act? deadline reading t .work = some { t with
      state := { t.state with queue := queue }
      processor := .gathering (batch ++ [item]) } := by
  unfold act? processorAct?
  dsimp only
  rw [hp, htake]
  exact if_pos hroom

theorem act?_popping_of_some {due : Nat} {queue : WorkQueue Item}
    (hp : t.processor = .popping due) (htake : t.state.queue.take = (some item, queue)) :
    p.act? deadline reading t .work = some { t with
      state := { t.state with queue := queue }
      processor := .gathering [item] } := by
  unfold act? processorAct?
  dsimp only
  rw [hp, htake]

/-- The gathering of a batch takes what there is, up to `room` items more. -/
theorem reaches_gathered (hgoes : t.ended = false) {batch more : List Item} {room : Nat}
    {queue : WorkQueue Item} (hp : t.processor = .gathering batch)
    (hroom : batch.length + room = p.batchLimit)
    (hmany : t.state.queue.takeMany room = (more, queue)) :
    p.Reaches deadline reading t
      { t with
        state := { t.state with queue := queue }
        processor := .handling (batch ++ more) } := by
  induction room generalizing t batch more with
  | zero =>
    cases hmany
    rw [List.take_zero, List.drop_zero, List.append_nil]
    exact .move .work hgoes (act?_gathering_of_le hp (Nat.le_of_eq hroom.symm))
  | succ room ih =>
    rcases htake : t.state.queue.take with ⟨item?, rest⟩
    cases item? with
    | none =>
      obtain ⟨rfl, rfl⟩ := Prod.mk.inj ((WorkQueue.takeMany_of_none htake _).symm.trans hmany)
      rw [List.append_nil]
      exact .move .work hgoes (act?_gathering_of_none hp htake)
    | some item =>
      obtain ⟨rfl, hqueue⟩ := Prod.mk.inj ((WorkQueue.takeMany_of_some htake _).symm.trans hmany)
      have hrest := ih (t := { t with
          state := { t.state with queue := rest }
          processor := .gathering (batch ++ [item]) }) hgoes rfl
        (by rw [List.length_append, List.length_singleton]; omega) (Prod.ext rfl hqueue)
      rw [List.append_assoc] at hrest
      exact .trans (.move .work hgoes (act?_gathering_of_some hp (by omega) htake)) hrest

/-- How the worker `w` of a run and the worker `q` of the loops agree at the time `clock`. -/
inductive Mirrors (clock deadline : Nat) : Worker → Processor → Prop
  | free {q : Processor} (hq : q.Free) : Mirrors clock deadline .waiting q
  | handling {batch : List Item} : Mirrors clock deadline (.ready clock batch) (.handling batch)
  | pausing {due : Nat} {batch : List Item} (h : clock ≤ due) :
      Mirrors clock deadline (.ready due batch) (.pausing due batch)
  | analysing {due : Nat} {item : Item} {a : Analysis Float} {rest : List Item}
      (h : clock ≤ due) :
      Mirrors clock deadline (.analysed due item a rest) (.analysing due item a rest)
  | cutOff : Mirrors clock deadline .cutOff .cutOff
  | breaking {time : Nat} (h : clock ≤ time) (hlt : time < deadline) :
      Mirrors clock deadline (.broken time) (.breaking time)

/-- No result is in the channel, the reporter waits, the next look is number `t.looks`, and the
deadline has not come. -/
structure Settled (p : Pipeline) (deadline : Nat) (t : Tasks) : Prop where
  results : t.results = []
  reporter : t.reporter.Waits
  collector : t.collector = .sleeping (t.looks * p.performance.pollInterval)
  before : t.clock < deadline

theorem Settled.at {now : Nat} (h : Settled p deadline t) (hnow : now < deadline)
    {state : PipelineState} {q : Processor} {rep : Reporter} (hrep : rep.Waits) :
    Settled p deadline
      { t with state := state, clock := now, processor := q, reporter := rep } :=
  ⟨h.results, hrep, h.collector, hnow⟩

/-- The run `r` and the loops `t` agree. -/
structure Agrees (p : Pipeline) (deadline : Nat) (r : RunState) (t : Tasks) : Prop
    extends Settled p deadline t where
  same : t.state.SameAs r.state
  worker : Mirrors t.clock deadline r.worker t.processor
  empty : r.worker = .waiting → r.state.queue.items = []

/-- A worker with nothing in hand takes a batch as `fetch` does. -/
theorem reaches_fetched (reading : Nat → Reading) (h : Settled p deadline t)
    (hfree : t.processor.Free) (hsame : t.state.SameAs s) :
    ∃ t', p.Reaches deadline reading t t' ∧ Agrees p deadline (p.fetch t.clock s) t' ∧
      t'.clock = t.clock ∧ t'.looks = t.looks := by
  have hgoes := goes_of_waits h.reporter
  obtain ⟨due, hpop⟩ :
      ∃ due, p.Reaches deadline reading t { t with processor := .popping due } := by
    obtain ⟨s₀, clock, looks, collector, q, results, reporter⟩ := t
    cases hfree with
    | popping due => exact ⟨due, .refl _⟩
    | handling => exact ⟨_, .move .work hgoes rfl⟩
  unfold fetch nextBatch
  rw [← hsame.queue]
  rcases htake : t.state.queue.take with ⟨item?, queue⟩
  cases item? with
  | none =>
    rw [WorkQueue.takeMany_of_none htake]
    exact ⟨_, hpop, ⟨h.at h.before h.reporter, hsame.setQueue _, .free (.popping due),
      fun _ => WorkQueue.items_of_none htake⟩, rfl, rfl⟩
  | some item =>
    obtain ⟨room, hroom⟩ : ∃ room, p.batchLimit = room + 1 :=
      ⟨p.batchLimit - 1, (Nat.succ_pred_eq_of_pos (Nat.le_max_right _ _)).symm⟩
    rcases hmany : queue.takeMany room with ⟨more, queue'⟩
    rw [hroom, WorkQueue.takeMany_of_some htake, hmany]
    have hgathered : p.Reaches deadline reading _ _ := reaches_gathered (t := { t with
        state := { t.state with queue := queue }
        processor := .gathering [item] }) hgoes rfl
      (by rw [hroom, List.length_singleton, Nat.add_comm]) hmany
    have hfirst : p.act? deadline reading { t with processor := .popping due } .work = some _ :=
      act?_popping_of_some rfl htake
    exact ⟨_, .trans hpop (.trans (.move .work hgoes hfirst) hgathered),
      ⟨h.at h.before h.reporter, hsame.setQueue _, .handling, fun hw => by cases hw⟩, rfl, rfl⟩

theorem Mirrors.of_ready {clock now : Nat} {batch : List Item} {q : Processor}
    (h : Mirrors clock deadline (.ready now batch) q) :
    now = clock ∧ q = .handling batch ∨ clock ≤ now ∧ q = .pausing now batch := by
  cases h with
  | handling => exact .inl ⟨rfl, rfl⟩
  | pausing h => exact .inr ⟨h, rfl⟩

/-- A worker that is not `Free` is the same when its timer runs out. -/
theorem Settled.at_timer (reading : Nat → Reading) (hpoll : 0 < p.performance.pollInterval)
    (h : Settled p deadline t) {now : Nat} {q : Processor} (hq : t.processor = q)
    (hbusy : ¬ q.Free) (htimer : q.timer? = some now) (hle : t.clock ≤ now)
    (hlate : now < deadline) (hnext : now ≤ t.looks * p.performance.pollInterval) :
    ∃ rep, rep.Waits ∧
      p.Reaches deadline reading t { t with clock := now, processor := q, reporter := rep } := by
  subst hq
  have hsleeps : Sleeps deadline now t := ⟨h.results, h.reporter, ⟨_, h.collector, hnext⟩,
    Nat.le_of_lt hlate, hle, .of_timer hbusy htimer, .inr (.inr ⟨hbusy, htimer⟩)⟩
  obtain ⟨q, rep, hstill, hrep, hreaches⟩ := hsleeps.reaches reading hpoll
  rcases hstill with rfl | ⟨hfree, -⟩
  · exact ⟨rep, hrep, hreaches⟩
  · exact absurd hfree hbusy

/-- A worker that is ready at `now` comes to handle its batch then. -/
theorem Agrees.awake (reading : Nat → Reading) (hpoll : 0 < p.performance.pollInterval)
    (h : Agrees p deadline r t) {now : Nat} {batch : List Item} (hr : r.worker = .ready now batch)
    (hlate : now < deadline) (hnext : now ≤ t.looks * p.performance.pollInterval) :
    ∃ rep, rep.Waits ∧ p.Reaches deadline reading t
      { t with clock := now, processor := .handling batch, reporter := rep } := by
  rcases (hr ▸ h.worker).of_ready with ⟨rfl, hq⟩ | ⟨hle, hq⟩
  · exact ⟨t.reporter, h.reporter, by rw [← hq]; exact .refl t⟩
  · obtain ⟨rep, hrep, hreaches⟩ := h.at_timer reading hpoll hq (fun hfree => by cases hfree) rfl
      hle hlate hnext
    exact ⟨rep, hrep, hreaches.trans (.move .work (goes_of_waits hrep)
      (Tasks.since?_eq_some.2 ⟨Nat.le_refl _, rfl⟩))⟩

theorem Mirrors.of_analysed {clock now : Nat} {item : Item} {a : Analysis Float}
    {rest : List Item} {q : Processor} (h : Mirrors clock deadline (.analysed now item a rest) q) :
    clock ≤ now ∧ q = .analysing now item a rest := by
  cases h with
  | analysing h => exact ⟨h, rfl⟩

/-- An analysis that is to end at `now` ends then. -/
theorem Agrees.analysed (reading : Nat → Reading) (hpoll : 0 < p.performance.pollInterval)
    (h : Agrees p deadline r t) {now : Nat} {item : Item} {a : Analysis Float} {rest : List Item}
    (hr : r.worker = .analysed now item a rest) (hlate : now < deadline)
    (hnext : now ≤ t.looks * p.performance.pollInterval) :
    ∃ rep, rep.Waits ∧ p.Reaches deadline reading t
      { t with clock := now, processor := .analysing now item a rest, reporter := rep } := by
  obtain ⟨hle, hq⟩ := (hr ▸ h.worker).of_analysed
  exact h.at_timer reading hpoll hq (fun hfree => by cases hfree) rfl hle hlate hnext

/-- The worker starts on an item as `begin` does. -/
theorem startOn_begin (item : Item) (rest : List Item) (hsame : t.state.SameAs s)
    (hbefore : t.clock < deadline) :
    ∃ s' w q, p.begin t.clock deadline item rest s = ⟨s', w⟩ ∧
      p.startOn deadline item rest t = { t with state := s', processor := q } ∧
      Mirrors t.clock deadline w q ∧ w ≠ .waiting := by
  obtain ⟨s₀, now, looks, collector, q₀, results, reporter⟩ := t
  obtain ⟨clock, due, rfl⟩ := hsame
  have htime := p.analyzer.analyze_inTime p.client s.tracker item
    ⟨s.session.sent, now, some deadline⟩
  unfold begin startOn analyse PipelineState.timed
  dsimp only
  generalize p.analyzer.analyze p.client s.tracker item
    ⟨s.session.sent, now, some deadline⟩ = out at htime ⊢
  obtain ⟨result, session⟩ := out
  have hle : now ≤ session.clock := htime.le
  cases result with
  | ok a => exact ⟨_, _, _, rfl, rfl, .analysing hle, Worker.noConfusion⟩
  | error e =>
    cases e with
    | template e =>
      exact ⟨_, _, _, rfl, rfl, .pausing (Nat.le_add_right_of_le hle), Worker.noConfusion⟩
    | halt e =>
      cases e with
      | overdue => exact ⟨_, _, _, rfl, rfl, .cutOff, Worker.noConfusion⟩
      | breakdown =>
        exact ⟨_, _, _, rfl, rfl, .breaking hle (htime.before deadline rfl hbefore),
          Worker.noConfusion⟩

/-- `finish` stores as the loops do, where the record is not empty. -/
theorem finish_of_store {item : Item} {a : Analysis Float} (hr : ¬ a.record.isEmpty = true)
    {result : Except Failure Unit} (hstore : p.store item a.record (p.observe a s) = (result, s')) :
    p.finish item a s = (result.map fun _ => some ⟨item, a.record⟩, s') := by
  unfold finish
  dsimp only
  rw [if_neg hr, hstore]
  cases result <;> rfl

/-- A record that can be stored is stored, sent, received and reported, at once. -/
theorem reaches_stored (reading : Nat → Reading) {item : Item} {r : Record Float}
    {rest : List Item} (h : Settled p deadline t) (hp : t.processor = .storing item r rest)
    (hstore : p.store item r t.state = (.ok (), s)) :
    ∃ rep, rep.Waits ∧ p.Reaches deadline reading t
      { t with state := (p.report item s).2, processor := .handling rest, reporter := rep } := by
  obtain ⟨s₀, clock, looks, collector, q, results, reporter⟩ := t
  obtain rfl : results = [] := h.results
  obtain ⟨due, rfl⟩ : ∃ due, reporter = .receiving due := h.reporter
  obtain rfl : q = .storing item r rest := hp
  have hwork : p.act? deadline reading
      ⟨s₀, clock, looks, collector, .storing item r rest, [], .receiving due⟩ .work =
        some ⟨s, clock, looks, collector, .sending ⟨item, r⟩ rest, [], .receiving due⟩ := by
    unfold act? processorAct?
    dsimp only at hstore ⊢
    rw [hstore]
  exact ⟨_, ⟨clock + reportTimeout, rfl⟩, .trans (.move .work rfl hwork)
    (.trans (.move .work rfl rfl) (.trans (.move .receive rfl rfl) (.move .report rfl rfl)))⟩

/-- Where a record cannot be stored, the worker pauses for `errorPause`. -/
theorem reaches_failed (reading : Nat → Reading) {item : Item} {r : Record Float}
    {rest : List Item} (h : Settled p deadline t) (hp : t.processor = .storing item r rest)
    {e : Failure} (hstore : p.store item r t.state = (.error e, s)) :
    p.Reaches deadline reading t
      { t with state := s, processor := .pausing (t.clock + errorPause) rest } := by
  refine .move .work (goes_of_waits h.reporter) ?_
  unfold act? processorAct?
  dsimp only
  rw [hp]
  dsimp only
  rw [hstore]

/-- What the worker has analysed is stored and sent, received and reported, as `conclude` does
it. -/
theorem reaches_concluded (reading : Nat → Reading) {item : Item} {a : Analysis Float}
    {rest : List Item} (h : Settled p deadline t)
    (hp : t.processor = .analysing t.clock item a rest) (hsame : t.state.SameAs s) :
    ∃ t', p.Reaches deadline reading t t' ∧
      Agrees p deadline (p.conclude t.clock item a rest s) t' ∧ t'.clock = t.clock ∧
      t'.looks = t.looks := by
  have hobserve := observe_sameAs (p := p) hsame a
  have htaken : p.Reaches deadline reading t (p.takeOver item a rest t) := by
    refine .move .work (goes_of_waits h.reporter) ?_
    unfold act? processorAct?
    dsimp only
    rw [hp]
    exact Tasks.since?_eq_some.2 ⟨Nat.le_refl _, rfl⟩
  unfold takeOver at htaken
  by_cases hr : a.record.isEmpty = true
  · rw [if_pos hr] at htaken
    unfold conclude finish
    dsimp only
    rw [if_pos hr]
    exact ⟨_, htaken, ⟨h.at h.before h.reporter, hobserve, .handling, fun hw => by cases hw⟩, rfl,
      rfl⟩
  · rw [if_neg hr] at htaken
    obtain ⟨hresult, hstate⟩ := store_sameAs (p := p) hobserve item a.record
    rcases hleft : p.store item a.record (p.observe a t.state) with ⟨result, s₁⟩
    rcases hright : p.store item a.record (p.observe a s) with ⟨result', s₂⟩
    rw [hleft, hright] at hresult hstate
    obtain rfl : result = result' := hresult
    have hsettled : Settled p deadline { t with
        state := p.observe a t.state
        processor := .storing item a.record rest } := h.at h.before h.reporter
    unfold conclude
    rw [finish_of_store hr hright]
    cases result with
    | error e =>
      exact ⟨_, htaken.trans (reaches_failed reading hsettled rfl hleft),
        ⟨h.at h.before h.reporter, hstate, .pausing (Nat.le_add_right _ _),
          fun hw => by cases hw⟩, rfl, rfl⟩
    | ok _ =>
      obtain ⟨rep, hrep, hstored⟩ := reaches_stored reading hsettled rfl hleft
      exact ⟨_, htaken.trans hstored, ⟨h.at h.before hrep, report_sameAs hstate item, .handling,
        fun hw => by cases hw⟩, rfl, rfl⟩

/-- `fetch`, once the worker is ready. -/
theorem Agrees.fetched (reading : Nat → Reading) (hpoll : 0 < p.performance.pollInterval)
    {now : Nat} (h : Agrees p deadline ⟨s, .ready now []⟩ t) (hlate : now < deadline)
    (hnext : now ≤ t.looks * p.performance.pollInterval) :
    ∃ t', p.Reaches deadline reading t t' ∧ Agrees p deadline (p.fetch now s) t' ∧
      t'.clock = now ∧ t'.looks = t.looks := by
  obtain ⟨rep, hrep, hawake⟩ := h.awake reading hpoll rfl hlate hnext
  obtain ⟨t', hreaches, hagrees, hclock, hlooks⟩ := reaches_fetched (p := p) reading
    (h.at hlate hrep) .handling h.same
  exact ⟨t', .trans hawake hreaches, hagrees, hclock, hlooks⟩

/-- `begin`, once the worker is ready. -/
theorem Agrees.begun (reading : Nat → Reading) (hpoll : 0 < p.performance.pollInterval)
    {now : Nat} {item : Item} {rest : List Item}
    (h : Agrees p deadline ⟨s, .ready now (item :: rest)⟩ t) (hlate : now < deadline)
    (hnext : now ≤ t.looks * p.performance.pollInterval) :
    ∃ t', p.Reaches deadline reading t t' ∧
      Agrees p deadline (p.begin now deadline item rest s) t' ∧ t'.clock = now ∧
      t'.looks = t.looks := by
  obtain ⟨rep, hrep, hawake⟩ := h.awake reading hpoll rfl hlate hnext
  obtain ⟨s', w, q, hbegin, hstart, hmirrors, hbusy⟩ := startOn_begin (p := p) item rest
    (t := { t with clock := now, processor := .handling (item :: rest), reporter := rep })
    h.same hlate
  rw [hbegin]
  exact ⟨_, .trans hawake (.move .work (goes_of_waits hrep) (congrArg some hstart)),
    ⟨h.at hlate hrep, .refl s', hmirrors, fun hw => absurd hw hbusy⟩, rfl, rfl⟩

/-- `conclude`, once the analysis is over. -/
theorem Agrees.concluded (reading : Nat → Reading) (hpoll : 0 < p.performance.pollInterval)
    {now : Nat} {item : Item} {a : Analysis Float} {rest : List Item}
    (h : Agrees p deadline ⟨s, .analysed now item a rest⟩ t) (hlate : now < deadline)
    (hnext : now ≤ t.looks * p.performance.pollInterval) :
    ∃ t', p.Reaches deadline reading t t' ∧ Agrees p deadline (p.conclude now item a rest s) t' ∧
      t'.clock = now ∧ t'.looks = t.looks := by
  obtain ⟨rep, hrep, hends⟩ := h.analysed reading hpoll rfl hlate hnext
  obtain ⟨t', hreaches, hagrees, hclock, hlooks⟩ := reaches_concluded (p := p) reading
    (t := { t with clock := now, processor := .analysing now item a rest, reporter := rep })
    (h.at hlate hrep) rfl h.same
  exact ⟨t', .trans hends hreaches, hagrees, hclock, hlooks⟩

/-- A `workerStep` that is due before `deadline`, up to `limit` and the next look, is made by the
loops too. -/
theorem Agrees.step (reading : Nat → Reading) (hpoll : 0 < p.performance.pollInterval)
    (h : Agrees p deadline r t) (hnext : limit ≤ t.looks * p.performance.pollInterval)
    (hdue : ∀ now, isDue now limit atLimit = true → now < deadline)
    (hstep : p.workerStep deadline limit atLimit r = some r') :
    ∃ t', p.Reaches deadline reading t t' ∧ Agrees p deadline r' t' ∧ t'.clock ≤ limit ∧
      t'.looks = t.looks := by
  obtain ⟨s, worker⟩ := r
  unfold workerStep at hstep
  cases worker with
  | ready now batch =>
    cases batch with
    | nil =>
      dsimp only at hstep
      split at hstep
      · next hnow =>
        cases hstep
        have hlimit := le_of_isDue hnow
        obtain ⟨t', hreaches, hagrees, hclock, hlooks⟩ :=
          h.fetched reading hpoll (hdue now hnow) (Nat.le_trans hlimit hnext)
        exact ⟨t', hreaches, hagrees, hclock ▸ hlimit, hlooks⟩
      · cases hstep
    | cons item rest =>
      dsimp only at hstep
      split at hstep
      · next hnow =>
        cases hstep
        have hlimit := le_of_isDue hnow
        obtain ⟨t', hreaches, hagrees, hclock, hlooks⟩ :=
          h.begun reading hpoll (hdue now hnow) (Nat.le_trans hlimit hnext)
        exact ⟨t', hreaches, hagrees, hclock ▸ hlimit, hlooks⟩
      · cases hstep
  | analysed now item a rest =>
    dsimp only at hstep
    split at hstep
    · next hnow =>
      cases hstep
      have hlimit := le_of_isDue hnow
      have hnow' : isDue now limit atLimit = true :=
        isDue_iff.2 ((isDue_iff.1 hnow).imp_right fun h => ⟨h.1, (Bool.and_eq_true_iff.1 h.2).1⟩)
      obtain ⟨t', hreaches, hagrees, hclock, hlooks⟩ :=
        h.concluded reading hpoll (hdue now hnow') (Nat.le_trans hlimit hnext)
      exact ⟨t', hreaches, hagrees, hclock ▸ hlimit, hlooks⟩
    · cases hstep
  | waiting => cases hstep
  | cutOff => cases hstep
  | broken time => cases hstep

theorem Agrees.workUntil (reading : Nat → Reading) (hpoll : 0 < p.performance.pollInterval)
    (atLimit : Bool) (h : Agrees p deadline r t) (hclock : t.clock ≤ limit)
    (hnext : limit ≤ t.looks * p.performance.pollInterval)
    (hdue : ∀ now, isDue now limit atLimit = true → now < deadline) :
    ∃ t', p.Reaches deadline reading t t' ∧
      Agrees p deadline (p.workUntil deadline limit atLimit r) t' ∧ t'.clock ≤ limit ∧
      t'.looks = t.looks := by
  unfold Pipeline.workUntil
  generalize workBound r = fuel
  induction fuel generalizing r t with
  | zero => exact ⟨t, .refl t, h, hclock, rfl⟩
  | succ fuel ih =>
    rw [work]
    cases hstep : p.workerStep deadline limit atLimit r with
    | none => exact ⟨t, .refl t, h, hclock, rfl⟩
    | some r₁ =>
      obtain ⟨t₁, hreaches, hagrees, hclock₁, hlooks⟩ := h.step reading hpoll hnext hdue hstep
      obtain ⟨t', hreaches', hagrees', hclock', hlooks'⟩ := ih hagrees hclock₁ (hlooks ▸ hnext)
      exact ⟨t', .trans hreaches hreaches', hagrees', hclock', hlooks'.trans hlooks⟩

/-- A worker that has no step to make up to `limit` dozes until then, and `Mirrors` the same
then. -/
theorem Agrees.dozes (h : Agrees p deadline r t)
    (hstuck : p.workerStep deadline limit atLimit r = none)
    (hclock : isDue t.clock limit atLimit = true)
    (hbroken : ∀ time, r.worker = .broken time → limit ≤ time) :
    Dozes limit t.state t.processor ∧
      ∀ q, StillDozes t.processor q → Mirrors limit deadline r.worker q := by
  obtain ⟨s, worker⟩ := r
  obtain ⟨s₀, clock, looks, collector, q, results, reporter⟩ := t
  have hworker := h.worker
  dsimp only at hworker hclock hbroken
  cases hworker with
  | free hq =>
    have hempty : s₀.queue.items = [] :=
      (congrArg WorkQueue.items h.same.queue).trans (h.empty rfl)
    refine ⟨.free hq hempty, ?_⟩
    rintro q' (rfl | ⟨-, hq'⟩)
    · exact .free hq
    · exact .free hq'
  | handling => exact absurd hclock (Bool.eq_false_iff.1 (isDue_of_ready hstuck))
  | pausing =>
    have hlimit := le_of_not_isDue (isDue_of_ready hstuck)
    refine ⟨.pausing hlimit, ?_⟩
    rintro q' (rfl | ⟨hq, -⟩)
    · exact .pausing hlimit
    · cases hq
  | analysing =>
    have hlimit := le_of_not_isDue (isDue_of_analysed hstuck)
    refine ⟨.analysing hlimit, ?_⟩
    rintro q' (rfl | ⟨hq, -⟩)
    · exact .analysing hlimit
    · cases hq
  | cutOff =>
    refine ⟨.cutOff, ?_⟩
    rintro q' (rfl | ⟨hq, -⟩)
    · exact .cutOff
    · cases hq
  | breaking hle hlt =>
    refine ⟨.breaking (hbroken _ rfl), ?_⟩
    rintro q' (rfl | ⟨hq, -⟩)
    · exact .breaking (hbroken _ rfl) hlt
    · cases hq

/-! ## Looks -/

/-- The collector looks, and what it captured goes through the gate at once. -/
theorem reaches_looked (deadline : Nat) (reading : Nat → Reading) (hreporter : t.reporter.Waits)
    (hclock : t.clock = t.looks * p.performance.pollInterval)
    (hcollector : t.collector = .sleeping t.clock) (hsame : t.state.SameAs s) :
    ∃ state, state.SameAs (p.collect (reading t.looks) s).2 ∧
      p.Reaches deadline reading t { t with
        state := state
        looks := t.looks + 1
        collector := .sleeping ((t.looks + 1) * p.performance.pollInterval) } := by
  have hgoes := goes_of_waits hreporter
  have hnext : t.clock + p.performance.pollInterval =
      (t.looks + 1) * p.performance.pollInterval := by rw [hclock, Nat.succ_mul]
  have hlook : p.Reaches deadline reading t (p.capture reading t) := by
    refine .move .collect hgoes ?_
    unfold act? collectorAct?
    dsimp only
    rw [hcollector]
    exact Tasks.since?_eq_some.2 ⟨Nat.le_refl _, rfl⟩
  obtain ⟨hclock', hlooks, hprocessor, hresults, hreporter', -, hcases⟩ :=
    p.capture_cases reading hsame
  generalize p.capture reading t = t' at hlook hclock' hlooks hprocessor hresults hreporter' hcases
  obtain ⟨s', clock, looks, collector, q, results, reporter⟩ := t'
  dsimp only at hclock' hlooks hprocessor hresults hreporter' hcases
  subst hclock' hlooks hprocessor hresults hreporter'
  rw [hnext] at hcases
  rcases hcases with ⟨rfl, hsame'⟩ | ⟨item, rfl, hsame'⟩
  · exact ⟨s', hsame', hlook⟩
  · exact ⟨_, hsame', .trans hlook (.move .collect hgoes rfl)⟩

theorem Mirrors.free_or_busy {clock : Nat} {w : Worker} {q : Processor}
    (h : Mirrors clock deadline w q) : w = .waiting ∧ q.Free ∨ w ≠ .waiting := by
  cases h with
  | free hq => exact .inl ⟨rfl, hq⟩
  | handling => exact .inr Worker.noConfusion
  | pausing => exact .inr Worker.noConfusion
  | analysing => exact .inr Worker.noConfusion
  | cutOff => exact .inr Worker.noConfusion
  | breaking => exact .inr Worker.noConfusion

/-- `poll` is a look of the collector, and what a worker takes then that has nothing in hand. -/
theorem Agrees.poll (reading : Nat → Reading) (hpoll : 0 < p.performance.pollInterval)
    (h : Agrees p deadline r t) (hnow : t.looks * p.performance.pollInterval < deadline)
    (hclock : t.clock ≤ t.looks * p.performance.pollInterval)
    (hstuck : p.workerStep deadline (t.looks * p.performance.pollInterval) true r = none)
    (hgoes : brokeBy (t.looks * p.performance.pollInterval) r = false) :
    ∃ t', p.Reaches deadline reading t t' ∧
      Agrees p deadline (p.poll (t.looks * p.performance.pollInterval) (reading t.looks) r) t' ∧
      t'.clock = t.looks * p.performance.pollInterval ∧ t'.looks = t.looks + 1 := by
  generalize hlook : t.looks * p.performance.pollInterval = now at hnow hclock hstuck hgoes ⊢
  have hdue : isDue t.clock now true = true :=
    isDue_iff.2 ((Nat.lt_or_eq_of_le hclock).imp_right fun h => ⟨h, rfl⟩)
  obtain ⟨hdozes, hmirrors⟩ := h.dozes hstuck hdue fun _ hr => le_of_not_brokeBy hgoes hr
  have hcollector : t.collector = .sleeping now := hlook ▸ h.collector
  have hsleeps : Sleeps deadline now t := ⟨h.results, h.reporter,
    ⟨now, hcollector, Nat.le_refl _⟩, Nat.le_of_lt hnow, hclock, hdozes, .inl hcollector⟩
  obtain ⟨q, rep, hstill, hrep, hslept⟩ := hsleeps.reaches reading hpoll
  obtain ⟨s', hsame, hlooked⟩ := reaches_looked (p := p) deadline reading
    (t := { t with clock := now, processor := q, reporter := rep })
    hrep hlook.symm hcollector h.same
  have hreaches := hslept.trans hlooked
  have hsettled : Settled p deadline ⟨s', now, t.looks + 1,
      .sleeping ((t.looks + 1) * p.performance.pollInterval), q, t.results, rep⟩ :=
    ⟨h.results, hrep, rfl, hnow⟩
  have hworker := hmirrors q hstill
  unfold Pipeline.poll
  rcases hworker.free_or_busy with ⟨hwaiting, hfree⟩ | hbusy
  · obtain ⟨t', hfetched, hagrees, hclock', hlooks'⟩ := reaches_fetched reading hsettled hfree hsame
    refine ⟨t', hreaches.trans hfetched, ?_, hclock', hlooks'⟩
    unfold wake
    rw [hwaiting]
    exact hagrees
  · rw [wake_of_busy hbusy]
    exact ⟨_, hreaches, ⟨hsettled, hsame, hworker, fun hw => absurd hw hbusy⟩, rfl, rfl⟩

/-- The collector of the run makes no more looks before its end: the next one comes no earlier than
`deadline`, or than the time at which the worker breaks down. -/
def Spent (p : Pipeline) (deadline : Nat) (r : RunState) (t : Tasks) : Prop :=
  deadline ≤ t.looks * p.performance.pollInterval ∨
    ∃ time, r.worker = .broken time ∧ time ≤ t.looks * p.performance.pollInterval

/-- `polls` makes `n` looks, unless the worker breaks down before. -/
theorem Agrees.polls (reading : Nat → Reading) (hpoll : 0 < p.performance.pollInterval)
    (h : Agrees p deadline r t) (hclock : t.clock ≤ t.looks * p.performance.pollInterval) {n : Nat}
    (hcount : t.looks + n = p.pollCount deadline) :
    ∃ t', p.Reaches deadline reading t t' ∧
      Agrees p deadline (p.polls deadline reading n t.looks r) t' ∧
      Spent p deadline (p.polls deadline reading n t.looks r) t' := by
  induction n generalizing r t with
  | zero =>
    refine ⟨t, .refl t, h, .inl (Nat.le_of_not_lt fun hlt => ?_)⟩
    exact Nat.lt_irrefl _ (hcount ▸ (lt_pollCount_iff hpoll deadline t.looks).2 hlt)
  | succ n ih =>
    have hnow : t.looks * p.performance.pollInterval < deadline :=
      (lt_pollCount_iff hpoll _ _).1 (by omega)
    obtain ⟨t₁, hworks, hagrees, hclock₁, hlooks₁⟩ := h.workUntil reading hpoll true hclock
      (Nat.le_refl _) fun now hdue => Nat.lt_of_le_of_lt (le_of_isDue hdue) hnow
    have hstuck := p.workerStep_workUntil deadline (t.looks * p.performance.pollInterval) true r
    rw [Pipeline.polls]
    rw [← hlooks₁] at hclock₁ hstuck hagrees hnow hcount ⊢
    split
    · next hbroke => exact ⟨t₁, hworks, hagrees, .inr (broken_of_brokeBy hbroke)⟩
    · next hgoes =>
      obtain ⟨t₂, hpolled, hagrees₂, hclock₂, hlooks₂⟩ := hagrees.poll reading hpoll hnow hclock₁
        hstuck (Bool.eq_false_iff.2 hgoes)
      have hlater : t₂.clock ≤ t₂.looks * p.performance.pollInterval := by
        rw [hclock₂, hlooks₂, Nat.succ_mul]
        exact Nat.le_add_right _ _
      obtain ⟨t', hrest, hagrees', hspent⟩ := ih hagrees₂ hlater (by omega)
      rw [hlooks₂] at hagrees' hspent
      exact ⟨t', hworks.trans (hpolled.trans hrest), hagrees', hspent⟩

/-! ## The end -/

/-- What the worker does between the last look and the end of the run. -/
theorem Agrees.last (reading : Nat → Reading) (hpoll : 0 < p.performance.pollInterval)
    (h : Agrees p deadline r t) (hspent : Spent p deadline r t) :
    ∃ t', p.Reaches deadline reading t t' ∧
      Agrees p deadline (p.workUntil deadline deadline false r) t' ∧
      Spent p deadline (p.workUntil deadline deadline false r) t' := by
  rcases hspent with hafter | ⟨time, hr, htime⟩
  · obtain ⟨t', hworked, hagrees, -, hlooks⟩ := h.workUntil reading hpoll false
      (Nat.le_of_lt h.before) hafter
      fun now hdue => (isDue_iff.1 hdue).elim id fun h => absurd h.2 Bool.false_ne_true
    exact ⟨t', hworked, hagrees, .inl (hlooks ▸ hafter)⟩
  · rw [workUntil_of_broken hr]
    exact ⟨t, .refl t, h, .inr ⟨time, hr, htime⟩⟩

theorem Mirrors.of_broken {clock time : Nat} {q : Processor}
    (h : Mirrors clock deadline (.broken time) q) :
    clock ≤ time ∧ time < deadline ∧ q = .breaking time := by
  cases h with
  | breaking hle hlt => exact ⟨hle, hlt, rfl⟩

/-- Where the worker breaks down at `time`, the reporter closes then. -/
theorem Agrees.closes (reading : Nat → Reading) (hpoll : 0 < p.performance.pollInterval)
    (h : Agrees p deadline r t) (hspent : Spent p deadline r t) {time : Nat}
    (hr : r.worker = .broken time) :
    ∃ t', p.Reaches deadline reading t t' ∧ t'.ended = true ∧ t'.state.SameAs r.state ∧
      t'.clock = time := by
  obtain ⟨hle, hlt, hq⟩ := (hr ▸ h.worker).of_broken
  have hnext : time ≤ t.looks * p.performance.pollInterval := by
    rcases hspent with hafter | ⟨time', hr', htime⟩
    · exact Nat.le_trans (Nat.le_of_lt hlt) hafter
    · cases hr.symm.trans hr'
      exact htime
  obtain ⟨rep, ⟨due, rfl⟩, hslept⟩ := h.at_timer reading hpoll hq (fun hfree => by cases hfree)
    rfl hle hlt hnext
  rw [h.results] at hslept
  have hgone := hslept.trans (.move .work rfl (Tasks.since?_eq_some.2 ⟨Nat.le_refl _, rfl⟩))
  exact ⟨_, hgone.trans (.move .close rfl rfl), rfl, h.same, rfl⟩

/-- Where the worker does not break down, the reporter stops at the deadline. -/
theorem Agrees.stops (reading : Nat → Reading) (hpoll : 0 < p.performance.pollInterval)
    (h : Agrees p deadline r t) (hstuck : p.workerStep deadline deadline false r = none)
    (hspent : Spent p deadline r t) (hr : ∀ time, r.worker ≠ .broken time) :
    ∃ t', p.Reaches deadline reading t t' ∧ t'.ended = true ∧ t'.state.SameAs r.state ∧
      t'.clock = deadline := by
  obtain ⟨hdozes, -⟩ := h.dozes hstuck (isDue_iff.2 (.inl h.before))
    fun time hbroken => absurd hbroken (hr time)
  have hnext : deadline ≤ t.looks * p.performance.pollInterval :=
    hspent.resolve_right fun ⟨time, hbroken, _⟩ => hr time hbroken
  have hsleeps : Sleeps deadline deadline t := ⟨h.results, h.reporter, ⟨_, h.collector, hnext⟩,
    Nat.le_refl _, Nat.le_of_lt h.before, hdozes, .inr (.inl rfl)⟩
  obtain ⟨q, rep, -, ⟨due, rfl⟩, hslept⟩ := hsleeps.reaches reading hpoll
  exact ⟨_, hslept.trans (.move .stop rfl (Tasks.since?_eq_some.2 ⟨Nat.le_refl _, rfl⟩)), rfl,
    h.same, rfl⟩

/-- At the start the worker takes a batch as the run does. -/
theorem reaches_start (hpoll : 0 < p.performance.pollInterval) (reading : Nat → Reading)
    (s : PipelineState) (hlate : 0 < deadline) :
    ∃ t, p.Reaches deadline reading (p.tasks s) t ∧ Agrees p deadline (p.fetch 0 s) t ∧
      t.clock = 0 ∧ t.looks = 0 := by
  have hcollector : (p.tasks s).collector =
      .sleeping ((p.tasks s).looks * p.performance.pollInterval) := by
    unfold tasks
    rw [if_neg (Nat.pos_iff_ne_zero.1 hpoll), Nat.zero_mul]
  exact reaches_fetched reading ⟨rfl, ⟨_, rfl⟩, hcollector, hlate⟩ .handling (.refl s)

/-- **The run of `runUntil` is one of the runs of `tasks`,** whatever the client does: the worker
goes first where several loops can move, and what it sends is received and reported at once. -/
theorem runUntil_reached (hpoll : 0 < p.performance.pollInterval) (duration : Nat)
    (reading : Nat → Reading) (s : PipelineState) :
    ∃ t, p.Reaches duration reading (p.tasks s) t ∧ t.ended = true ∧
      t.clock = (p.runUntil duration reading s).time ∧
      t.state.SameAs (p.runUntil duration reading s).state := by
  unfold runUntil
  split
  · next hzero => exact ⟨_, .move .stop rfl (Tasks.since?_eq_some.2 ⟨Nat.le_of_eq hzero, rfl⟩),
      rfl, rfl, .refl s⟩
  · next hzero =>
    obtain ⟨t₀, hfetched, hagrees₀, hclock₀, hlooks₀⟩ := reaches_start hpoll reading s
      (Nat.pos_of_ne_zero hzero)
    obtain ⟨t₁, hpolled, hagrees₁, hspent₁⟩ := hagrees₀.polls reading hpoll
      (n := p.pollCount duration) (hclock₀ ▸ Nat.zero_le _)
      (by rw [hlooks₀]; exact Nat.zero_add _)
    rw [hlooks₀] at hagrees₁ hspent₁
    dsimp only
    generalize p.polls duration reading (p.pollCount duration) 0 (p.fetch 0 s) = r
      at hagrees₁ hspent₁ ⊢
    obtain ⟨t₂, hworked, hagrees₂, hspent₂⟩ := hagrees₁.last reading hpoll hspent₁
    have hreaches := hfetched.trans (hpolled.trans hworked)
    have hstuck := p.workerStep_workUntil duration duration false r
    generalize p.workUntil duration duration false r = r' at hagrees₂ hspent₂ hstuck ⊢
    have hstate : ∀ {s : PipelineState}, s.SameAs r'.state → s.SameAs
        { r'.state with session := { r'.state.session with deadline := none } } :=
      fun h => h.trans ⟨_, r'.state.session.deadline, rfl⟩
    split
    · next time hr =>
      obtain ⟨t, hends, hended, hsame, hclock⟩ := hagrees₂.closes reading hpoll hspent₂ hr
      exact ⟨t, hreaches.trans hends, hended, hclock, hstate hsame⟩
    · next hr =>
      obtain ⟨t, hends, hended, hsame, hclock⟩ := hagrees₂.stops reading hpoll hstuck hspent₂ hr
      exact ⟨t, hreaches.trans hends, hended, hclock, hstate hsame⟩

/-- `tasks_rounds` for the run of `runUntil`. -/
theorem runUntil_rounds (hc : p.client.Opens) {text : Text}
    (hassets : Utf8.decode? p.source.assets.bytes = some text)
    (hpoll : 0 < p.performance.pollInterval) (hs : Ready p s.files) (hempty : s.queue.items = [])
    (reading : Nat → Reading) {duration : Nat}
    (hnot : ¬ p.performance.pollInterval ∣ duration) :
    let ended := p.runUntil duration reading s
    let stepped := p.rounds reading s (duration / p.performance.pollInterval + 1)
    ended.time = duration ∧ ended.state.queue.items = [] ∧ ended.state.files = stepped.files ∧
      ended.state.gate = stepped.gate ∧ ended.state.tracker = stepped.tracker ∧
      ended.state.stamped = stepped.stamped ∧
      ended.state.session.sent = stepped.session.sent := by
  obtain ⟨t, hreaches, hended, hclock, hsame⟩ := runUntil_reached hpoll duration reading s
  have hends := (tasks_rounds hc hassets hpoll hs hempty reading hnot).of_reaches
    (fun t h => h.ended) hreaches hended
  obtain ⟨clock, deadline, hstate⟩ := hsame.symm
  refine ⟨hclock.symm.trans hends.clock, ?_⟩
  rw [hstate]
  exact ⟨hends.queue, hends.files, hends.gate, hends.tracker, hends.stamped, hends.sent⟩

end Pipeline
end ClipLedger
