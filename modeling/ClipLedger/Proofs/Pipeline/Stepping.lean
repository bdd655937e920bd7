import ClipLedger.Proofs.Pipeline.Rounds
import ClipLedger.Proofs.Pipeline.Tasks

/-
  Running equals stepping, for one worker and whatever the order in which the loops move.

  Between two looks at the clipboard at most one item is under way: queued, in the hands of the
  worker (`InHand`), a result in the channel, or with the reporter (`Underway`). `InHand.step` and
  `Underway.step` say that every step that is not another wait brings it further, and `Quiet.step`
  that without one the loops only wait again, until the next look or the deadline. No time goes by
  while an item is under way, so that it is done before either comes. `OnTrack` is the invariant
  of a whole run: after `k` looks the run rests in the state of `k` rounds, or is on its way
  there.

  Proved: `tasks_rounds`, that every run of `Pipeline.tasks` ends, at its deadline, with nothing
  queued and no result in the channel, and with what `rounds` makes of the files, the gate, the
  tracker and the conversation. Assumed: a client that `Opens` every stream at once, a dataset
  that is `Ready`, a path of the images that is a text, an empty queue, and a deadline that is
  that of no look. A deadline that is one is left out because the look may come before it or not.
-/
namespace ClipLedger

/-- The worker has nothing in hand: it pops, or is about to. -/
inductive Processor.Free : Processor → Prop
  | popping (due : Nat) : Free (.popping due)
  | handling : Free (.handling [])

theorem Processor.Free.ne_gone {q : Processor} (hq : q.Free) : q ≠ .gone := by
  cases hq <;> exact Processor.noConfusion

/-- The reporter waits for a result. -/
def Reporter.Waits (r : Reporter) : Prop := ∃ due, r = .receiving due

theorem Reporter.Waits.ne_reporting {r : Reporter} (h : r.Waits) (done : Processed) :
    r ≠ .reporting done := by
  obtain ⟨due, rfl⟩ := h
  exact Reporter.noConfusion

namespace Pipeline
variable {p : Pipeline} {deadline : Nat} {reading : Nat → Reading} {t t' : Tasks}
  {s u x : PipelineState} {item : Item}

/-! ## An item under way -/

/-- How far an item has come that the worker is to process: `s` and `q` are the state and the
worker at the time `clock`, and what is left of the item leads to `u`. -/
inductive InHand (p : Pipeline) (clock : Nat) (u s : PipelineState) : Processor → Prop
  | queued {q : Processor} {item : Item} (hq : q.Free) (hone : s.queue.items = [item])
      (hitem : Storable item) (hready : Ready p s.files)
      (hu : (p.handle s.drained item).SameAs u) :
      InHand p clock u s q
  | gathered {item : Item} (hnone : s.queue.items = []) (hitem : Storable item)
      (hready : Ready p s.files) (hu : (p.handle s item).SameAs u) :
      InHand p clock u s (.gathering [item])
  | taken {item : Item} (hnone : s.queue.items = []) (hitem : Storable item)
      (hready : Ready p s.files) (hu : (p.handle s item).SameAs u) :
      InHand p clock u s (.handling [item])
  | analysed {item : Item} {a : Analysis Float} {due : Nat} (hnone : s.queue.items = [])
      (hdue : due ≤ clock) (hu : Finishes p item a s u) :
      InHand p clock u s (.analysing due item a [])
  | storing {item : Item} {r : Record Float} (hnone : s.queue.items = [])
      (hok : (p.store item r s).1 = .ok ())
      (hu : (p.report item (p.store item r s).2).2.SameAs u) :
      InHand p clock u s (.storing item r [])
  | sending {done : Processed} (hnone : s.queue.items = [])
      (hu : (p.report done.item s).2.SameAs u) : InHand p clock u s (.sending done [])

/-- The worker takes the item that is queued, or pops again. -/
theorem InHand.step_queued (hq : t.processor.Free) (hone : t.state.queue.items = [item])
    (hitem : Storable item) (hready : Ready p t.state.files)
    (hu : (p.handle t.state.drained item).SameAs u)
    (h : p.processorAct? deadline t = some t' ∨ giveUp? t = some t') :
    ∃ s q, t' = { t with state := s, processor := q } ∧ InHand p t.clock u s q := by
  obtain ⟨s, clock, looks, collector, q, results, reporter⟩ := t
  cases hq with
  | popping due =>
    rcases h with h | h
    · unfold processorAct? WorkQueue.take at h
      dsimp only at h hone
      rw [hone] at h
      cases h
      exact ⟨_, _, rfl, .gathered rfl hitem hready hu⟩
    · obtain ⟨-, -, -, rfl⟩ := giveUp?_eq_some h
      exact ⟨_, _, rfl, .queued .handling hone hitem hready hu⟩
  | handling =>
    rcases h with h | h
    · cases h
      exact ⟨_, _, rfl, .queued (.popping _) hone hitem hready hu⟩
    · cases h

/-- The analysis that the worker starts is over at once, and what is left then leads to `u`. -/
theorem startOn_inHand (hc : p.client.Opens) (hnone : t.state.queue.items = [])
    (hitem : Storable item) (hready : Ready p t.state.files)
    (hu : (p.handle t.state item).SameAs u) (deadline : Nat) :
    ∃ s q, p.startOn deadline item [] t = { t with state := s, processor := q } ∧
      InHand p t.clock u s q := by
  obtain ⟨a, x, ha, hclock, -, hqueue, hfinish⟩ :=
    analyse_finishes hc hitem hready t.clock (some deadline)
  unfold PipelineState.timed at ha
  unfold startOn
  dsimp only
  rw [ha]
  exact ⟨_, _, rfl, .analysed ((congrArg WorkQueue.items hqueue).trans hnone)
    (Nat.le_of_eq hclock) (hfinish.of_sameAs (.refl _) hu)⟩

/-- At the end of the analysis `a` the record is to be stored, or nothing is left to do. -/
theorem takeOver_inHand {a : Analysis Float} (hnone : t.state.queue.items = [])
    (hu : Finishes p item a t.state u) :
    (∃ s q, p.takeOver item a [] t = { t with state := s, processor := q } ∧
      InHand p t.clock u s q) ∨
    ∃ s, p.takeOver item a [] t = { t with state := s, processor := .handling [] } ∧
      s.queue.items = [] ∧ s.SameAs u := by
  have hqueue := (congrArg WorkQueue.items (p.queue_observe a t.state)).trans hnone
  unfold takeOver
  cases hu with
  | empty hr hu =>
    refine .inr ⟨p.observe a t.state, ?_, hqueue, hu⟩
    rw [if_pos hr]
  | stored hr hok hu =>
    refine .inl ⟨p.observe a t.state, .storing item a.record [], ?_, .storing hqueue hok hu⟩
    rw [if_neg (Bool.eq_false_iff.1 hr)]

/-- A step of the worker brings the item to the next stage, or sends it, or it is done. -/
theorem InHand.step (hc : p.client.Opens) (hhand : InHand p t.clock u t.state t.processor)
    (h : p.processorAct? deadline t = some t' ∨ giveUp? t = some t') :
    (∃ s q, t' = { t with state := s, processor := q } ∧ InHand p t.clock u s q) ∨
    (∃ s, t' = { t with state := s, processor := .handling [] } ∧ s.queue.items = [] ∧
      s.SameAs u) ∨
    ∃ done, t' = { t with results := t.results ++ [done], processor := .handling [] } ∧
      t.state.queue.items = [] ∧ (p.report done.item t.state).2.SameAs u := by
  obtain ⟨s, clock, looks, collector, q, results, reporter⟩ := t
  cases hhand with
  | queued hq hone hitem hready hu => exact .inl (step_queued hq hone hitem hready hu h)
  | gathered hnone hitem hready hu =>
    refine .inl ?_
    rcases h with h | h
    · unfold processorAct? WorkQueue.take at h
      dsimp only at h hnone
      rw [hnone] at h
      split at h <;> cases h <;> exact ⟨_, _, rfl, .taken hnone hitem hready hu⟩
    · cases h
  | @taken item hnone hitem hready hu =>
    refine .inl ?_
    rcases h with h | h
    · obtain ⟨s', q, hstart, hhand⟩ := startOn_inHand
        (t := ⟨s, clock, looks, collector, .handling [item], results, reporter⟩) hc hnone hitem
        hready hu deadline
      obtain rfl := Option.some.inj h
      exact ⟨s', q, hstart, hhand⟩
    · cases h
  | @analysed item a due hnone hdue hu =>
    rcases h with h | h
    · obtain ⟨-, rfl⟩ := Tasks.since?_eq_some.1 h
      exact (takeOver_inHand hnone hu).imp_right .inl
    · cases h
  | storing hnone hok hu =>
    refine .inl ?_
    rcases h with h | h
    · unfold processorAct? at h
      dsimp only at h hok
      split at h
      · next s' hstore =>
        cases h
        rw [hstore] at hu
        refine ⟨_, _, rfl, .sending ?_ hu⟩
        exact snd_of_eq hstore hnone
      · next hstore =>
        rw [hstore] at hok
        cases hok
    · cases h
  | sending hnone hu =>
    rcases h with h | h
    · cases h
      exact .inr (.inr ⟨_, rfl, hnone, hu⟩)
    · cases h

/-- A worker with an item in hand can go on. -/
theorem InHand.goes (deadline : Nat) (hhand : InHand p t.clock u t.state t.processor) :
    p.processorAct? deadline t ≠ none ∧ t.processor ≠ .gone := by
  obtain ⟨s, clock, looks, collector, q, results, reporter⟩ := t
  unfold processorAct? WorkQueue.take
  cases hhand with
  | queued hq hone hitem hready hu =>
    cases hq with
    | popping due =>
      dsimp only at hone ⊢
      rw [hone]
      exact ⟨Option.some_ne_none _, Processor.noConfusion⟩
    | handling => exact ⟨Option.some_ne_none _, Processor.noConfusion⟩
  | gathered hnone hitem hready hu =>
    dsimp only at hnone ⊢
    rw [hnone]
    refine ⟨?_, Processor.noConfusion⟩
    split <;> exact Option.some_ne_none _
  | taken hnone hitem hready hu => exact ⟨Option.some_ne_none _, Processor.noConfusion⟩
  | analysed hnone hdue hu =>
    exact ⟨fun h => absurd (Tasks.since?_eq_none.1 h) (Nat.not_lt.2 hdue),
      Processor.noConfusion⟩
  | storing hnone hok hu =>
    refine ⟨?_, Processor.noConfusion⟩
    dsimp only
    split <;> exact Option.some_ne_none _
  | sending hnone hu => exact ⟨Option.some_ne_none _, Processor.noConfusion⟩

/-- A worker with nothing in hand and nothing to take goes on having nothing in hand. -/
theorem free_step (hq : t.processor.Free) (hnone : t.state.queue.items = [])
    (h : p.processorAct? deadline t = some t' ∨ giveUp? t = some t') :
    ∃ q, q.Free ∧ t' = { t with processor := q } := by
  obtain ⟨s, clock, looks, collector, q, results, reporter⟩ := t
  cases hq with
  | popping due =>
    rcases h with h | h
    · unfold processorAct? WorkQueue.take at h
      dsimp only at h hnone
      rw [hnone] at h
      cases h
    · obtain ⟨-, -, -, rfl⟩ := giveUp?_eq_some h
      exact ⟨_, .handling, rfl⟩
  | handling =>
    rcases h with h | h
    · cases h
      exact ⟨_, .popping _, rfl⟩
    · cases h

/-- Nothing is under way. -/
structure Quiet (t : Tasks) : Prop where
  results : t.results = []
  reporter : t.reporter.Waits
  free : t.processor.Free
  empty : t.state.queue.items = []

/-- Nothing is under way, and the state is `u`. -/
structure Rests (u : PipelineState) (t : Tasks) : Prop extends Quiet t where
  same : t.state.SameAs u

/-- An item is under way, and what is left of it leads to `u`. -/
inductive Underway (p : Pipeline) (u : PipelineState) (t : Tasks) : Prop
  | working (hresults : t.results = []) (hreporter : t.reporter.Waits)
      (hhand : InHand p t.clock u t.state t.processor)
  | sent {done : Processed} (hresults : t.results = [done]) (hreporter : t.reporter.Waits)
      (hfree : t.processor.Free) (hempty : t.state.queue.items = [])
      (hu : (p.report done.item t.state).2.SameAs u)
  | reporting {done : Processed} (hresults : t.results = [])
      (hreporter : t.reporter = .reporting done) (hfree : t.processor.Free)
      (hempty : t.state.queue.items = []) (hu : (p.report done.item t.state).2.SameAs u)

/-- The collector goes on sleeping, and it is the same time still. -/
structure Meanwhile (t t' : Tasks) : Prop where
  clock : t'.clock = t.clock
  looks : t'.looks = t.looks
  collector : t'.collector = t.collector

theorem Underway.alive (hu : Underway p u t) : t.processor ≠ .gone := by
  cases hu with
  | working _ _ hhand => exact (hhand.goes 0).2
  | sent _ _ hfree _ _ => exact hfree.ne_gone
  | reporting _ _ hfree _ _ => exact hfree.ne_gone

/-- An item under way never has to wait: the worker can go on, or the reporter. -/
theorem Underway.goes (hu : Underway p u t) (deadline : Nat) (reading : Nat → Reading) :
    ∃ m, p.act? deadline reading t m ≠ none := by
  cases hu with
  | working _ _ hhand => exact ⟨.work, (hhand.goes deadline).1⟩
  | sent hresults hreporter _ _ _ =>
    obtain ⟨due, hr⟩ := hreporter
    refine ⟨.receive, ?_⟩
    unfold act? receive?
    dsimp only
    rw [hr, hresults]
    exact Option.some_ne_none _
  | reporting _ hreporter _ _ _ =>
    refine ⟨.report, ?_⟩
    unfold act? report?
    dsimp only
    rw [hreporter]
    exact Option.some_ne_none _

/-- `InHand.step`, and where nothing is in hand the worker waits again. -/
theorem Underway.work (hc : p.client.Opens) (hu : Underway p u t)
    (h : p.processorAct? deadline t = some t' ∨ giveUp? t = some t') :
    Meanwhile t t' ∧ (Underway p u t' ∨ Rests u t') := by
  cases hu with
  | working hresults hreporter hhand =>
    rcases hhand.step hc h with ⟨s, q, rfl, hhand'⟩ | ⟨s, rfl, hempty, hsame⟩ |
      ⟨done, rfl, hempty, hu⟩
    · exact ⟨⟨rfl, rfl, rfl⟩, .inl (.working hresults hreporter hhand')⟩
    · exact ⟨⟨rfl, rfl, rfl⟩, .inr ⟨⟨hresults, hreporter, .handling, hempty⟩, hsame⟩⟩
    · refine ⟨⟨rfl, rfl, rfl⟩, .inl (.sent ?_ hreporter .handling hempty hu)⟩
      exact congrArg (· ++ [done]) hresults
  | sent hresults hreporter hfree hempty hu =>
    obtain ⟨q, hq, rfl⟩ := free_step hfree hempty h
    exact ⟨⟨rfl, rfl, rfl⟩, .inl (.sent hresults hreporter hq hempty hu)⟩
  | reporting hresults hreporter hfree hempty hu =>
    obtain ⟨q, hq, rfl⟩ := free_step hfree hempty h
    exact ⟨⟨rfl, rfl, rfl⟩, .inl (.reporting hresults hreporter hq hempty hu)⟩

/-- What the reporter receives is the result that was sent. -/
theorem Underway.receive (hu : Underway p u t) (h : receive? t = some t') :
    Meanwhile t t' ∧ Underway p u t' := by
  obtain ⟨due, done, rest, hr, hrest, rfl⟩ := receive?_eq_some h
  refine ⟨⟨rfl, rfl, rfl⟩, ?_⟩
  cases hu with
  | working hresults _ _ => rw [hresults] at hrest; cases hrest
  | sent hresults _ hfree hempty hu =>
    rw [hresults] at hrest
    cases hrest
    exact .reporting rfl rfl hfree hempty hu
  | reporting hresults _ _ _ _ => rw [hresults] at hrest; cases hrest

/-- What the reporter reports is the end of the item. -/
theorem Underway.report (hu : Underway p u t) (h : p.report? t = some t') :
    Meanwhile t t' ∧ Rests u t' := by
  obtain ⟨done, hr, rfl⟩ := report?_eq_some h
  refine ⟨⟨rfl, rfl, rfl⟩, ?_⟩
  cases hu with
  | working _ hreporter _ => exact absurd hr (hreporter.ne_reporting done)
  | sent _ hreporter _ _ _ => exact absurd hr (hreporter.ne_reporting done)
  | reporting hresults hreporter hfree hempty hu =>
    rw [hreporter] at hr
    cases hr
    exact ⟨⟨hresults, ⟨_, rfl⟩, hfree, hempty⟩, hu⟩

theorem Underway.lapse (hu : Underway p u t) (h : lapse? t = some t') :
    Meanwhile t t' ∧ Underway p u t' := by
  obtain ⟨due, hr, -, rfl⟩ := lapse?_eq_some h
  refine ⟨⟨rfl, rfl, rfl⟩, ?_⟩
  cases hu with
  | working hresults _ hhand => exact .working hresults ⟨_, rfl⟩ hhand
  | sent hresults _ hfree hempty hu => exact .sent hresults ⟨_, rfl⟩ hfree hempty hu
  | @reporting done _ hreporter _ _ _ =>
    exact absurd hreporter (Reporter.Waits.ne_reporting ⟨due, hr⟩ done)

/-- While an item is under way, before `next` and `deadline`, every step that is not just another
wait brings it further. -/
theorem Underway.step (hc : p.client.Opens) (hu : Underway p u t) {next : Nat}
    (hcollector : t.collector = .sleeping next) (hnext : t.clock < next)
    (hlate : t.clock < deadline) (h : p.Step deadline reading t t') :
    Meanwhile t t' ∧ (Underway p u t' ∨ Rests u t') := by
  have hasleep : p.collectorAct? reading t = none := by
    unfold collectorAct?
    rw [hcollector]
    exact Tasks.since?_eq_none.2 hnext
  cases h with
  | pass hgoes h =>
    obtain ⟨m, hm⟩ := hu.goes deadline reading
    exact absurd (h m) hm
  | move m hgoes h =>
    cases m with
    | collect => exact absurd (hasleep.symm.trans h) (Option.some_ne_none t').symm
    | work => exact hu.work hc (.inl h)
    | giveUp =>
      have hgiveUp : p.processorAct? deadline t = some t' ∨ giveUp? t = some t' := .inr h
      exact hu.work hc hgiveUp
    | receive => exact (hu.receive h).imp_right .inl
    | report => exact (hu.report h).imp_right .inr
    | lapse => exact (hu.lapse h).imp_right .inl
    | stop =>
      obtain ⟨due, -, hdue, -⟩ := stop?_eq_some h
      exact absurd hlate (Nat.not_lt.2 hdue)
    | close =>
      obtain ⟨due, -, hgone, -⟩ := close?_eq_some h
      exact absurd hgone hu.alive

/-- Where nothing is under way, only the collector can bring something about, and the deadline:
the others wait again. -/
theorem Quiet.step (hq : Quiet t) {m : LoopMove} (h : p.act? deadline reading t m = some t') :
    p.collectorAct? reading t = some t' ∨
    (deadline ≤ t.clock ∧ t' = { t with reporter := .ended }) ∨
    ∃ q r, t' = { t with processor := q, reporter := r } ∧ q.Free ∧ r.Waits := by
  obtain ⟨due, hdue⟩ := hq.reporter
  have hworker : p.processorAct? deadline t = some t' ∨ giveUp? t = some t' →
      ∃ q r, t' = { t with processor := q, reporter := r } ∧ q.Free ∧ r.Waits := by
    intro h
    obtain ⟨q, hq', rfl⟩ := free_step hq.free hq.empty h
    exact ⟨q, t.reporter, rfl, hq', hq.reporter⟩
  cases m with
  | collect => exact .inl h
  | work => exact .inr (.inr (hworker (.inl h)))
  | giveUp => exact .inr (.inr (hworker (.inr h)))
  | receive =>
    obtain ⟨-, done, rest, -, hresults, -⟩ := receive?_eq_some h
    rw [hq.results] at hresults
    cases hresults
  | report =>
    obtain ⟨done, hr, -⟩ := report?_eq_some h
    rw [hdue] at hr
    cases hr
  | lapse =>
    obtain ⟨-, -, -, rfl⟩ := lapse?_eq_some h
    exact .inr (.inr ⟨_, _, rfl, hq.free, _, rfl⟩)
  | stop =>
    obtain ⟨-, -, hlate, rfl⟩ := stop?_eq_some h
    exact .inr (.inl ⟨hlate, rfl⟩)
  | close =>
    obtain ⟨-, -, hgone, -⟩ := close?_eq_some h
    exact absurd hgone hq.free.ne_gone

theorem Quiet.waits (h : Quiet t) {q : Processor} {r : Reporter} (hq : q.Free) (hr : r.Waits) :
    Quiet { t with processor := q, reporter := r } :=
  ⟨h.results, hr, hq, h.empty⟩

/-! ## A look at the clipboard -/

/-- After a look the rest of the round is under way, or done. -/
theorem looked (hc : p.client.Opens) {text : Text}
    (hassets : Utf8.decode? p.source.assets.bytes = some text) (hs : Idle p s) (reading : Reading)
    (hresults : t.results = []) (hreporter : t.reporter.Waits) (hfree : t.processor.Free)
    (hsame : t.state.SameAs (p.collect reading s).2) :
    Underway p (p.round reading s) t ∨ Rests (p.round reading s) t := by
  have hqueue := congrArg WorkQueue.items hsame.queue
  rcases round_cases hassets hs reading with ⟨hempty, -, hround⟩ |
    ⟨item, hone, hitem, hready, hround⟩
  · rw [hround]
    exact .inr ⟨⟨hresults, hreporter, hfree, hqueue.trans hempty⟩, hsame⟩
  · rw [hround]
    exact .inl (.working hresults hreporter (.queued hfree (hqueue.trans hone) hitem
      (hsame.files ▸ hready) (handle_sameAs hc hitem hready hsame.drained)))

theorem enqueue_sameAs (h : s.SameAs x) (item : Item) :
    (enqueue item s).2.SameAs (enqueue item x).2 := by
  obtain ⟨clock, deadline, rfl⟩ := h
  unfold enqueue PipelineState.timed
  dsimp only
  rcases x.gate.check item with ⟨verdict, gate⟩
  cases verdict with
  | skip reason => exact ⟨clock, deadline, rfl⟩
  | accept =>
    dsimp only
    rcases x.queue.push item with ⟨pushed, queue⟩
    cases pushed <;> exact ⟨clock, deadline, rfl⟩

/-- A look, but for the item that the gate has not seen yet: the collector sleeps until `next` or
holds the item, and then the state is that after `collect`. -/
theorem capture_cases (p : Pipeline) (reading : Nat → Reading) {v : PipelineState}
    (hv : t.state.SameAs v) :
    let t' := p.capture reading t
    let s' := (p.collect (reading t.looks) v).2
    let next := t.clock + p.performance.pollInterval
    t'.clock = t.clock ∧ t'.looks = t.looks + 1 ∧ t'.processor = t.processor ∧
      t'.results = t.results ∧ t'.reporter = t.reporter ∧ t'.state.queue = t.state.queue ∧
      (t'.collector = .sleeping next ∧ t'.state.SameAs s' ∨
        ∃ item, t'.collector = .captured next item ∧ (enqueue item t'.state).2.SameAs s') := by
  have hfiles : ∀ files, PipelineState.SameAs { t.state with files := files }
      { v with files := files } := by
    obtain ⟨clock, deadline, hstate⟩ := hv
    exact fun files => ⟨clock, deadline, by rw [hstate]; rfl⟩
  unfold capture collect
  rw [hv.files]
  rcases p.source.capture v.files (reading t.looks) with ⟨result, files⟩
  refine ⟨rfl, rfl, rfl, rfl, rfl, rfl, ?_⟩
  cases result with
  | error e => exact .inl ⟨rfl, hfiles files⟩
  | ok item? =>
    cases item? with
    | none => exact .inl ⟨rfl, hfiles files⟩
    | some item => exact .inr ⟨item, rfl, enqueue_sameAs (hfiles files) item⟩

/-- The run after some looks: resting until the next one, with an item that was captured, with an
item under way, or ended. -/
inductive OnTrack (p : Pipeline) (deadline : Nat) (reading : Nat → Reading) (s : PipelineState)
    (t : Tasks) : Prop
  | resting (hcollector : t.collector = .sleeping (t.looks * p.performance.pollInterval))
      (hfrom : t.looks * p.performance.pollInterval ≤ t.clock + p.performance.pollInterval)
      (hnext : t.clock ≤ t.looks * p.performance.pollInterval) (hlate : t.clock ≤ deadline)
      (hrests : Rests (p.rounds reading s t.looks) t)
  | captured {k : Nat} {item : Item} (hlooks : t.looks = k + 1)
      (hclock : t.clock = k * p.performance.pollInterval)
      (hcollector : t.collector = .captured (t.looks * p.performance.pollInterval) item)
      (hlate : t.clock < deadline) (hquiet : Quiet t)
      (hsame : (enqueue item t.state).2.SameAs (p.collect (reading k) (p.rounds reading s k)).2)
  | underway {k : Nat} (hlooks : t.looks = k + 1)
      (hclock : t.clock = k * p.performance.pollInterval)
      (hcollector : t.collector = .sleeping (t.looks * p.performance.pollInterval))
      (hlate : t.clock < deadline) (hunderway : Underway p (p.rounds reading s t.looks) t)
  | ended (hreporter : t.reporter = .ended) (hclock : t.clock = deadline)
      (hlooks : t.looks = deadline / p.performance.pollInterval + 1) (hresults : t.results = [])
      (hempty : t.state.queue.items = []) (hsame : t.state.SameAs (p.rounds reading s t.looks))

/-- How many looks come before a time that is that of no look. -/
theorem looks_eq {interval looks : Nat} (hlt : deadline < looks * interval)
    (hle : looks * interval ≤ deadline + interval) : looks = deadline / interval + 1 := by
  cases looks with
  | zero =>
    rw [Nat.zero_mul] at hlt
    exact absurd hlt (Nat.not_lt_zero _)
  | succ k =>
    rw [Nat.div_eq_of_lt_le (k := k) ?_ hlt]
    rw [Nat.succ_mul] at hle
    exact Nat.le_of_add_le_add_right hle

theorem OnTrack.of_looked {k : Nat} (hlooks : t.looks = k + 1)
    (hclock : t.clock = k * p.performance.pollInterval)
    (hcollector : t.collector = .sleeping (t.looks * p.performance.pollInterval))
    (hlate : t.clock < deadline)
    (h : Underway p (p.rounds reading s t.looks) t ∨ Rests (p.rounds reading s t.looks) t) :
    OnTrack p deadline reading s t := by
  have hnext : t.looks * p.performance.pollInterval = t.clock + p.performance.pollInterval := by
    rw [hlooks, hclock, Nat.succ_mul]
  rcases h with hunderway | hrests
  · exact .underway hlooks hclock hcollector hlate hunderway
  · exact .resting hcollector (Nat.le_of_eq hnext) (hnext ▸ Nat.le_add_right _ _)
      (Nat.le_of_lt hlate) hrests

/-- The look that is due leads to a run on track. -/
theorem Rests.capture (hc : p.client.Opens) {text : Text}
    (hassets : Utf8.decode? p.source.assets.bytes = some text) (hs : Idle p s)
    (hrests : Rests (p.rounds reading s t.looks) t)
    (hclock : t.clock = t.looks * p.performance.pollInterval) (hlate : t.clock < deadline) :
    OnTrack p deadline reading s (p.capture reading t) := by
  have hidle := rounds_idle hc hassets reading hs t.looks
  have hlater : t.clock + p.performance.pollInterval =
      (t.looks + 1) * p.performance.pollInterval := by rw [hclock, Nat.succ_mul]
  obtain ⟨hclock', hlooks, hfree, hresults, hreporter, hqueue, hcases⟩ :=
    p.capture_cases reading hrests.same
  generalize p.capture reading t = t' at hclock' hlooks hfree hresults hreporter hqueue hcases ⊢
  have hquiet : Quiet t' := ⟨hresults.trans hrests.results, hreporter ▸ hrests.reporter,
    hfree ▸ hrests.free, (congrArg WorkQueue.items hqueue).trans hrests.empty⟩
  rcases hcases with ⟨hsleeping, hsame⟩ | ⟨item, hcaptured, hsame⟩
  · refine .of_looked hlooks (hclock'.trans hclock) (by rw [hsleeping, hlooks, hlater])
      (hclock' ▸ hlate) ?_
    rw [hlooks]
    exact looked hc hassets hidle _ hquiet.results hquiet.reporter hquiet.free hsame
  · exact .captured hlooks (hclock'.trans hclock) (by rw [hcaptured, hlooks, hlater])
      (hclock' ▸ hlate) hquiet hsame

/-- A run that rests looks when the next look is due, ends at the deadline, or waits again. -/
theorem Rests.step (hc : p.client.Opens) {text : Text}
    (hassets : Utf8.decode? p.source.assets.bytes = some text) (hs : Idle p s)
    (hnot : ¬ p.performance.pollInterval ∣ deadline)
    (hrests : Rests (p.rounds reading s t.looks) t)
    (hcollector : t.collector = .sleeping (t.looks * p.performance.pollInterval))
    (hfrom : t.looks * p.performance.pollInterval ≤ t.clock + p.performance.pollInterval)
    (hnext : t.clock ≤ t.looks * p.performance.pollInterval) (hlate : t.clock ≤ deadline)
    (h : p.Step deadline reading t t') : OnTrack p deadline reading s t' := by
  cases h with
  | pass hgoes h =>
    have hlt := lt_alarm hgoes h
    have hdeadline := alarm_le deadline t
    have hsleep : t.alarm deadline ≤ t.looks * p.performance.pollInterval := by
      unfold Tasks.alarm
      rw [hcollector]
      exact Nat.min_le_left _ _
    exact .resting hcollector (by dsimp only; omega) hsleep hdeadline
      ⟨⟨hrests.results, hrests.reporter, hrests.free, hrests.empty⟩, hrests.same⟩
  | move m hgoes h =>
    rcases hrests.toQuiet.step h with hcollect | ⟨hdue, rfl⟩ | ⟨q, r, rfl, hq, hr⟩
    · unfold collectorAct? at hcollect
      rw [hcollector] at hcollect
      obtain ⟨hdue, rfl⟩ := Tasks.since?_eq_some.1 hcollect
      have hclock : t.clock = t.looks * p.performance.pollInterval := Nat.le_antisymm hnext hdue
      have hbefore : t.clock < deadline := by
        refine Nat.lt_of_le_of_ne hlate fun heq => hnot ?_
        rw [← heq, hclock]
        exact Nat.dvd_mul_left _ _
      exact hrests.capture hc hassets hs hclock hbefore
    · have hend : t.clock = deadline := Nat.le_antisymm hlate hdue
      have hbefore : deadline < t.looks * p.performance.pollInterval :=
        Nat.lt_of_le_of_ne (hend ▸ hnext) fun heq => hnot (heq ▸ Nat.dvd_mul_left _ _)
      exact .ended rfl hend (looks_eq hbefore (hend ▸ hfrom)) hrests.results hrests.empty
        hrests.same
    · exact .resting hcollector hfrom hnext hlate ⟨hrests.toQuiet.waits hq hr, hrests.same⟩

/-- What was captured goes through the gate, before or after the others wait again. -/
theorem Quiet.step_captured (hc : p.client.Opens) {text : Text}
    (hassets : Utf8.decode? p.source.assets.bytes = some text) (hs : Idle p s) (hquiet : Quiet t)
    {k : Nat} (hlooks : t.looks = k + 1) (hclock : t.clock = k * p.performance.pollInterval)
    (hcollector : t.collector = .captured (t.looks * p.performance.pollInterval) item)
    (hlate : t.clock < deadline)
    (hsame : (enqueue item t.state).2.SameAs (p.collect (reading k) (p.rounds reading s k)).2)
    (h : p.Step deadline reading t t') : OnTrack p deadline reading s t' := by
  have henqueue : p.collectorAct? reading t = some { t with
      state := (enqueue item t.state).2
      collector := .sleeping (t.looks * p.performance.pollInterval) } := by
    unfold collectorAct?
    rw [hcollector]
  cases h with
  | pass hgoes h => exact absurd (henqueue.symm.trans (h .collect)) (Option.some_ne_none _)
  | move m hgoes h =>
    rcases hquiet.step h with hcollect | ⟨hdue, rfl⟩ | ⟨q, r, rfl, hq, hr⟩
    · obtain rfl := Option.some.inj (henqueue.symm.trans hcollect)
      refine .of_looked hlooks hclock rfl hlate ?_
      dsimp only
      rw [hlooks]
      exact looked hc hassets (rounds_idle hc hassets reading hs k) (reading k) hquiet.results
        hquiet.reporter hquiet.free hsame
    · exact absurd hlate (Nat.not_lt.2 hdue)
    · exact .captured hlooks hclock hcollector hlate (hquiet.waits hq hr) hsame

theorem OnTrack.step (hc : p.client.Opens) {text : Text}
    (hassets : Utf8.decode? p.source.assets.bytes = some text)
    (hpoll : 0 < p.performance.pollInterval) (hs : Idle p s)
    (hnot : ¬ p.performance.pollInterval ∣ deadline) (ht : OnTrack p deadline reading s t)
    (h : p.Step deadline reading t t') : OnTrack p deadline reading s t' := by
  cases ht with
  | resting hcollector hfrom hnext hlate hrests =>
    exact hrests.step hc hassets hs hnot hcollector hfrom hnext hlate h
  | captured hlooks hclock hcollector hlate hquiet hsame =>
    exact hquiet.step_captured hc hassets hs hlooks hclock hcollector hlate hsame h
  | @underway k hlooks hclock hcollector hlate hunderway =>
    have hnext : t.clock < t.looks * p.performance.pollInterval := by
      rw [hlooks, hclock, Nat.succ_mul]
      omega
    obtain ⟨hmeanwhile, hunderway'⟩ := hunderway.step hc hcollector hnext hlate h
    rw [← hmeanwhile.looks] at hunderway' hlooks hcollector
    exact .of_looked hlooks (hmeanwhile.clock.trans hclock) (hmeanwhile.collector.trans hcollector)
      (hmeanwhile.clock ▸ hlate) hunderway'
  | ended hreporter =>
    have hended : t.ended = true := by
      unfold Tasks.ended
      rw [hreporter]
    exact absurd h (not_step_of_ended hended)

theorem onTrack_start (hpoll : 0 < p.performance.pollInterval) (hempty : s.queue.items = [])
    (deadline : Nat) (reading : Nat → Reading) : OnTrack p deadline reading s (p.tasks s) := by
  refine .resting ?_ ?_ ?_ (Nat.zero_le _) ⟨⟨rfl, ⟨_, rfl⟩, .handling, hempty⟩, .refl s⟩
  · unfold tasks
    rw [if_neg (Nat.pos_iff_ne_zero.1 hpoll), Nat.zero_mul]
  · exact Nat.le_trans (Nat.le_of_eq (Nat.zero_mul _)) (Nat.zero_le _)
  · exact Nat.zero_le _

/-- How a run is to end: at `deadline`, after `looks` looks, with nothing queued and no result in
the channel, and with what `stepped` has of the files, the gate, the tracker and the
conversation. -/
structure EndsAs (deadline looks : Nat) (stepped : PipelineState) (t : Tasks) : Prop where
  ended : t.ended = true
  clock : t.clock = deadline
  looks : t.looks = looks
  queue : t.state.queue.items = []
  results : t.results = []
  files : t.state.files = stepped.files
  gate : t.state.gate = stepped.gate
  tracker : t.state.tracker = stepped.tracker
  stamped : t.state.stamped = stepped.stamped
  sent : t.state.session.sent = stepped.session.sent

theorem OnTrack.endsAs (ht : OnTrack p deadline reading s t) (hended : t.ended = true) :
    let looks := deadline / p.performance.pollInterval + 1
    EndsAs deadline looks (p.rounds reading s looks) t := by
  have hreporter : t.reporter = .ended := by
    unfold Tasks.ended at hended
    split at hended
    · next h => exact h
    · cases hended
  have hnot : ¬ t.reporter.Waits := by
    rintro ⟨due, hdue⟩
    rw [hreporter] at hdue
    cases hdue
  cases ht with
  | resting _ _ _ _ hrests => exact absurd hrests.reporter hnot
  | captured _ _ _ _ hquiet => exact absurd hquiet.reporter hnot
  | underway _ _ _ _ hunderway =>
    cases hunderway with
    | working _ hwaits => exact absurd hwaits hnot
    | sent _ hwaits => exact absurd hwaits hnot
    | reporting _ hreporting =>
      rw [hreporter] at hreporting
      cases hreporting
  | ended _ hclock hlooks hresults hempty hsame =>
    rw [hlooks] at hsame
    obtain ⟨clock, deadline, hstate⟩ := hsame
    exact ⟨hended, hclock, hlooks, hempty, hresults, by rw [hstate]; rfl, by rw [hstate]; rfl,
      by rw [hstate]; rfl, by rw [hstate]; rfl, by rw [hstate]; rfl⟩

/-- **Running equals stepping.** Side conditions: the client `Opens` every stream, the files are
`Ready`, nothing is queued at the start, and the run does not end at the moment of a look. Then
every run of `tasks`, whatever the order of its moves, comes to its end at `duration`, and `EndsAs`
one round for each look before that. -/
theorem tasks_rounds (hc : p.client.Opens) {text : Text}
    (hassets : Utf8.decode? p.source.assets.bytes = some text)
    (hpoll : 0 < p.performance.pollInterval) (hs : Ready p s.files) (hempty : s.queue.items = [])
    (reading : Nat → Reading) {duration : Nat}
    (hnot : ¬ p.performance.pollInterval ∣ duration) :
    let looks := duration / p.performance.pollInterval + 1
    Inevitable p duration reading (EndsAs duration looks (p.rounds reading s looks))
      (p.tasks s) :=
  inevitable hpoll (fun _ _ ht h => ht.step hc hassets hpoll ⟨hs, hempty⟩ hnot h)
    (fun _ ht hended => ht.endsAs hended) (onTrack_start hpoll hempty duration reading)

/-- A text, a failure, and the text again. -/
theorem tasks_rounds_three_looks :
    let p : Pipeline :=
      { performance := .default
        source := ⟨.ofString "shots", .ofString "assets"⟩
        analyzer := .ofSettings .default .default
        client := .constant "topic: ships".toList
        modelInfo := ModelSettings.default.info
        dataset := .ofString "data.jsonl"
        log := .ofString "log.txt"
        baseline := .ofString "baseline.json"
        stamp := fun _ => ⟨[], []⟩ }
    let files := FileTree.empty 0
    let reading : Nat → Reading :=
      fun k => if k = 1 then .failed "busy".toList else .text "the quick brown fox".toList
    ∃ s, p.start files = .ok s ∧ p.client.Opens ∧ Ready p files ∧ s.queue.items = [] ∧
      Inevitable p 1200 reading (EndsAs 1200 3 (p.rounds reading s 3)) (p.tasks s) := by
  intro p files reading
  have hdataset : files.aim p.dataset = some [Utf8.encode "data.jsonl".toList] := by
    decide +kernel
  have hready : Ready p files := by
    refine ⟨FileTree.writable_iff.2 ⟨[Utf8.encode "data.jsonl".toList], [], by decide +kernel⟩, ?_⟩
    have hfolders : p.source.assets :: p.source.assets.parents = [.ofString "assets", ⟨[]⟩] := by
      decide +kernel
    intro q hq loc hloc
    rw [hdataset] at hloc
    cases hloc
    rw [hfolders] at hq
    rcases List.mem_cons.1 hq with rfl | hq
    · decide +kernel
    · rw [List.mem_singleton.1 hq]
      decide +kernel
  have hassets : Utf8.decode? p.source.assets.bytes = some "assets".toList := by decide +kernel
  have hopens : p.client.Opens := Client.constant_opens _
  have hnot : ¬ p.performance.pollInterval ∣ 1200 := by decide
  obtain ⟨s, hs⟩ : ∃ s, p.start files = .ok s := ⟨_, rfl⟩
  have hfiles : s.files = files := by
    cases hs
    rfl
  have hqueue : s.queue.items = [] := by
    cases hs
    rfl
  have hlooks : 1200 / p.performance.pollInterval + 1 = 3 := by decide
  have hends := tasks_rounds hopens hassets (by decide) (hfiles ▸ hready) hqueue reading hnot
  rw [hlooks] at hends
  exact ⟨s, hs, hopens, hready, hqueue, hends⟩

end Pipeline
end ClipLedger
