import ClipLedger.Proofs.Pipeline.Effects

/-
  Conservation through the pipeline. One worker takes batches and handles their items one by one,
  while polls, pushes, reports and other changes of the files come in between its steps in any
  order. Whatever is queued is handed to the worker once and in that order, the dataset gets the
  line of every item that was stored and nothing else, and an item that is not stored costs no
  other item anything (`perform_conserves`). Left alone, the worker does rounds of `nextBatch` and
  `processAll` (`perform_round`).
-/
namespace ClipLedger

open FileTree (SameLinks Keeps Apart)

namespace Pipeline

/-! ## Runs -/

/-- What the worker is doing: taking a batch, handling what is left of one, or about to store the
item that it has analysed. It is gone once the client has broken down. -/
inductive Task where
  | taking (batch : List Item)
  | handling (batch : List Item)
  | storing (item : Item) (a : Analysis Float) (batch : List Item)
  | gone

/-- The items that were taken and not handed to the worker yet. -/
def Task.batch : Task → List Item
  | .taking batch => batch
  | .handling batch => batch
  | .storing _ _ batch => batch
  | .gone => []

/-- The item that the worker was handed and is not done with. -/
def Task.current : Task → List Item
  | .storing item _ _ => [item]
  | _ => []

/-- A run under way: the state, and what the worker is doing. -/
structure Stage where
  state : PipelineState
  task : Task

/-- The items that are taken or queued, in the order in which the worker will be handed them. -/
def Stage.waiting (g : Stage) : List Item := g.task.batch ++ g.state.queue.items

/-- What can happen next. -/
inductive Action where
  | poll (reading : Reading)
  | push (item : Item)
  | work
  | report (item : Item)
  | meanwhile (change : FileTree → FileTree)

/-- What is seen: a push was answered with `queued`, an item was handed to the worker, or the call
that processes it ended. -/
inductive Event where
  | queued (item : Item)
  | handed (item : Item)
  | processed (item : Item) (result : Except Trouble (Option Processed))

/-- The next step of the worker, and what is seen of it. -/
def proceed (p : Pipeline) (g : Stage) : Stage × List Event :=
  match g.task with
  | .taking batch =>
    if batch.length < p.batchLimit then
      match g.state.queue.take with
      | (some item, queue) => (⟨{ g.state with queue := queue }, .taking (batch ++ [item])⟩, [])
      | (none, _) => (⟨g.state, .handling batch⟩, [])
    else (⟨g.state, .handling batch⟩, [])
  | .handling [] => (⟨g.state, .taking []⟩, [])
  | .handling (item :: rest) =>
    match p.analyse item g.state with
    | (.ok a, s) => (⟨s, .storing item a rest⟩, [.handed item])
    | (.error (.failure e), s) =>
      (⟨s, .handling rest⟩, [.handed item, .processed item (.error (.failure e))])
    | (.error (.halt h), s) => (⟨s, .gone⟩, [.handed item, .processed item (.error (.halt h))])
  | .storing item a rest =>
    match p.finish item a g.state with
    | (.ok done, s) => (⟨s, .handling rest⟩, [.processed item (.ok done)])
    | (.error e, s) => (⟨s, .handling rest⟩, [.processed item (.error (.failure e))])
  | .gone => (g, [])

/-- What an action does, and what is seen of it. -/
def act (p : Pipeline) (g : Stage) : Action → Stage × List Event
  | .poll reading =>
    match p.collect reading g.state with
    | (.ok .queued, s) => (⟨s, g.task⟩, (p.captured? reading g.state).toList.map .queued)
    | (_, s) => (⟨s, g.task⟩, [])
  | .push item =>
    match g.state.queue.push item with
    | (.queued, queue) => (⟨{ g.state with queue := queue }, g.task⟩, [.queued item])
    | (.dropped, queue) => (⟨{ g.state with queue := queue }, g.task⟩, [])
  | .work => p.proceed g
  | .report item => (⟨(p.report item g.state).2, g.task⟩, [])
  | .meanwhile change => (⟨{ g.state with files := change g.state.files }, g.task⟩, [])

/-- The actions one after the other, and all that is seen. -/
def perform (p : Pipeline) : Stage → List Action → Stage × List Event
  | g, [] => (g, [])
  | g, a :: rest =>
    let (g, es) := p.act g a
    let (g, later) := perform p g rest
    (g, es ++ later)

/-- A change of the files from outside keeps the dataset and the links on the way to it. -/
def Action.Harmless (p : Pipeline) : Action → Prop
  | .meanwhile change => ∀ t, Keeps t (change t) p.dataset
  | _ => True

def Action.isWork : Action → Bool
  | .work => true
  | _ => false

/-- The items whose push was answered with `queued`. -/
def queuedIn (es : List Event) : List Item :=
  es.filterMap fun
    | .queued item => some item
    | _ => none

/-- The items that the worker was handed. -/
def handedIn (es : List Event) : List Item :=
  es.filterMap fun
    | .handed item => some item
    | _ => none

/-- The items that the worker is done with. -/
def endedIn (es : List Event) : List Item :=
  es.filterMap fun
    | .processed item _ => some item
    | _ => none

/-- The items that were stored, each with its record. -/
def storedIn (es : List Event) : List (Item × Record Float) :=
  es.filterMap fun
    | .processed item (.ok (some done)) => some (item, done.record)
    | _ => none

/-! ## What a run preserves -/

/-- `g` is a stage from which the worker can go on. -/
structure Sound (p : Pipeline) (g : Stage) : Prop where
  distinct : Distinct p g.state.files
  untimed : g.state.session.Untimed
  present : g.task ≠ .gone

/-- `lines` are the lines of the items that were stored, in order. -/
def LinesOf (stored : List (Item × Record Float)) (lines : List Bytes) : Prop :=
  List.Forall₂ (fun e line => Dataset.LineOf e.1 e.2 line) stored lines

/-- From `g` to `g'`, while `es` was seen, nothing was lost, nothing was done twice, and nothing
overtook. -/
structure Follows (p : Pipeline) (g : Stage) (es : List Event) (g' : Stage) : Prop where
  sound : Sound p g'
  conserved : g.waiting ++ queuedIn es = handedIn es ++ g'.waiting
  ended : g.task.current ++ handedIn es = endedIn es ++ g'.task.current
  stored : ∃ lines, LinesOf (storedIn es) lines ∧
    g'.state.files.contentOf p.dataset =
      g.state.files.contentOf p.dataset ++ Bytes.ofLines lines

theorem Follows.refl {p : Pipeline} {g : Stage} (h : Sound p g) : Follows p g [] g :=
  ⟨h, List.append_nil _, List.append_nil _, [], .nil, (List.append_nil _).symm⟩

theorem Follows.trans {p : Pipeline} {g₁ g₂ g₃ : Stage} {es fs : List Event}
    (h : Follows p g₁ es g₂) (h' : Follows p g₂ fs g₃) : Follows p g₁ (es ++ fs) g₃ := by
  obtain ⟨lines, hlines, hcontent⟩ := h.stored
  obtain ⟨lines', hlines', hcontent'⟩ := h'.stored
  refine ⟨h'.sound, ?_, ?_, lines ++ lines', ?_, ?_⟩
  · unfold queuedIn handedIn
    rw [List.filterMap_append, List.filterMap_append, ← List.append_assoc]
    have h₁ := h.conserved
    have h₂ := h'.conserved
    unfold queuedIn handedIn at h₁ h₂
    rw [h₁, List.append_assoc, h₂, List.append_assoc]
  · unfold handedIn endedIn
    rw [List.filterMap_append, List.filterMap_append, ← List.append_assoc]
    have h₁ := h.ended
    have h₂ := h'.ended
    unfold handedIn endedIn at h₁ h₂
    rw [h₁, List.append_assoc, h₂, List.append_assoc]
  · unfold storedIn
    rw [List.filterMap_append]
    exact List.rel_append hlines hlines'
  · rw [hcontent', hcontent, List.append_assoc, Bytes.ofLines, Bytes.ofLines, Bytes.ofLines,
      List.flatMap_append]

/-- Where nothing was stored the content of the dataset is as it was. -/
theorem Follows.content {p : Pipeline} {g g' : Stage} {es : List Event} (h : Follows p g es g')
    (hnone : storedIn es = []) :
    g'.state.files.contentOf p.dataset = g.state.files.contentOf p.dataset := by
  obtain ⟨lines, hlines, hcontent⟩ := h.stored
  rw [hnone] at hlines
  cases hlines
  exact hcontent.trans (List.append_nil _)

/-- A step of which nothing is seen: `waiting`, `current` and the content of the dataset stay. -/
theorem Follows.quiet {p : Pipeline} {g g' : Stage} (h : Sound p g)
    (hkeeps : Keeps g.state.files g'.state.files p.dataset)
    (hsession : g'.state.session = g.state.session) (hpresent : g'.task ≠ .gone)
    (hwaiting : g'.waiting = g.waiting) (hcurrent : g'.task.current = g.task.current) :
    Follows p g [] g' := by
  refine ⟨⟨h.distinct.of_sameLinks hkeeps.links, ?_, hpresent⟩, ?_, ?_, [], .nil, ?_⟩
  · rw [hsession]
    exact h.untimed
  · rw [hwaiting]
    exact List.append_nil _
  · rw [hcurrent]
    exact List.append_nil _
  · rw [hkeeps.content]
    exact (List.append_nil _).symm

/-- A change that passes the worker by. -/
theorem Follows.aside {p : Pipeline} {g : Stage} (h : Sound p g) {s : PipelineState}
    (hkeeps : Keeps g.state.files s.files p.dataset) (hqueue : s.queue = g.state.queue)
    (hsession : s.session = g.state.session) : Follows p g [] ⟨s, g.task⟩ := by
  refine .quiet h hkeeps hsession h.present ?_ rfl
  unfold Stage.waiting
  rw [hqueue]

/-! ## Steps of the worker -/

/-- Taking goes on as long as there is room in the batch and an item in the queue. -/
theorem proceed_taking (p : Pipeline) (batch : List Item) (s : PipelineState) :
    (p.batchLimit ≤ batch.length ∨ s.queue.items = []) ∧
      p.proceed ⟨s, .taking batch⟩ = (⟨s, .handling batch⟩, []) ∨
    ∃ item rest, batch.length < p.batchLimit ∧ s.queue.items = item :: rest ∧
      p.proceed ⟨s, .taking batch⟩ =
        (⟨{ s with queue := { s.queue with items := rest } }, .taking (batch ++ [item])⟩, []) := by
  unfold proceed
  dsimp only
  split
  · next hlt =>
    unfold WorkQueue.take
    cases h : s.queue.items with
    | nil => exact .inl ⟨.inr rfl, rfl⟩
    | cons item rest => exact .inr ⟨item, rest, hlt, rfl, rfl⟩
  · next hge => exact .inl ⟨.inl (Nat.le_of_not_lt hge), rfl⟩

/-- An item that the worker is handed is analysed, and is about to be stored. -/
theorem proceed_handling {p : Pipeline} (hc : p.client.Stands) (item : Item) (rest : List Item)
    {s : PipelineState} (hs : s.session.Untimed) :
    ∃ a session, p.analyse item s = (.ok a, { s with session := session }) ∧ session.Untimed ∧
      p.proceed ⟨s, .handling (item :: rest)⟩ =
        (⟨{ s with session := session }, .storing item a rest⟩, [.handed item]) := by
  obtain ⟨a, session, ha, hsession⟩ := analyse_spec hc item hs
  refine ⟨a, session, ha, hsession, ?_⟩
  unfold proceed
  dsimp only
  rw [ha]

/-- Whatever `finish` comes to, the worker goes on with the rest of the batch. -/
theorem proceed_storing (p : Pipeline) (item : Item) (a : Analysis Float) (rest : List Item)
    (s : PipelineState) :
    p.proceed ⟨s, .storing item a rest⟩ = (⟨(p.finish item a s).2, .handling rest⟩,
      [.processed item ((p.finish item a s).1.mapError .failure)]) := by
  unfold proceed
  dsimp only
  cases p.finish item a s with
  | mk result s' => cases result <;> rfl

theorem storedIn_not_stored (item : Item) {result : Except Failure (Option Processed)}
    (h : ∀ done, result ≠ .ok (some done)) :
    storedIn [.processed item (result.mapError .failure)] = [] := by
  cases result with
  | error e => rfl
  | ok done =>
    cases done with
    | none => rfl
    | some done => exact absurd rfl (h done)

/-- The end of a process call adds the line of its item to the dataset, or nothing. -/
theorem storing_follows {p : Pipeline} {item : Item} {a : Analysis Float} {rest : List Item}
    {s : PipelineState} (h : Sound p ⟨s, .storing item a rest⟩) :
    Follows p ⟨s, .storing item a rest⟩
      [.processed item ((p.finish item a s).1.mapError .failure)]
      ⟨(p.finish item a s).2, .handling rest⟩ := by
  have hfinish := finish_spec item a h.distinct
  generalize p.finish item a s = out at hfinish ⊢
  obtain ⟨result, s'⟩ := out
  obtain ⟨hqueue, hsession, hlinks, hstored⟩ := hfinish
  refine ⟨⟨h.distinct.of_sameLinks hlinks, ?_, fun h => (by cases h)⟩, ?_, rfl, ?_⟩
  · rw [hsession]
    exact h.untimed
  · show rest ++ s.queue.items ++ [] = rest ++ s'.queue.items
    rw [hqueue, List.append_nil]
  · rcases hstored with ⟨hnot, hcontent⟩ | ⟨r, line, hr, hline, hcontent⟩
    · rw [storedIn_not_stored item hnot]
      exact ⟨[], .nil, hcontent.trans (List.append_nil _).symm⟩
    · rw [hr]
      refine ⟨[line], .cons hline .nil, ?_⟩
      rw [hcontent, Bytes.ofLines, List.flatMap_singleton]

/-- One step of the worker, by what it is doing. -/
theorem proceed_follows {p : Pipeline} (hc : p.client.Stands) {g : Stage} (h : Sound p g) :
    Follows p g (p.proceed g).2 (p.proceed g).1 := by
  obtain ⟨s, task⟩ := g
  cases task with
  | gone => exact absurd rfl h.present
  | taking batch =>
    rcases proceed_taking p batch s with ⟨-, hwork⟩ | ⟨item, rest, -, hitems, hwork⟩
    · rw [hwork]
      exact .quiet h (.refl _ _) rfl (fun h => (by cases h)) rfl rfl
    · rw [hwork]
      refine .quiet h (.refl _ _) rfl (fun h => (by cases h)) ?_ rfl
      show batch ++ [item] ++ rest = batch ++ s.queue.items
      rw [hitems, List.append_assoc, List.singleton_append]
  | handling batch =>
    cases batch with
    | nil => exact .quiet h (.refl _ _) rfl (fun h => (by cases h)) rfl rfl
    | cons item rest =>
      obtain ⟨a, session, -, hsession, hwork⟩ := proceed_handling hc item rest h.untimed
      rw [hwork]
      exact ⟨⟨h.distinct, hsession, fun h => (by cases h)⟩, List.append_nil _, rfl, [], .nil,
        (List.append_nil _).symm⟩
  | storing item a rest =>
    rw [proceed_storing]
    exact storing_follows h

/-- Every action that is `Harmless` leads to a stage that `Follows`. -/
theorem act_follows {p : Pipeline} (hc : p.client.Stands) {g : Stage} (h : Sound p g)
    {a : Action} (ha : a.Harmless p) : Follows p g (p.act g a).2 (p.act g a).1 := by
  cases a with
  | work => exact proceed_follows hc h
  | report item =>
    obtain ⟨hkeeps, hqueue, hsession⟩ := report_spec item h.distinct
    exact .aside h hkeeps hqueue hsession
  | meanwhile change => exact .aside h (ha g.state.files) rfl rfl
  | push item =>
    unfold act
    dsimp only
    rcases g.state.queue.push_cases item with hpush | hpush
    · rw [hpush]
      refine ⟨⟨h.distinct, h.untimed, h.present⟩, ?_, List.append_nil _, [], .nil,
        (List.append_nil _).symm⟩
      exact List.append_assoc ..
    · rw [hpush]
      exact .aside h (.refl _ _) rfl rfl
  | poll reading =>
    have hcollect := collect_spec h.distinct reading
    unfold act
    dsimp only
    cases hr : p.collect reading g.state with
    | mk result s =>
      rw [hr] at hcollect
      obtain ⟨hkeeps, hsession, hqueue⟩ := hcollect
      rcases hqueue with ⟨rfl, item, hitem, hqueue⟩ | ⟨hnot, hqueue⟩
      · rw [hitem]
        refine ⟨⟨h.distinct.of_sameLinks hkeeps.links, ?_, h.present⟩, ?_, List.append_nil _, [],
          .nil, ?_⟩
        · rw [hsession]
          exact h.untimed
        · show g.task.batch ++ g.state.queue.items ++ [item] = g.task.batch ++ s.queue.items
          rw [hqueue, List.append_assoc]
        · exact hkeeps.content.trans (List.append_nil _).symm
      · cases result with
        | error e => exact .aside h hkeeps hqueue hsession
        | ok c =>
          cases c with
          | queued => exact absurd rfl hnot
          | nothing => exact .aside h hkeeps hqueue hsession
          | skipped reason => exact .aside h hkeeps hqueue hsession
          | dropped => exact .aside h hkeeps hqueue hsession

theorem perform_follows {p : Pipeline} (hc : p.client.Stands) {g : Stage} (h : Sound p g)
    {actions : List Action} (ha : ∀ a ∈ actions, a.Harmless p) :
    Follows p g (p.perform g actions).2 (p.perform g actions).1 := by
  induction actions generalizing g with
  | nil => exact .refl h
  | cons a rest ih =>
    have hfirst := act_follows hc h (ha a List.mem_cons_self)
    have hrest := ih hfirst.sound fun b hb => ha b (List.mem_cons_of_mem a hb)
    exact hfirst.trans hrest

/-! ## The worker goes on -/

/-- The items of the batch behind the one that the worker is at. -/
def Task.later? : Task → Option (List Item)
  | .handling (_ :: rest) => some rest
  | .storing _ _ rest => some rest
  | _ => none

/-- How many steps hand the rest of a batch to the worker. -/
def Task.cost : Task → Nat
  | .handling batch => 2 * batch.length
  | .storing _ _ batch => 2 * batch.length + 1
  | _ => 0

theorem handedIn_append (es fs : List Event) : handedIn (es ++ fs) = handedIn es ++ handedIn fs :=
  List.filterMap_append

/-- No action but a step of the worker changes what the worker is doing. -/
theorem task_of_not_work {p : Pipeline} (g : Stage) {a : Action} (ha : a.isWork = false) :
    (p.act g a).1.task = g.task ∧ handedIn (p.act g a).2 = [] := by
  cases a with
  | work => cases ha
  | report item => exact ⟨rfl, rfl⟩
  | meanwhile change => exact ⟨rfl, rfl⟩
  | push item =>
    unfold act
    dsimp only
    rcases g.state.queue.push_cases item with hpush | hpush
    · rw [hpush]
      exact ⟨rfl, rfl⟩
    · rw [hpush]
      exact ⟨rfl, rfl⟩
  | poll reading =>
    unfold act
    dsimp only
    split
    · cases p.captured? reading g.state <;> exact ⟨rfl, rfl⟩
    · exact ⟨rfl, rfl⟩

/-- At a batch, the worker is handed its next item, or `cost` goes down. -/
theorem proceed_busy {p : Pipeline} (hc : p.client.Stands) {g : Stage} (h : Sound p g)
    (hbusy : ∀ batch, g.task ≠ .taking batch) :
    g.task.batch = [] ∧ g.task.cost = 0 ∨
    (∀ batch, (p.proceed g).1.task ≠ .taking batch) ∧
      g.task.batch = handedIn (p.proceed g).2 ++ (p.proceed g).1.task.batch ∧
      g.task.cost = (p.proceed g).1.task.cost + 1 := by
  obtain ⟨s, task⟩ := g
  cases task with
  | taking batch => exact absurd rfl (hbusy batch)
  | gone => exact .inl ⟨rfl, rfl⟩
  | handling batch =>
    cases batch with
    | nil => exact .inl ⟨rfl, rfl⟩
    | cons item rest =>
      obtain ⟨a, session, -, -, hwork⟩ := proceed_handling hc item rest h.untimed
      rw [hwork]
      exact .inr ⟨fun _ h => (by cases h), rfl, rfl⟩
  | storing item a rest =>
    rw [proceed_storing]
    exact .inr ⟨fun _ h => (by cases h), rfl, rfl⟩

/-- A worker that is at a batch is handed all of it within `cost` steps, whatever comes in between
and whatever becomes of each item. -/
theorem batch_prefix_handed {p : Pipeline} (hc : p.client.Stands) {g : Stage} (h : Sound p g)
    (hbusy : ∀ batch, g.task ≠ .taking batch) {actions : List Action}
    (ha : ∀ a ∈ actions, a.Harmless p) (hcost : g.task.cost ≤ actions.countP Action.isWork) :
    g.task.batch <+: handedIn (p.perform g actions).2 := by
  induction actions generalizing g with
  | nil =>
    rcases proceed_busy hc h hbusy with ⟨hbatch, -⟩ | ⟨-, -, hsteps⟩
    · rw [hbatch]
      exact List.nil_prefix
    · rw [hsteps] at hcost
      exact absurd hcost (Nat.not_succ_le_zero _)
  | cons a rest ih =>
    have hfirst := act_follows hc h (ha a List.mem_cons_self)
    have hlater := fun b hb => ha b (List.mem_cons_of_mem a hb)
    rw [perform, handedIn_append]
    cases hw : a.isWork with
    | false =>
      obtain ⟨htask, hnone⟩ := task_of_not_work (p := p) g hw
      rw [List.countP_cons_of_neg (by rw [hw]; decide), ← htask] at hcost
      have hrest := ih hfirst.sound (fun batch => htask ▸ hbusy batch) hlater hcost
      rw [hnone, ← htask]
      exact hrest
    | true =>
      obtain rfl : a = .work := by
        cases a <;> first | rfl | cases hw
      rw [List.countP_cons_of_pos hw] at hcost
      rcases proceed_busy hc h hbusy with ⟨hbatch, -⟩ | ⟨hbusy', hbatch, hsteps⟩
      · rw [hbatch]
        exact List.nil_prefix
      · rw [hsteps] at hcost
        rw [hbatch]
        exact (List.prefix_append_right_inj _).2
          (ih hfirst.sound hbusy' hlater (Nat.le_of_succ_le_succ hcost))

/-- At an item, the worker does not touch the queue, and leaves the rest of the batch for
later. -/
theorem proceed_later {p : Pipeline} (hc : p.client.Stands) {g : Stage} (h : Sound p g)
    {rest : List Item} (hlater : g.task.later? = some rest) :
    (p.proceed g).1.state.queue = g.state.queue ∧ (p.proceed g).1.task.batch = rest ∧
      (∀ batch, (p.proceed g).1.task ≠ .taking batch) ∧
      (p.proceed g).1.task.cost ≤ 2 * rest.length + 1 := by
  obtain ⟨s, task⟩ := g
  cases task with
  | taking batch => cases hlater
  | gone => cases hlater
  | handling batch =>
    cases batch with
    | nil => cases hlater
    | cons item batch =>
      cases hlater
      obtain ⟨a, session, -, -, hwork⟩ := proceed_handling hc item rest h.untimed
      rw [hwork]
      exact ⟨rfl, rfl, fun _ h => (by cases h), Nat.le_refl _⟩
  | storing item a batch =>
    cases hlater
    rw [proceed_storing]
    exact ⟨(finish_spec item a h.distinct).1, rfl, fun _ h => (by cases h), Nat.le_succ _⟩

/-! ## Rounds -/

theorem perform_cons (p : Pipeline) (g : Stage) (a : Action) (rest : List Action) :
    p.perform g (a :: rest) = ((p.perform (p.act g a).1 rest).1,
      (p.act g a).2 ++ (p.perform (p.act g a).1 rest).2) := rfl

theorem perform_append (p : Pipeline) (g : Stage) (as bs : List Action) :
    p.perform g (as ++ bs) = ((p.perform (p.perform g as).1 bs).1,
      (p.perform g as).2 ++ (p.perform (p.perform g as).1 bs).2) := by
  induction as generalizing g with
  | nil => rfl
  | cons a as ih =>
    rw [List.cons_append, perform_cons, perform_cons, ih, List.append_assoc]

theorem perform_singleton (p : Pipeline) (g : Stage) : p.perform g [.work] = p.proceed g := by
  rw [perform_cons, perform, List.append_nil]
  rfl

/-- Taking one item at a time ends with what `takeMany` takes at once. -/
theorem perform_taking (p : Pipeline) (s : PipelineState) (batch : List Item) (n : Nat)
    (hn : batch.length + n = p.batchLimit) :
    ∃ steps, p.perform ⟨s, .taking batch⟩ (List.replicate steps .work) =
      (⟨{ s with queue := (s.queue.takeMany n).2 },
        .handling (batch ++ (s.queue.takeMany n).1)⟩, []) := by
  induction n generalizing s batch with
  | zero =>
    refine ⟨1, ?_⟩
    rcases proceed_taking p batch s with ⟨-, hwork⟩ | ⟨item, rest, hlt, -, -⟩
    · show p.perform _ [.work] = (Stage.mk s (.handling (batch ++ [])), [])
      rw [perform_singleton, hwork, List.append_nil]
    · omega
  | succ n ih =>
    rcases proceed_taking p batch s with ⟨hend, hwork⟩ | ⟨item, rest, -, hitems, hwork⟩
    · have hitems : s.queue.items = [] := hend.resolve_left (by omega)
      refine ⟨1, ?_⟩
      show p.perform _ [.work] = _
      unfold WorkQueue.takeMany
      rw [perform_singleton, hwork, hitems, List.take_nil, List.drop_nil, List.append_nil, ← hitems]
    · obtain ⟨steps, hsteps⟩ := ih { s with queue := { s.queue with items := rest } }
        (batch ++ [item]) (by rw [List.length_append, List.length_singleton]; omega)
      refine ⟨steps + 1, ?_⟩
      rw [List.replicate_succ, perform_cons,
        show p.act ⟨s, .taking batch⟩ .work = p.proceed ⟨s, .taking batch⟩ from rfl, hwork, hsteps]
      unfold WorkQueue.takeMany
      rw [hitems]
      simp

/-- What is seen of a batch that is processed item by item. -/
def eventsOf (batch : List Item) (results : List (Except Trouble (Option Processed))) :
    List Event :=
  (batch.zip results).flatMap fun e => [.handed e.1, .processed e.1 e.2]

theorem eventsOf_cons (item : Item) (batch : List Item) (result : Except Trouble (Option Processed))
    (results : List (Except Trouble (Option Processed))) :
    eventsOf (item :: batch) (result :: results) =
      .handed item :: .processed item result :: eventsOf batch results := rfl

theorem processAll_cons (p : Pipeline) (item : Item) (batch : List Item) (s : PipelineState) :
    p.processAll (item :: batch) s =
      ((p.process item s).1 :: (p.processAll batch (p.process item s).2).1,
        (p.processAll batch (p.process item s).2).2) := by
  rw [processAll]

/-- After an analysis that went well, `process` is `finish`. -/
theorem process_of_analyse {p : Pipeline} {item : Item} {a : Analysis Float} {s s' : PipelineState}
    (ha : p.analyse item s = (.ok a, s')) :
    p.process item s = ((p.finish item a s').1.mapError .failure, (p.finish item a s').2) := by
  unfold process
  rw [ha]
  dsimp only
  cases p.finish item a s' with
  | mk result s'' => cases result <;> rfl

theorem perform_handling {p : Pipeline} (hc : p.client.Stands) (batch : List Item)
    {s : PipelineState} (h : Sound p ⟨s, .handling batch⟩) :
    p.perform ⟨s, .handling batch⟩ (List.replicate (2 * batch.length) .work) =
      (⟨(p.processAll batch s).2, .handling []⟩, eventsOf batch (p.processAll batch s).1) := by
  induction batch generalizing s with
  | nil => rfl
  | cons item batch ih =>
    obtain ⟨a, session, ha, hsession, hhanded⟩ := proceed_handling hc item batch h.untimed
    have hfirst : p.act ⟨s, .handling (item :: batch)⟩ .work =
        (⟨{ s with session := session }, .storing item a batch⟩, [.handed item]) := hhanded
    have hsecond : p.act ⟨{ s with session := session }, .storing item a batch⟩ .work =
        (⟨(p.process item s).2, .handling batch⟩, [.processed item (p.process item s).1]) := by
      rw [process_of_analyse ha]
      exact proceed_storing p item a batch _
    have hnext : Sound p ⟨(p.process item s).2, .handling batch⟩ := by
      have hstoring : Sound p ⟨{ s with session := session }, .storing item a batch⟩ :=
        ⟨h.distinct, hsession, fun h => (by cases h)⟩
      rw [process_of_analyse ha]
      exact (storing_follows hstoring).sound
    have hsteps : List.replicate (2 * (item :: batch).length) Action.work =
        .work :: .work :: List.replicate (2 * batch.length) .work := rfl
    simp only [hsteps, perform_cons, hfirst, hsecond, ih hnext, processAll_cons, eventsOf_cons,
      List.cons_append, List.nil_append]

/-- A worker that is left alone does what `nextBatch` and `processAll` do. -/
theorem perform_round {p : Pipeline} (hc : p.client.Stands) {s : PipelineState}
    (h : Sound p ⟨s, .taking []⟩) :
    let (batch, s₁) := p.nextBatch s
    let (results, s₂) := p.processAll batch s₁
    ∃ steps, p.perform ⟨s, .taking []⟩ (List.replicate steps .work) =
      (⟨s₂, .handling []⟩, eventsOf batch results) := by
  obtain ⟨steps, htaking⟩ := perform_taking p s [] p.batchLimit (Nat.zero_add _)
  have hsound : Sound p ⟨(p.nextBatch s).2, .handling (p.nextBatch s).1⟩ :=
    ⟨h.distinct, h.untimed, fun h => (by cases h)⟩
  refine ⟨steps + 2 * (p.nextBatch s).1.length, ?_⟩
  rw [← List.replicate_append_replicate, perform_append, htaking]
  exact perform_handling hc (p.nextBatch s).1 hsound

theorem sound_start {p : Pipeline} {files : FileTree} {s : PipelineState}
    (hstart : p.start files = .ok s) (hdistinct : Distinct p files) :
    Sound p ⟨s, .taking []⟩ ∧ s.files = files ∧ s.queue.items = [] := by
  unfold start WorkQueue.create? at hstart
  split at hstart
  · cases hstart
  split at hstart
  · cases hstart
  cases hstart
  exact ⟨⟨hdistinct, rfl, fun h => (by cases h)⟩, rfl, rfl⟩

/-- **Nothing that is queued is lost, doubled or overtaken on its way to the dataset.** Side
conditions: the client `Stands`, the files of `p` are `Distinct` from the dataset, and what others
do to files is `Harmless`. After any actions, what was queued is what was handed to the worker and
then what is in its batch and in the queue; the dataset has grown by one line for each item that was
stored, in order; and whatever becomes of an item, the worker leaves the queue and the rest of its
batch alone and goes on with them. -/
theorem perform_conserves {p : Pipeline} {files : FileTree} {s : PipelineState}
    (hstart : p.start files = .ok s) (hc : p.client.Stands) (hdistinct : Distinct p files)
    {actions : List Action} (hactions : ∀ a ∈ actions, a.Harmless p) :
    let (g, es) := p.perform ⟨s, .taking []⟩ actions
    (queuedIn es = handedIn es ++ (g.task.batch ++ g.state.queue.items) ∧
      handedIn es = endedIn es ++ g.task.current) ∧
    (∃ lines, LinesOf (storedIn es) lines ∧
      g.state.files.contentOf p.dataset = files.contentOf p.dataset ++ Bytes.ofLines lines) ∧
    ∀ before after rest, actions = before ++ .work :: after →
      let g₁ := (p.perform ⟨s, .taking []⟩ before).1
      let g₂ := (p.proceed g₁).1
      g₁.task.later? = some rest →
        g₂.state.queue = g₁.state.queue ∧ g₂.task.batch = rest ∧
        (storedIn (p.proceed g₁).2 = [] →
          g₂.state.files.contentOf p.dataset = g₁.state.files.contentOf p.dataset) ∧
        (2 * rest.length + 1 ≤ after.countP Action.isWork →
          rest <+: handedIn (p.perform g₂ after).2) := by
  obtain ⟨hsound, hfiles, hempty⟩ := sound_start hstart hdistinct
  have hrun := perform_follows hc hsound hactions
  refine ⟨⟨?_, hrun.ended⟩, ?_, ?_⟩
  · have h := hrun.conserved
    rw [Stage.waiting, hempty] at h
    exact h
  · obtain ⟨lines, hlines, hcontent⟩ := hrun.stored
    exact ⟨lines, hlines, hfiles ▸ hcontent⟩
  · intro before after rest hsplit g₁ g₂ hlater
    rw [hsplit, List.forall_mem_append] at hactions
    have hbefore := perform_follows hc hsound hactions.1
    obtain ⟨hqueue, hbatch, hbusy, hcost⟩ := proceed_later hc hbefore.sound hlater
    have hnext := proceed_follows hc hbefore.sound
    refine ⟨hqueue, hbatch, hnext.content, fun hcount => ?_⟩
    have hprefix := batch_prefix_handed hc hnext.sound hbusy
      (fun a ha => hactions.2 a (List.mem_cons_of_mem _ ha)) (Nat.le_trans hcost hcount)
    exact hbatch ▸ hprefix

/-- Two items are pushed, and the worker takes both while a folder is made. -/
theorem perform_conserves_two_items :
    let p : Pipeline :=
      { performance := .default
        source := ⟨.ofString "shots", .ofString "assets"⟩
        analyzer := .ofSettings .default .default
        client := .script [Client.refusal, .stream [.delta "topic: ships".toList]] true
        modelInfo := ModelSettings.default.info
        dataset := .ofString "data.jsonl"
        log := .ofString "log.txt"
        baseline := .ofString "baseline.json"
        stamp := fun _ => ⟨[], []⟩ }
    let files := FileTree.empty 0
    let first := Item.text "first".toList
    let second := Item.text "second".toList
    let actions : List Action := [.push first, .work, .push second,
      .meanwhile fun t => (t.makeFolder (.ofString "assets")).2, .work, .work]
    ∃ s, p.start files = .ok s ∧ p.client.Stands ∧ Distinct p files ∧
      (∀ a ∈ actions, a.Harmless p) ∧
      let (g, es) := p.perform ⟨s, .taking []⟩ actions
      handedIn es ++ (g.task.batch ++ g.state.queue.items) = [first, second] := by
  intro p files first second actions
  have hc : p.client.Stands := Client.script_stands (by simp [Client.refusal]) true
  have hdataset : files.aim p.dataset = some [Utf8.encode "data.jsonl".toList] := by
    decide +kernel
  have hdistinct : Distinct p files := by
    refine ⟨?_, ?_, fun f => ?_⟩
    · intro loc hloc
      rw [hdataset] at hloc
      cases hloc
      decide +kernel
    · intro loc hloc
      rw [hdataset] at hloc
      cases hloc
      decide +kernel
    · intro loc hloc
      rw [hdataset] at hloc
      cases hloc
      have haim : files.aim (Assets.location p.source.assets f) =
          some [Utf8.encode "assets".toList, (Assets.fileName f).bytes] := by
        have hsteps : p.source.assets.withoutSlashes.steps = [Utf8.encode "assets".toList] := by
          decide +kernel
        have horigin : files.origin (Assets.location p.source.assets f) = [] := ite_self _
        unfold FileTree.aim
        rw [Assets.steps_location (by decide +kernel), hsteps, horigin]
        unfold FileTree.linkLimit FileTree.aimWith
        rw [List.singleton_append, FileTree.aimFrom_empty _ _ _ _ (by decide +kernel),
          FileTree.aimFrom_empty _ _ _ _ (Assets.fileName_plain f)]
        rfl
      rw [haim]
      -- one lies deeper than the other
      have hdepth : (some 2 : Option Nat) ≠ some 1 := by decide
      exact fun h => hdepth (congrArg (Option.map List.length) h)
  have hactions : ∀ a ∈ actions, a.Harmless p := by
    simp only [actions, List.forall_mem_cons, List.not_mem_nil, false_implies, implies_true,
      and_true]
    exact ⟨trivial, trivial, trivial, fun t => FileTree.makeFolder_keeps t _ _, trivial, trivial⟩
  refine ⟨_, rfl, hc, hdistinct, hactions, ?_⟩
  exact (perform_conserves (p := p) rfl hc hdistinct hactions).1.1.symm

end Pipeline
end ClipLedger
