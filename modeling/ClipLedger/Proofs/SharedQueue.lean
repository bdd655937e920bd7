import ClipLedger.WorkQueue

/-
  A queue that any number of parties push to and take from, in every interleaving. A taker that
  waits does so in steps: it comes, it acquires the right to take, and then it receives an item or
  gives up, while others act in between. What is delivered, followed by what still waits, is what
  was queued, in that order; a taker that gives up and one that is turned away cost no item, and
  an item that waits while somebody holds the right stays there for the holder
  (`performAll_conserves`).
-/
namespace ClipLedger.SharedQueue

variable {α : Type}

/-! ## One step -/

/-- What an action does where it is possible; where it is not, nothing changes. -/
inductive Step (s : SharedQueue α) : Action α → Result α → SharedQueue α → Prop where
  | queued (a : α) (room : s.queue.length < s.queue.capacity) :
      Step s (.push a) (.pushed .queued)
        { s with queue := { s.queue with items := s.queue.items ++ [a] } }
  | dropped (a : α) (full : s.queue.capacity ≤ s.queue.length) :
      Step s (.push a) (.pushed .dropped) s
  | taken {a : α} {rest : List α} (free : s.holder = none) (items : s.queue.items = a :: rest) :
      Step s .tryTake (.item a) { s with queue := { s.queue with items := rest } }
  | turnedAway (why : s.holder ≠ none ∨ s.queue.items = []) : Step s .tryTake .nothing s
  | came (taker : Nat) (new : taker ∉ s.waiting) :
      Step s (.startWaiting taker) .nothing { s with waiting := s.waiting ++ [taker] }
  | acquired (taker : Nat) (waits : taker ∈ s.waiting) (free : s.holder = none) :
      Step s (.acquire taker) .nothing { s with holder := some taker }
  | received {taker : Nat} {a : α} {rest : List α} (held : s.holder = some taker)
      (items : s.queue.items = a :: rest) :
      Step s (.receive taker) (.item a)
        ({ s with queue := { s.queue with items := rest } }.leave taker)
  | gaveUp (taker : Nat) (waits : taker ∈ s.waiting) :
      Step s (.giveUp taker) .nothing (s.leave taker)
  | impossible (x : Action α) (stuck : s.act x = none) : Step s x .nothing s

/-- `tryTake` is turned away where a taker holds the right to take or nothing waits. -/
theorem tryTake_cases (s : SharedQueue α) :
    (s.holder ≠ none ∨ s.queue.items = []) ∧ s.tryTake = (none, s) ∨
    ∃ a rest, s.holder = none ∧ s.queue.items = a :: rest ∧
      s.tryTake = (some a, { s with queue := { s.queue with items := rest } }) := by
  unfold tryTake
  cases hholder : s.holder with
  | some taker => exact .inl ⟨.inl (Option.some_ne_none taker), rfl⟩
  | none =>
    dsimp only
    unfold WorkQueue.take
    cases hitems : s.queue.items with
    | nil => exact .inl ⟨.inr rfl, by rw [← hholder]⟩
    | cons a rest => exact .inr ⟨a, rest, rfl, rfl, by rw [← hholder]⟩

theorem act_push_step {s s' : SharedQueue α} {a : α} {r : Result α}
    (h : s.act (.push a) = some (r, s')) : Step s (.push a) r s' := by
  by_cases hroom : s.queue.length < s.queue.capacity
  · rw [act, WorkQueue.push_of_lt a hroom] at h
    cases h
    exact .queued a hroom
  · have hfull : s.queue.capacity ≤ s.queue.length := Nat.le_of_not_lt hroom
    rw [act, WorkQueue.push_of_le a hfull] at h
    cases h
    exact .dropped a hfull

theorem act_receive_step {s s' : SharedQueue α} {taker : Nat} {r : Result α}
    (h : s.act (.receive taker) = some (r, s')) : Step s (.receive taker) r s' := by
  rw [act] at h
  split at h
  · next hheld =>
    unfold WorkQueue.take at h
    cases hitems : s.queue.items with
    | nil =>
      rw [hitems] at h
      cases h
    | cons a rest =>
      rw [hitems] at h
      cases h
      exact .received hheld hitems
  · cases h

theorem act_step {s s' : SharedQueue α} {x : Action α} {r : Result α}
    (h : s.act x = some (r, s')) : Step s x r s' := by
  cases x with
  | push a => exact act_push_step h
  | tryTake =>
    rcases s.tryTake_cases with ⟨hwhy, htake⟩ | ⟨a, rest, hfree, hitems, htake⟩
    · rw [act, htake] at h
      cases h
      exact .turnedAway hwhy
    · rw [act, htake] at h
      cases h
      exact .taken hfree hitems
  | startWaiting taker =>
    rw [act] at h
    split at h
    · cases h
    · next hnew =>
      cases h
      exact .came taker hnew
  | acquire taker =>
    rw [act] at h
    split at h
    · next hcan =>
      cases h
      exact .acquired taker hcan.1 hcan.2
    · cases h
  | receive taker => exact act_receive_step h
  | giveUp taker =>
    rw [act] at h
    split at h
    · next hwaits =>
      cases h
      exact .gaveUp taker hwaits
    · cases h

theorem perform_step (s : SharedQueue α) (x : Action α) :
    Step s x (s.perform x).1 (s.perform x).2 := by
  unfold perform
  cases hact : s.act x with
  | none => exact .impossible x hact
  | some out => exact act_step hact

theorem perform_receive {s : SharedQueue α} {taker : Nat} {a : α} {rest : List α}
    (hheld : s.holder = some taker) (hitems : s.queue.items = a :: rest) :
    (s.perform (.receive taker)).1 = .item a := by
  rw [perform, act, if_pos hheld, WorkQueue.take, hitems]
  rfl

/-! ## Runs -/

/-- The actions one after the other, with what each yields. -/
def performAll : SharedQueue α → List (Action α) → List (Action α × Result α) × SharedQueue α
  | s, [] => ([], s)
  | s, x :: rest =>
    let (r, s) := s.perform x
    let (log, s) := performAll s rest
    ((x, r) :: log, s)

theorem performAll_append (s : SharedQueue α) (xs ys : List (Action α)) :
    s.performAll (xs ++ ys) = ((s.performAll xs).1 ++ ((s.performAll xs).2.performAll ys).1,
      ((s.performAll xs).2.performAll ys).2) := by
  induction xs generalizing s with
  | nil => rfl
  | cons x xs ih =>
    rw [List.cons_append, performAll, performAll]
    rcases s.perform x with ⟨r, s₁⟩
    dsimp only
    rw [ih]
    rfl

/-- The items of `log` whose push was answered with `queued`. -/
def queuedIn (log : List (Action α × Result α)) : List α :=
  log.filterMap fun
    | (.push a, .pushed .queued) => some a
    | _ => none

/-- The items of `log` that takers got. -/
def deliveredIn (log : List (Action α × Result α)) : List α := log.filterMap fun e => e.2.item?

theorem queuedIn_append (log more : List (Action α × Result α)) :
    queuedIn (log ++ more) = queuedIn log ++ queuedIn more := List.filterMap_append

theorem deliveredIn_append (log more : List (Action α × Result α)) :
    deliveredIn (log ++ more) = deliveredIn log ++ deliveredIn more := List.filterMap_append

/-- An action that yields nothing queues nothing. -/
theorem queuedIn_nothing (x : Action α) : queuedIn [(x, .nothing)] = [] := by
  cases x <;> rfl

/-! ## What a run preserves -/

/-- The queue of `s` after what `log` tells: what was delivered and what waits is what was queued,
within the `capacity`. -/
structure Accounts (capacity : Nat) (log : List (Action α × Result α)) (s : SharedQueue α) :
    Prop where
  conserved : deliveredIn log ++ s.queue.items = queuedIn log
  capacity_eq : s.queue.capacity = capacity
  bound : s.queue.length ≤ capacity
  holder_waits : ∀ taker, s.holder = some taker → taker ∈ s.waiting

/-- A step that neither queues nor delivers leaves the accounts right. -/
theorem Accounts.quiet {capacity : Nat} {log : List (Action α × Result α)} {s s' : SharedQueue α}
    (h : Accounts capacity log s) {x : Action α} {r : Result α} (hqueue : s'.queue = s.queue)
    (hqueued : queuedIn [(x, r)] = []) (hdelivered : deliveredIn [(x, r)] = [])
    (hholder : ∀ taker, s'.holder = some taker → taker ∈ s'.waiting) :
    Accounts capacity (log ++ [(x, r)]) s' := by
  refine ⟨?_, ?_, ?_, hholder⟩
  · rw [queuedIn_append, deliveredIn_append, hqueued, hdelivered, hqueue, List.append_nil,
      List.append_nil]
    exact h.conserved
  · rw [hqueue]
    exact h.capacity_eq
  · rw [hqueue]
    exact h.bound

/-- A step that delivers the oldest item leaves the accounts right. -/
theorem Accounts.delivers {capacity : Nat} {log : List (Action α × Result α)}
    {s s' : SharedQueue α} (h : Accounts capacity log s) {x : Action α} {a : α} {rest : List α}
    (hitems : s.queue.items = a :: rest) (hqueue : s'.queue = { s.queue with items := rest })
    (hqueued : queuedIn [(x, .item a)] = [])
    (hholder : ∀ taker, s'.holder = some taker → taker ∈ s'.waiting) :
    Accounts capacity (log ++ [(x, .item a)]) s' := by
  have hconserved := h.conserved
  have hbound := h.bound
  have hdelivered : deliveredIn [(x, .item a)] = [a] := rfl
  refine ⟨?_, ?_, ?_, hholder⟩
  · rw [queuedIn_append, deliveredIn_append, hqueued, hdelivered, hqueue, List.append_nil,
      List.append_assoc, List.singleton_append, ← hitems]
    exact hconserved
  · rw [hqueue]
    exact h.capacity_eq
  · rw [WorkQueue.length, hitems, List.length_cons] at hbound
    rw [hqueue]
    show rest.length ≤ capacity
    omega

/-- `leave` takes the right to take from `leaver` and from nobody else, so that the holder still
waits. -/
theorem holder_leave {s : SharedQueue α} (h : ∀ taker, s.holder = some taker → taker ∈ s.waiting)
    (leaver : Nat) : ∀ taker, (s.leave leaver).holder = some taker →
      taker ∈ (s.leave leaver).waiting := by
  intro taker hheld
  unfold leave at hheld ⊢
  dsimp only at hheld ⊢
  by_cases hown : s.holder = some leaver
  · rw [if_pos hown] at hheld
    cases hheld
  · rw [if_neg hown] at hheld
    have hne : taker ≠ leaver := fun heq => hown (heq ▸ hheld)
    exact (List.mem_erase_of_ne hne).2 (h taker hheld)

theorem Step.accounts {capacity : Nat} {log : List (Action α × Result α)} {s s' : SharedQueue α}
    {x : Action α} {r : Result α} (hstep : Step s x r s') (h : Accounts capacity log s) :
    Accounts capacity (log ++ [(x, r)]) s' := by
  have hconserved := h.conserved
  have hcapacity := h.capacity_eq
  have hbound := h.bound
  cases hstep with
  | queued a room =>
    have hqueued : queuedIn [(Action.push a, .pushed .queued)] = [a] := rfl
    have hdelivered : deliveredIn [(Action.push a, .pushed .queued)] = [] := rfl
    refine ⟨?_, hcapacity, ?_, h.holder_waits⟩
    · rw [queuedIn_append, deliveredIn_append, hqueued, hdelivered, List.append_nil,
        ← List.append_assoc, hconserved]
    · rw [WorkQueue.length, List.length_append, List.length_singleton, ← hcapacity]
      exact room
  | dropped a full => exact h.quiet rfl rfl rfl h.holder_waits
  | taken free items => exact h.delivers items rfl rfl h.holder_waits
  | turnedAway why => exact h.quiet rfl rfl rfl h.holder_waits
  | came taker new =>
    refine h.quiet rfl rfl rfl ?_
    intro holder hheld
    exact List.mem_append_left _ (h.holder_waits holder hheld)
  | acquired taker waits free =>
    refine h.quiet rfl rfl rfl ?_
    intro holder hheld
    cases hheld
    exact waits
  | received held items =>
    exact h.delivers items rfl rfl (holder_leave (s := { s with queue := _ }) h.holder_waits _)
  | gaveUp taker waits => exact h.quiet rfl rfl rfl (holder_leave h.holder_waits taker)
  | impossible x stuck => exact h.quiet rfl (queuedIn_nothing x) rfl h.holder_waits

theorem accounts_ofQueue {c : Nat} {q : WorkQueue α} (hq : WorkQueue.create? c = .ok q) :
    Accounts c [] (ofQueue q) := by
  unfold WorkQueue.create? at hq
  split at hq
  · cases hq
  split at hq
  · cases hq
  cases hq
  refine ⟨rfl, rfl, Nat.zero_le c, ?_⟩
  intro taker hheld
  cases hheld

theorem performAll_accounts {capacity : Nat} {log : List (Action α × Result α)}
    {s : SharedQueue α} (h : Accounts capacity log s) (actions : List (Action α)) :
    Accounts capacity (log ++ (s.performAll actions).1) (s.performAll actions).2 := by
  induction actions generalizing log s with
  | nil =>
    rw [performAll, List.append_nil]
    exact h
  | cons x actions ih =>
    have hfirst := (s.perform_step x).accounts h
    have hrest := ih hfirst
    rw [List.append_assoc] at hrest
    exact hrest

/-! ## An item that waits for the holder -/

/-- `taker` holds the right to take, and `a` is the oldest item. -/
structure Reserved (taker : Nat) (a : α) (s : SharedQueue α) : Prop where
  held : s.holder = some taker
  head : s.queue.items.head? = some a

/-- Only a `receive` or `giveUp` of the holder ends a reservation. -/
theorem Step.reserved {taker : Nat} {a : α} {s s' : SharedQueue α} {x : Action α} {r : Result α}
    (hstep : Step s x r s') (h : Reserved taker a s) (hreceive : x ≠ .receive taker)
    (hgiveUp : x ≠ .giveUp taker) : Reserved taker a s' := by
  have hheld := h.held
  have hhead := h.head
  cases hstep with
  | queued b room =>
    refine ⟨hheld, ?_⟩
    show (s.queue.items ++ [b]).head? = some a
    rw [List.head?_append, hhead]
    rfl
  | dropped b full => exact h
  | taken free items =>
    rw [hheld] at free
    cases free
  | turnedAway why => exact h
  | came other new => exact ⟨hheld, hhead⟩
  | acquired other waits free =>
    rw [hheld] at free
    cases free
  | received held items =>
    have hsame := Option.some.inj (hheld.symm.trans held)
    exact absurd (congrArg Action.receive hsame.symm) hreceive
  | gaveUp other waits =>
    refine ⟨?_, hhead⟩
    have hother : s.holder ≠ some other := by
      intro hsame
      have heq := Option.some.inj (hheld.symm.trans hsame)
      exact hgiveUp (congrArg Action.giveUp heq.symm)
    show (if s.holder = some other then none else s.holder) = some taker
    rw [if_neg hother]
    exact hheld
  | impossible x stuck => exact h

theorem performAll_reserved {taker : Nat} {a : α} {s : SharedQueue α} (h : Reserved taker a s)
    {actions : List (Action α)}
    (hothers : ∀ x ∈ actions, x ≠ .receive taker ∧ x ≠ .giveUp taker) :
    Reserved taker a (s.performAll actions).2 := by
  induction actions generalizing s with
  | nil => exact h
  | cons x actions ih =>
    have hx := hothers x List.mem_cons_self
    have hfirst := (s.perform_step x).reserved h hx.1 hx.2
    exact ih hfirst fun y hy => hothers y (List.mem_cons_of_mem x hy)

/-- The holder receives the oldest item. -/
theorem Reserved.receive {taker : Nat} {a : α} {s : SharedQueue α} (h : Reserved taker a s) :
    (s.perform (.receive taker)).1 = .item a := by
  obtain ⟨rest, hitems⟩ := List.head?_eq_some_iff.1 h.head
  exact perform_receive h.held hitems

/-! ## Single actions -/

theorem perform_push_dropped (s : SharedQueue α) (a : α) :
    (s.perform (.push a)).1 = .pushed .dropped ↔ s.queue.capacity ≤ s.queue.length := by
  have hresult : (s.perform (.push a)).1 = .pushed (s.queue.push a).1 := rfl
  rw [hresult, Result.pushed.injEq]
  exact s.queue.push_dropped_iff a

theorem perform_push_of_le {s : SharedQueue α} (a : α) (h : s.queue.capacity ≤ s.queue.length) :
    s.perform (.push a) = (.pushed .dropped, s) := by
  rw [perform, act, WorkQueue.push_of_le a h]
  rfl

/-- A taker that gives up takes nothing along. -/
theorem perform_giveUp (s : SharedQueue α) (taker : Nat) :
    (s.perform (.giveUp taker)).1 = .nothing ∧ (s.perform (.giveUp taker)).2.queue = s.queue := by
  have hstep := s.perform_step (.giveUp taker)
  generalize s.perform (.giveUp taker) = out at hstep ⊢
  obtain ⟨r, s'⟩ := out
  cases hstep with
  | gaveUp _ waits => exact ⟨rfl, rfl⟩
  | impossible _ stuck => exact ⟨rfl, rfl⟩

/-- `tryTake` is turned away exactly by a holder or an empty queue, and then changes nothing. -/
theorem perform_tryTake (s : SharedQueue α) :
    ((s.perform .tryTake).1 = .nothing ↔ s.holder ≠ none ∨ s.queue.items = []) ∧
      ((s.perform .tryTake).1 = .nothing → (s.perform .tryTake).2 = s) := by
  rcases s.tryTake_cases with ⟨hwhy, htake⟩ | ⟨a, rest, hfree, hitems, htake⟩
  · have hperform : s.perform .tryTake = (.nothing, s) := by
      rw [perform, act, htake]
      rfl
    rw [hperform]
    exact ⟨⟨fun _ => hwhy, fun _ => rfl⟩, fun _ => rfl⟩
  · have hresult : (s.perform .tryTake).1 = .item a := by
      rw [perform, act, htake]
      rfl
    have hnot : ¬ (s.holder ≠ none ∨ s.queue.items = []) := by
      simp [hfree, hitems]
    rw [hresult]
    exact ⟨⟨fun h => (by cases h), fun h => absurd h hnot⟩, fun h => (by cases h)⟩

/-- **Nothing is lost, doubled or overtaken, whoever comes and gives up when.** After every sequence
of actions on a queue that `create?` made: `deliveredIn` followed by what waits is `queuedIn`; at
most `c` items wait, and a push is dropped exactly where `c` do; whoever gives up or is turned away
takes nothing along; and the oldest item, while a taker holds the right to take, is still there for
it after any `later` actions of others. -/
theorem performAll_conserves {c : Nat} {q : WorkQueue α} (hq : WorkQueue.create? c = .ok q)
    (actions : List (Action α)) :
    let (log, s) := (ofQueue q).performAll actions
    (deliveredIn log ++ s.queue.items = queuedIn log ∧
      s.queue.length + (deliveredIn log).length = (queuedIn log).length ∧ s.queue.length ≤ c) ∧
    (∀ a, ((s.perform (.push a)).1 = .pushed .dropped ↔ s.queue.length = c) ∧
      ((s.perform (.push a)).1 = .pushed .dropped → (s.perform (.push a)).2 = s)) ∧
    (∀ taker, (s.perform (.giveUp taker)).1 = .nothing ∧
      (s.perform (.giveUp taker)).2.queue = s.queue) ∧
    (((s.perform .tryTake).1 = .nothing ↔ s.holder ≠ none ∨ s.queue.items = []) ∧
      ((s.perform .tryTake).1 = .nothing → (s.perform .tryTake).2 = s)) ∧
    ∀ taker, s.holder = some taker → taker ∈ s.waiting ∧
      ∀ a, s.queue.items.head? = some a → ∀ later,
        (∀ x ∈ later, x ≠ .receive taker ∧ x ≠ .giveUp taker) →
        ((s.performAll later).2.perform (.receive taker)).1 = .item a := by
  have hrun : Accounts c ((ofQueue q).performAll actions).1 ((ofQueue q).performAll actions).2 :=
    performAll_accounts (accounts_ofQueue hq) actions
  generalize (ofQueue q).performAll actions = out at hrun ⊢
  obtain ⟨log, s⟩ := out
  dsimp only at hrun ⊢
  have hconserved := hrun.conserved
  have hcapacity := hrun.capacity_eq
  have hbound := hrun.bound
  refine ⟨⟨hconserved, ?_, hbound⟩, ?_, s.perform_giveUp, s.perform_tryTake, ?_⟩
  · have hlength := congrArg List.length hconserved
    rw [List.length_append] at hlength
    rw [WorkQueue.length]
    omega
  · intro a
    have hdropped := s.perform_push_dropped a
    refine ⟨?_, ?_⟩
    · rw [hdropped, hcapacity]
      omega
    · intro h
      rw [perform_push_of_le a (hdropped.1 h)]
  · intro taker hheld
    refine ⟨hrun.holder_waits taker hheld, ?_⟩
    intro a hhead later hothers
    have hreserved : Reserved taker a s := ⟨hheld, hhead⟩
    exact (performAll_reserved hreserved hothers).receive

/-- A taker holds the right to take while another one waits and gives up, and a third one is
turned away twice; the item is there for the holder. -/
theorem performAll_conserves_contended :
    let actions : List (Action Nat) :=
      [.startWaiting 0, .acquire 0, .push 7, .startWaiting 1, .tryTake]
    let later : List (Action Nat) := [.giveUp 1, .push 8, .push 9, .tryTake]
    let s := ((ofQueue (.empty 2)).performAll actions).2
    WorkQueue.create? 2 = .ok (.empty 2 : WorkQueue Nat) ∧ s.holder = some 0 ∧
      s.queue.items.head? = some 7 ∧
      (∀ x ∈ later, x ≠ .receive 0 ∧ x ≠ .giveUp 0) ∧
      ((s.performAll later).2.perform (.receive 0)).1 = .item 7 := by
  intro actions later s
  have hothers : ∀ x ∈ later, x ≠ .receive 0 ∧ x ≠ .giveUp 0 := by
    simp [later]
  have hall := performAll_conserves (c := 2) (q := (.empty 2 : WorkQueue Nat)) rfl actions
  exact ⟨rfl, rfl, rfl, hothers, (hall.2.2.2.2 0 rfl).2 7 rfl later hothers⟩

end ClipLedger.SharedQueue
