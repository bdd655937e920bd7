import ClipLedger.QueueSession
import ClipLedger.Proofs.SharedQueue

/-
  Sessions are interleavings. `SharedQueue.Yields` is a run of `performAll`, with what it delivers
  and what it queues. Every operation of a `QueueSession` is such a run, in which the takers get
  what the operation answers and an item is queued where the answer to its push is `queued`
  (`pop_yields`, `popDuringPush_yields`, `tryDuringPop_yields`); so `performAll_conserves` speaks
  of sessions too. `wordLeft` and `called` only decide who goes first, and are left open here.
-/
namespace ClipLedger

/-- What a push of `a` queues that is answered so. -/
def Pushed.items {α : Type} (a : α) : Pushed → List α
  | .queued => [a]
  | .dropped => []

namespace SharedQueue

variable {α : Type} {s s₁ s' : SharedQueue α} {taken more queued others : List α} {taker : Nat}

/-- Some actions lead from `s` to `s'`, deliver `taken` and queue `queued`. -/
def Yields (s : SharedQueue α) (taken queued : List α) (s' : SharedQueue α) : Prop :=
  ∃ actions log, s.performAll actions = (log, s') ∧ deliveredIn log = taken ∧
    queuedIn log = queued

theorem Yields.refl (s : SharedQueue α) : s.Yields [] [] s := ⟨[], [], rfl, rfl, rfl⟩

theorem Yields.trans (h : s.Yields taken queued s₁) (h' : s₁.Yields more others s') :
    s.Yields (taken ++ more) (queued ++ others) s' := by
  obtain ⟨xs, log, hxs, rfl, rfl⟩ := h
  obtain ⟨ys, log', hys, rfl, rfl⟩ := h'
  refine ⟨xs ++ ys, log ++ log', ?_, deliveredIn_append _ _, queuedIn_append _ _⟩
  rw [performAll_append, hxs]
  dsimp only
  rw [hys]

/-- One action yields what it answers and queues. -/
theorem perform_yields (s : SharedQueue α) (x : Action α) :
    s.Yields (s.perform x).1.item?.toList (queuedIn [(x, (s.perform x).1)]) (s.perform x).2 := by
  refine ⟨[x], [(x, (s.perform x).1)], rfl, ?_, rfl⟩
  unfold deliveredIn
  cases (s.perform x).1 <;> rfl

/-- An action that is no push queues nothing. -/
theorem Yields.of_perform (s : SharedQueue α) {x : Action α} (hx : ∀ a, x ≠ .push a) :
    s.Yields (s.perform x).1.item?.toList [] (s.perform x).2 := by
  have hyields := s.perform_yields x
  have hnone : queuedIn [(x, (s.perform x).1)] = [] := by
    cases x with
    | push a => exact absurd rfl (hx a)
    | tryTake => rfl
    | startWaiting taker => rfl
    | acquire taker => rfl
    | receive taker => rfl
    | giveUp taker => rfl
  rwa [hnone] at hyields

theorem push_yields (s : SharedQueue α) (a : α) :
    s.Yields [] ((s.queue.push a).1.items a) { s with queue := (s.queue.push a).2 } := by
  have hyields := s.perform_yields (.push a)
  have hqueued : queuedIn [(Action.push a, (s.perform (.push a)).1)] =
      (s.queue.push a).1.items a := by
    unfold perform act
    dsimp only
    rcases s.queue.push a with ⟨p, q⟩
    cases p <;> rfl
  rwa [hqueued] at hyields

theorem tryTake_yields (s : SharedQueue α) : s.Yields s.tryTake.1.toList [] s.tryTake.2 := by
  have hyields := Yields.of_perform s (x := .tryTake) fun a h => by cases h
  have hperform : (s.perform .tryTake).1.item? = s.tryTake.1 ∧
      (s.perform .tryTake).2 = s.tryTake.2 := by
    unfold perform act
    dsimp only
    rcases s.tryTake with ⟨a?, s'⟩
    cases a? <;> exact ⟨rfl, rfl⟩
  rwa [hperform.1, hperform.2] at hyields

theorem item?_perform {x : Action α} (hx : x = .startWaiting taker ∨ x = .acquire taker ∨
    x = .giveUp taker) (s : SharedQueue α) : (s.perform x).1.item? = none := by
  unfold perform
  rcases hx with rfl | rfl | rfl <;> rw [act] <;> split <;> rfl

/-- Where `arrive` finds nothing, a `receive` right behind it finds nothing. -/
theorem receive_of_arrive (h : s.arrive taker = (none, s')) :
    s'.perform (.receive taker) = (.nothing, s') := by
  unfold arrive at h
  dsimp only at h
  generalize ((s.perform (.startWaiting taker)).2.perform (.acquire taker)).2 = s₁ at h
  have hnothing : s₁.perform (.receive taker) = (.nothing, s₁) := by
    have hitem := congrArg Prod.fst h
    dsimp only at hitem
    unfold perform act at hitem ⊢
    dsimp only at hitem ⊢
    by_cases hheld : s₁.holder = some taker
    · rw [if_pos hheld] at hitem ⊢
      rcases htake : s₁.queue.take with ⟨a?, q⟩
      rw [htake] at hitem
      cases a? with
      | none => rfl
      | some a => cases hitem
    · rw [if_neg hheld]
      rfl
  rw [hnothing] at h
  cases h
  exact hnothing

theorem arrive_yields (s : SharedQueue α) (taker : Nat) :
    s.Yields (s.arrive taker).1.toList [] (s.arrive taker).2 := by
  have hcome := Yields.of_perform s (x := .startWaiting taker) fun a h => by cases h
  rw [item?_perform (.inl rfl)] at hcome
  have hacquire := Yields.of_perform (s.perform (.startWaiting taker)).2 (x := .acquire taker)
    fun a h => by cases h
  rw [item?_perform (.inr (.inl rfl))] at hacquire
  exact (hcome.trans hacquire).trans (.of_perform _ fun a h => by cases h)

/-- A taker for which nothing has come gives up in `settle`. -/
theorem settle_of_receive (h : s.perform (.receive taker) = (.nothing, s)) :
    s.settle taker = (none, (s.perform (.giveUp taker)).2) := by
  unfold settle
  rw [h]
  rfl

theorem settle_yields (s : SharedQueue α) (taker : Nat) :
    s.Yields (s.settle taker).1.toList [] (s.settle taker).2 := by
  have hreceive := Yields.of_perform s (x := .receive taker) fun a h => by cases h
  unfold settle
  rcases hperform : s.perform (.receive taker) with ⟨r, s₁⟩
  rw [hperform] at hreceive
  dsimp only at hreceive ⊢
  cases hr : r.item? with
  | some a =>
    rw [hr] at hreceive
    exact hreceive
  | none =>
    have hgive := Yields.of_perform s₁ (x := .giveUp taker) fun a h => by cases h
    rw [item?_perform (.inr (.inr rfl))] at hgive
    rw [hr] at hreceive
    exact hreceive.trans hgive

/-- What `performAll_conserves` says of actions holds of what they yield. -/
theorem Yields.conserves {c : Nat} {q : WorkQueue α} (hq : WorkQueue.create? c = .ok q)
    (h : (ofQueue q).Yields taken queued s) :
    taken ++ s.queue.items = queued ∧ s.queue.length ≤ c := by
  obtain ⟨actions, log, hactions, rfl, rfl⟩ := h
  have hrun := performAll_accounts (accounts_ofQueue hq) actions
  rw [hactions] at hrun
  exact ⟨hrun.conserved, hrun.bound⟩

end SharedQueue

namespace QueueSession

open SharedQueue (Yields)

variable {α : Type} {s s' : QueueSession α} {taker : Nat}

theorem push_yields (s : QueueSession α) (a : α) :
    s.shared.Yields [] ((s.push a).1.items a) (s.push a).2.shared := by
  have hyields := s.shared.push_yields a
  unfold push
  split
  · next q h =>
    rw [h] at hyields
    exact hyields
  · exact .refl _

theorem arrive_shared (s : QueueSession α) (taker : Nat) :
    s.shared.arrive taker = ((s.arrive taker).1, (s.arrive taker).2.shared) := by
  unfold arrive
  split <;> next h => rw [h]

/-- Where `arrive` finds nothing, a `receive` right behind it finds nothing. -/
theorem receive_of_arrive (h : s.arrive taker = (none, s')) :
    s'.shared.perform (.receive taker) = (.nothing, s'.shared) := by
  have harrive := s.arrive_shared taker
  rw [h] at harrive
  exact SharedQueue.receive_of_arrive harrive

theorem giveUp_yields (h : s.shared.perform (.receive taker) = (.nothing, s.shared)) :
    s.shared.Yields [] [] (s.giveUp taker).shared := by
  have hsettle := s.shared.settle_yields taker
  unfold giveUp collect
  rw [SharedQueue.settle_of_receive h] at hsettle ⊢
  exact hsettle

theorem arrive_yields (s : QueueSession α) (taker : Nat) :
    s.shared.Yields (s.arrive taker).1.toList [] (s.arrive taker).2.shared := by
  have hyields := s.shared.arrive_yields taker
  rwa [s.arrive_shared taker] at hyields

theorem tryTake_yields (s : QueueSession α) :
    s.shared.Yields s.tryTake.1.toList [] s.tryTake.2.shared := s.shared.tryTake_yields

theorem collect_yields (s : QueueSession α) (taker : Nat) :
    s.shared.Yields (s.collect taker).1.toList [] (s.collect taker).2.shared :=
  s.shared.settle_yields taker

/-- A push of `a`, and then the `collect` of a taker that waits. -/
theorem push_collect_yields (s : QueueSession α) (taker : Nat) (a : α) :
    s.shared.Yields ((s.push a).2.collect taker).1.toList ((s.push a).1.items a)
      ((s.push a).2.collect taker).2.shared := by
  have hyields := (s.push_yields a).trans ((s.push a).2.collect_yields taker)
  rwa [List.append_nil] at hyields

/-- `pop` waits for an item and nobody pushes. -/
theorem pop_yields (s : QueueSession α) (taker timeout : Nat) :
    s.shared.Yields (s.pop taker timeout).1.toList [] (s.pop taker timeout).2.shared := by
  have harrive := s.arrive_yields taker
  unfold pop
  rcases h : s.arrive taker with ⟨a?, s₁⟩
  rw [h] at harrive
  cases a? with
  | some a => exact harrive
  | none =>
    have hgive : (s₁.restFor timeout).shared.Yields [] []
        ((s₁.restFor timeout).giveUp taker).shared :=
      giveUp_yields (by rw [shared_restFor]; exact receive_of_arrive h)
    rw [shared_restFor] at hgive
    exact harrive.trans hgive

/-- `meet`: a taker waits while another party pushes `a`. -/
theorem meet_yields (s : QueueSession α) (taker timeout delay : Nat) (a : α)
    (h : s.shared.perform (.receive taker) = (.nothing, s.shared)) :
    let out := s.meet taker timeout delay a
    s.shared.Yields out.1.toList (out.2.1.items a) out.2.2.shared := by
  have hpush := s.rest.push_collect_yields taker a
  unfold meet
  dsimp only
  split
  · cases s.called <;> exact hpush
  · have hgive : s.rest.shared.Yields [] [] (s.rest.giveUp taker).shared := giveUp_yields h
    exact hgive.trans ((s.rest.giveUp taker).push_yields a)

/-- `popDuringPush` delivers what is left in the queue or, in time, `a`, and queues `a` unless it is
dropped. -/
theorem popDuringPush_yields (s : QueueSession α) (taker timeout delay : Nat) (a : α) :
    let out := s.popDuringPush taker timeout delay a
    s.shared.Yields out.1.toList (out.2.1.items a) out.2.2.shared := by
  have harrive := s.arrive_yields taker
  unfold popDuringPush
  dsimp only
  rcases h : s.arrive taker with ⟨a?, s₁⟩
  rw [h] at harrive
  cases a? with
  | some first =>
    have hpush := (s₁.restFor (Span.timed delay)).push_yields a
    rw [shared_restFor] at hpush
    exact harrive.trans hpush
  | none =>
    have hreceive := receive_of_arrive h
    dsimp only
    split
    · have hpush := ((s₁.giveUp taker).restFor (Span.timed delay)).push_yields a
      rw [shared_restFor] at hpush
      exact (harrive.trans (giveUp_yields hreceive)).trans hpush
    · split
      · exact harrive.trans (s₁.push_collect_yields taker a)
      · exact harrive.trans (s₁.meet_yields taker _ _ a hreceive)

/-- `tryDuringPop`: whoever takes first, the two takers get together what was delivered. -/
theorem tryDuringPop_yields (s : QueueSession α) (taker timeout : Nat) (a : α) :
    let out := s.tryDuringPop taker timeout a
    ∃ taken p, s.shared.Yields taken (Pushed.items a p) out.2.2.shared ∧
      taken.Perm (out.1.toList ++ out.2.1.toList) := by
  have harrive := s.arrive_yields taker
  unfold tryDuringPop
  dsimp only
  rcases h : s.arrive taker with ⟨a?, s₁⟩
  rw [h] at harrive
  have htry : ∀ s₂ : QueueSession α, s₂.shared.Yields (s₂.push a).2.tryTake.1.toList
      ((s₂.push a).1.items a) (s₂.push a).2.tryTake.2.shared := by
    intro s₂
    have hyields := (s₂.push_yields a).trans (s₂.push a).2.tryTake_yields
    rwa [List.append_nil] at hyields
  cases a? with
  | some first => exact ⟨_, _, harrive.trans (htry s₁), .refl _⟩
  | none =>
    have hreceive := receive_of_arrive h
    dsimp only
    split
    · exact ⟨_, _, (harrive.trans (giveUp_yields hreceive)).trans (htry _), .refl _⟩
    · have hcollect := (htry s₁).trans ((s₁.push a).2.tryTake.2.rest.collect_yields taker)
      rw [List.append_nil] at hcollect
      refine ⟨_, _, harrive.trans hcollect, ?_⟩
      dsimp only [Option.toList_none]
      rw [List.nil_append]
      exact List.perm_append_comm

end QueueSession
end ClipLedger
