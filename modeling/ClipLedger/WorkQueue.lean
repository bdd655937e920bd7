/-
  A first-in first-out queue of bounded capacity. Pushing never waits: a full queue drops the
  new item. Any number of takers may share it; a taker that waits holds the only right to take
  until it receives an item or gives up, and until then nobody else takes anything.
-/
namespace ClipLedger

/-- `items` in the order in which they were pushed; no more than `capacity` are to wait. -/
structure WorkQueue (α : Type) where
  capacity : Nat
  items : List α

/-- What `push` did with an item. -/
inductive Pushed where
  | queued
  | dropped
  deriving DecidableEq, Repr

namespace WorkQueue

variable {α : Type}

/-- An empty queue for `capacity` items. -/
def empty (capacity : Nat) : WorkQueue α := ⟨capacity, []⟩

/-- The greatest capacity of a queue, `2^61 - 1`. -/
def capacityLimit : Nat := Nat.pow 2 61 - 1

/-- Why `create?` makes no queue. -/
inductive Misfit where
  | zero
  | tooLarge
  deriving DecidableEq, Repr

/-- An empty queue, if `capacity` lies between one and `capacityLimit`. -/
def create? (capacity : Nat) : Except Misfit (WorkQueue α) :=
  if capacity = 0 then .error .zero
  else if capacityLimit < capacity then .error .tooLarge
  else .ok (empty capacity)

/-- The number of `items`. -/
def length (q : WorkQueue α) : Nat := q.items.length

def isEmpty (q : WorkQueue α) : Bool := q.items.isEmpty

/-- Puts `a` at the end, or drops it where `capacity` items wait. -/
def push (q : WorkQueue α) (a : α) : Pushed × WorkQueue α :=
  if q.items.length < q.capacity then (.queued, { q with items := q.items ++ [a] })
  else (.dropped, q)

/-- Takes the oldest item, if there is one. -/
def take (q : WorkQueue α) : Option α × WorkQueue α :=
  match q.items with
  | [] => (none, q)
  | a :: rest => (some a, { q with items := rest })

/-- Takes up to `n` items from the front. -/
def takeMany (q : WorkQueue α) (n : Nat) : List α × WorkQueue α :=
  (q.items.take n, { q with items := q.items.drop n })

theorem push_of_lt {q : WorkQueue α} (a : α) (h : q.length < q.capacity) :
    q.push a = (.queued, { q with items := q.items ++ [a] }) := if_pos h

theorem push_of_le {q : WorkQueue α} (a : α) (h : q.capacity ≤ q.length) :
    q.push a = (.dropped, q) := if_neg (Nat.not_lt.2 h)

/-- `push` drops just where `capacity` items wait. -/
theorem push_dropped_iff (q : WorkQueue α) (a : α) :
    (q.push a).1 = .dropped ↔ q.capacity ≤ q.length := by
  rw [push, length]
  split
  · next h => simp [h]
  · next h => simp [Nat.le_of_not_lt h]

/-- `push` keeps the number of items within `capacity`. -/
theorem length_push_le (q : WorkQueue α) (a : α) (h : q.length ≤ q.capacity) :
    (q.push a).2.length ≤ (q.push a).2.capacity := by
  rw [push]
  split
  · next hlt =>
    rw [length, List.length_append]
    exact hlt
  · exact h

theorem capacity_push (q : WorkQueue α) (a : α) : (q.push a).2.capacity = q.capacity := by
  rw [push]
  split <;> rfl

theorem capacity_take (q : WorkQueue α) : q.take.2.capacity = q.capacity := by
  rw [take]
  split <;> rfl

theorem length_take_le (q : WorkQueue α) : q.take.2.length ≤ q.length := by
  rw [take]
  split
  · exact Nat.le_refl _
  · next h =>
    rw [length, length, h]
    exact Nat.le_succ _

/-- What `takeMany` takes, and behind it what stays, are the items of `q`. -/
theorem takeMany_append (q : WorkQueue α) (n : Nat) :
    (q.takeMany n).1 ++ (q.takeMany n).2.items = q.items := List.take_append_drop n q.items

section Take

variable {q q' : WorkQueue α} {a : α}

/-- Where `take` finds nothing, nothing waits. -/
theorem items_of_none (h : q.take = (none, q')) : q.items = [] := by
  unfold take at h
  split at h
  · next hitems => exact hitems
  · cases h

/-- An item that `take` finds is the oldest one. -/
theorem items_of_some (h : q.take = (some a, q')) :
    q.items = a :: q'.items ∧ q'.capacity = q.capacity := by
  unfold take at h
  split at h
  · cases h
  · next hitems =>
    cases h
    exact ⟨hitems, rfl⟩

/-- Where `take` finds nothing, `takeMany` changes nothing. -/
theorem takeMany_of_none (h : q.take = (none, q')) (n : Nat) : q.takeMany n = ([], q) := by
  have hitems := items_of_none h
  unfold takeMany
  rw [hitems, List.take_nil, List.drop_nil, ← hitems]

/-- `takeMany (n + 1)` is `take`, and then `takeMany n`. -/
theorem takeMany_of_some (h : q.take = (some a, q')) (n : Nat) :
    q.takeMany (n + 1) = (a :: (q'.takeMany n).1, (q'.takeMany n).2) := by
  obtain ⟨hitems, hcapacity⟩ := items_of_some h
  unfold takeMany
  rw [hitems, hcapacity]
  rfl

end Take

end WorkQueue

/-- A queue with its takers: those that are `waiting`, and the `holder`, if one of them has the
right to take. -/
structure SharedQueue (α : Type) where
  queue : WorkQueue α
  waiting : List Nat
  holder : Option Nat

namespace SharedQueue

variable {α : Type}

/-- `q` with nobody waiting. -/
def ofQueue (q : WorkQueue α) : SharedQueue α := ⟨q, [], none⟩

/-- What a party can do with the queue. A taker that waits goes through `startWaiting`, `acquire`,
and `receive` or `giveUp`. -/
inductive Action (α : Type) where
  | push (a : α)
  | tryTake
  | startWaiting (taker : Nat)
  | acquire (taker : Nat)
  | receive (taker : Nat)
  | giveUp (taker : Nat)

/-- What an `Action` yields. -/
inductive Result (α : Type) where
  | pushed (p : Pushed)
  | item (a : α)
  | nothing

/-- Takes an item at once; none where somebody is `holder`. -/
def tryTake (s : SharedQueue α) : Option α × SharedQueue α :=
  match s.holder with
  | some _ => (none, s)
  | none =>
    let (a, q) := s.queue.take
    (a, { s with queue := q })

/-- `taker` no longer waits, and is not `holder` any more. -/
def leave (s : SharedQueue α) (taker : Nat) : SharedQueue α :=
  { s with
    waiting := s.waiting.erase taker
    holder := if s.holder = some taker then none else s.holder }

/-- Does an action; `none` where it is not possible in `s`: `startWaiting` twice, `acquire`
without waiting or while there is a `holder`, `receive` by another or from an empty queue,
`giveUp` without waiting. -/
def act (s : SharedQueue α) : Action α → Option (Result α × SharedQueue α)
  | .push a =>
    let (p, q) := s.queue.push a
    some (.pushed p, { s with queue := q })
  | .tryTake =>
    match s.tryTake with
    | (some a, s) => some (.item a, s)
    | (none, s) => some (.nothing, s)
  | .startWaiting taker =>
    if taker ∈ s.waiting then none
    else some (.nothing, { s with waiting := s.waiting ++ [taker] })
  | .acquire taker =>
    if taker ∈ s.waiting ∧ s.holder = none then some (.nothing, { s with holder := some taker })
    else none
  | .receive taker =>
    if s.holder = some taker then
      match s.queue.take with
      | (some a, q) => some (.item a, { s with queue := q }.leave taker)
      | (none, _) => none
    else none
  | .giveUp taker => if taker ∈ s.waiting then some (.nothing, s.leave taker) else none

/-- `act` where that is possible, and nothing otherwise. -/
def perform (s : SharedQueue α) (a : Action α) : Result α × SharedQueue α :=
  (s.act a).getD (.nothing, s)

/-- The item that a result delivers. -/
def Result.item? : Result α → Option α
  | .item a => some a
  | _ => none

/-- `taker` comes to wait: `startWaiting`, `acquire`, and `receive`. -/
def arrive (s : SharedQueue α) (taker : Nat) : Option α × SharedQueue α :=
  let s := (s.perform (.startWaiting taker)).2
  let s := (s.perform (.acquire taker)).2
  let (r, s) := s.perform (.receive taker)
  (r.item?, s)

/-- `receive` for a `taker` that waits, and `giveUp` where that yields no item. -/
def settle (s : SharedQueue α) (taker : Nat) : Option α × SharedQueue α :=
  let (r, s) := s.perform (.receive taker)
  match r.item? with
  | some a => (some a, s)
  | none => (none, (s.perform (.giveUp taker)).2)

end SharedQueue
end ClipLedger
