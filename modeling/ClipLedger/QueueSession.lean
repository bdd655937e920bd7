import ClipLedger.Model.Retry
import ClipLedger.WorkQueue

/-
  A session in which parties use a shared queue one after the other, or two of them side by side.
  Whoever has nothing to do rests, until its timer ends or it is called. A taker that finds nothing
  leaves word, and the next item that is queued calls. A call that comes while everybody is busy
  is not lost: it cuts the next rest short.

  Two parties side by side go in turns. The taker goes first, then, when they are resumed from a
  rest, the other party, then the taker again. This decides who is first where two timers end at
  the same instant.
-/
namespace ClipLedger

/-- A queue in use. `wordLeft`: a taker has found nothing and is to be called. `called`: it was,
since the last `rest`. -/
structure QueueSession (α : Type) where
  shared : SharedQueue α
  wordLeft : Bool
  called : Bool

namespace QueueSession

variable {α : Type}

/-- A session at its start. -/
def ofQueue (q : WorkQueue α) : QueueSession α := ⟨.ofQueue q, false, false⟩

/-- Everybody rests and is resumed, which uses up a call. -/
def rest (s : QueueSession α) : QueueSession α := { s with called := false }

/-- A `rest` of some `span`, which is none where `span = 0`. -/
def restFor (s : QueueSession α) (span : Nat) : QueueSession α := if span = 0 then s else s.rest

/-- Puts `a` in the queue. Where it is queued and `wordLeft`, the taker is called. -/
def push (s : QueueSession α) (a : α) : Pushed × QueueSession α :=
  match s.shared.queue.push a with
  | (.queued, q) =>
    (.queued, ⟨{ s.shared with queue := q }, false, s.called || s.wordLeft⟩)
  | (.dropped, _) => (.dropped, s)

theorem shared_restFor (s : QueueSession α) (span : Nat) : (s.restFor span).shared = s.shared := by
  rw [restFor]
  split <;> rfl

/-- `SharedQueue.tryTake`. -/
def tryTake (s : QueueSession α) : Option α × QueueSession α :=
  let (a, shared) := s.shared.tryTake
  (a, { s with shared := shared })

/-- `SharedQueue.arrive`; `taker` leaves word where it finds nothing. -/
def arrive (s : QueueSession α) (taker : Nat) : Option α × QueueSession α :=
  match s.shared.arrive taker with
  | (some a, shared) => (some a, { s with shared := shared })
  | (none, shared) => (none, { s with shared := shared, wordLeft := true })

/-- `SharedQueue.settle`: `taker` takes what has come, or gives up. -/
def collect (s : QueueSession α) (taker : Nat) : Option α × QueueSession α :=
  let (a, shared) := s.shared.settle taker
  (a, { s with shared := shared })

/-- `taker` looks once more and gives up. Looking leaves word again. -/
def giveUp (s : QueueSession α) (taker : Nat) : QueueSession α :=
  { (s.collect taker).2 with wordLeft := true }

/-- `taker` waits up to `timeout` while nobody pushes. -/
def pop (s : QueueSession α) (taker timeout : Nat) : Option α × QueueSession α :=
  match s.arrive taker with
  | (some a, s) => (some a, s)
  | (none, s) => (none, (s.restFor timeout).giveUp taker)

/-- A `taker` that found nothing waits up to `timeout`, and the other party pushes `a` after
`delay`, both not zero. Where the two timers end at one instant, `called` decides whose turn it
is: a call resumes both once before the first timer ends. -/
def meet (s : QueueSession α) (taker timeout delay : Nat) (a : α) :
    Option α × Pushed × QueueSession α :=
  let otherFirst := !s.called
  let s := s.rest
  if delay < timeout ∨ (delay = timeout ∧ otherFirst) then
    let (p, s) := s.push a
    let s := if otherFirst then s else s.rest
    let (taken, s) := s.collect taker
    (taken, p, s)
  else
    let s := s.giveUp taker
    let (p, s) := s.push a
    (none, p, s)

/-- `taker` waits up to `timeout`, and another party pushes `a` after `delay`: what the taker got,
and what became of `a`. -/
def popDuringPush (s : QueueSession α) (taker timeout delay : Nat) (a : α) :
    Option α × Pushed × QueueSession α :=
  let timeout := Span.timed timeout
  let delay := Span.timed delay
  match s.arrive taker with
  | (some first, s) =>
    let (p, s) := (s.restFor delay).push a
    (some first, p, s)
  | (none, s) =>
    if timeout = 0 then
      let (p, s) := ((s.giveUp taker).restFor delay).push a
      (none, p, s)
    else if delay = 0 then
      let (p, s) := s.push a
      let (taken, s) := s.rest.collect taker
      (taken, p, s)
    else s.meet taker timeout delay a

/-- While `taker` waits up to `timeout`, another party pushes `a` and at once tries to take: what
the taker got, and what the other party got. -/
def tryDuringPop (s : QueueSession α) (taker timeout : Nat) (a : α) :
    Option α × Option α × QueueSession α :=
  match s.arrive taker with
  | (some first, s) =>
    let (tried, s) := (s.push a).2.tryTake
    (some first, tried, s)
  | (none, s) =>
    if timeout = 0 then
      let (tried, s) := ((s.giveUp taker).push a).2.tryTake
      (none, tried, s)
    else
      let (tried, s) := (s.push a).2.tryTake
      let (taken, s) := s.rest.collect taker
      (taken, tried, s)

end QueueSession
end ClipLedger
