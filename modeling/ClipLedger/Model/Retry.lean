/-
  Trying again: an operation gets a number of attempts with a pause between them. The first
  success ends it, and so does the failure of the last attempt. Spans are in milliseconds; a timer
  runs for thirty years at most (`Span.longest`), a year being 365 days.
-/
namespace ClipLedger

namespace Span

/-- The longest span of a timer, thirty years in milliseconds. -/
def longest : Nat := 30 * 365 * 24 * 60 * 60 * 1000

/-- How long a timer runs that is set to `span`: no longer than `longest`. -/
def timed (span : Nat) : Nat := min span longest

end Span

/-- What breaks work off without an answer: a breakdown of the client, or a deadline that
comes. -/
inductive Halt where
  | breakdown
  | overdue
  deriving DecidableEq, Repr

/-- How one attempt ends: with a value, with an error, or by breaking off. -/
inductive Attempt (ε α : Type) where
  | success (a : α)
  | failure (e : ε)
  | halted (h : Halt)

/-- How many attempts an operation gets, the first one included, and the `delay` between them. -/
structure RetryPolicy where
  attempts : Nat
  delay : Nat
  deriving DecidableEq, Repr

namespace RetryPolicy

/-- A policy with `attempts` attempts, but at least one. -/
def of (attempts delay : Nat) : RetryPolicy := ⟨max attempts 1, delay⟩

/-- How long the timer between two attempts runs. -/
def pause (p : RetryPolicy) : Nat := Span.timed p.delay

variable {σ ε α : Type}

/-- An attempt, and up to as many further ones as the number says while they fail. `pause` lets the
time between two attempts go by, or answers `none` where the deadline comes before. -/
def tryAgain (operate : σ → Attempt ε α × σ) (pause : σ → Option σ) :
    Nat → σ → Attempt ε α × σ
  | 0, s => operate s
  | n + 1, s =>
    match operate s with
    | (.failure _, s) =>
      match pause s with
      | none => (.halted .overdue, s)
      | some s => tryAgain operate pause n s
    | result => result

/-- The attempts of the policy, with `p.pause` between them, which `wait` lets go by. -/
def run (p : RetryPolicy) (operate : σ → Attempt ε α × σ) (wait : Nat → σ → Option σ) (s : σ) :
    Attempt ε α × σ :=
  tryAgain operate (wait p.pause) (p.attempts - 1) s

end RetryPolicy
end ClipLedger
