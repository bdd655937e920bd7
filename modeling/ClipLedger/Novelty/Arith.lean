/-
  The arithmetic that scores are computed in. Programs run on binary64 numbers; the laws of
  scoring are those of the exact fractions.
-/
namespace ClipLedger

/-- Numbers with the four operations and an order by which two numbers need not compare. -/
class Arith (α : Type) where
  ofNat : Nat → α
  add : α → α → α
  sub : α → α → α
  mul : α → α → α
  div : α → α → α
  less : α → α → Bool

instance : Arith Float where
  ofNat := Float.ofNat
  add := (· + ·)
  sub := (· - ·)
  mul := (· * ·)
  div := (· / ·)
  less a b := decide (a < b)

instance : Arith Rat where
  ofNat n := (n : Rat)
  add := (· + ·)
  sub := (· - ·)
  mul := (· * ·)
  div := (· / ·)
  less a b := decide (a < b)

end ClipLedger
