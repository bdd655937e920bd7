import ClipLedger.Text.Basic

/-
  The shortest decimal that reads back as a given binary number. The reals that round to
  `m * 2 ^ q` form an interval, closed exactly when `m` is even. Among the decimals with the
  fewest digits inside it, the one nearest to the number is taken, a tie going to the even digit.
-/
namespace ClipLedger.Decimal

/-- The fraction `num / den`. -/
structure Fraction where
  num : Nat
  den : Nat

/-- The number `n * 10 ^ e`. -/
def Fraction.ofScaled (n : Nat) (e : Int) : Fraction :=
  if 0 ≤ e then ⟨n * Nat.pow 10 e.toNat, 1⟩ else ⟨n, Nat.pow 10 (-e).toNat⟩

/-- The number `n * 2 ^ e`. -/
def Fraction.ofBinary (n : Nat) (e : Int) : Fraction :=
  if 0 ≤ e then ⟨n * Nat.pow 2 e.toNat, 1⟩ else ⟨n, Nat.pow 2 (-e).toNat⟩

def Fraction.less (a b : Fraction) : Bool := a.num * b.den < b.num * a.den

/-- The reals from `low` to `high`; the two ends belong to it if `closed`. -/
structure Interval where
  low : Fraction
  high : Fraction
  closed : Bool

def Interval.holds (i : Interval) (x : Fraction) : Bool :=
  if i.closed then !x.less i.low && !i.high.less x else i.low.less x && x.less i.high

/-- The reals that round to `m * 2 ^ q`. At `m = 2 ^ 52` the lower neighbour is closer, unless
`leastExponent` says that `q` is the least there is. -/
def roundingInterval (m : Nat) (q : Int) (leastExponent : Bool) : Interval :=
  let low := if m = Nat.pow 2 52 ∧ ¬leastExponent then 4 * m - 1 else 4 * m - 2
  ⟨.ofBinary low (q - 2), .ofBinary (4 * m + 2) (q - 2), m % 2 = 0⟩

/-- The greatest `n` with `n * 10 ^ e ≤ x`. -/
def Fraction.floorAt (x : Fraction) (e : Int) : Nat :=
  if 0 ≤ e then x.num / (x.den * Nat.pow 10 e.toNat) else x.num * Nat.pow 10 (-e).toNat / x.den

/-- Whether `x` is nearer to `n * 10 ^ e` than to `(n + 1) * 10 ^ e`, a tie going to the even
one. -/
def Fraction.nearerBelow (x : Fraction) (n : Nat) (e : Int) : Bool :=
  let middle := Fraction.ofScaled (10 * n + 5) (e - 1)
  x.less middle || (!middle.less x && n % 2 == 0)

/-- The best multiple of `10 ^ e` inside `i`: of the two around `x`, the one that `i` holds, or
the one `nearerBelow` tells if it holds both. -/
def onGrid? (x : Fraction) (i : Interval) (e : Int) : Option Nat :=
  let n := x.floorAt e
  match i.holds (.ofScaled n e), i.holds (.ofScaled (n + 1) e) with
  | true, true => some (if x.nearerBelow n e then n else n + 1)
  | true, false => some n
  | false, true => some (n + 1)
  | false, false => none

/-- Tries the grids `10 ^ e`, `10 ^ (e - 1)` and so on with `onGrid?`, and answers the first hit
with its exponent. -/
def search (x : Fraction) (i : Interval) : Nat → Int → Nat × Int
  | 0, e => (x.floorAt e, e)
  | n + 1, e =>
    match onGrid? x i e with
    | some d => (d, e)
    | none => search x i n (e - 1)

/-- An exponent `e` with `x < 10 ^ e`, from the numbers of digits of `x.num` and `x.den`. -/
def Fraction.above (x : Fraction) : Int :=
  (Nat.toDigits 10 x.num).length - (Nat.toDigits 10 x.den).length + 1

/-- Takes the zeros off the end of a number that is not zero, and raises the exponent for each of
them. -/
def withoutZeros : Nat → Nat × Int → Nat × Int
  | 0, d => d
  | fuel + 1, (n, e) => if n % 10 = 0 ∧ n ≠ 0 then withoutZeros fuel (n / 10, e + 1) else (n, e)

/-- The shortest decimal that rounds to `m * 2 ^ q`, for `0 < m`: its digits without zeros at the
end, and the power of ten that they are multiplied with. -/
def shortest (m : Nat) (q : Int) (leastExponent : Bool) : Nat × Int :=
  let x := Fraction.ofBinary m q
  withoutZeros 400 (search x (roundingInterval m q leastExponent) 22 x.above)

end ClipLedger.Decimal
