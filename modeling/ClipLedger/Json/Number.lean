import ClipLedger.Json.Basic
import ClipLedger.Decimal.Basic
import ClipLedger.Decimal.Written

/-
  Numbers in JSON: how binary64 numbers are written, and which written numbers are in range.
-/
namespace ClipLedger.Json

/-- `x` in its shortest form, or `null` where it is not finite. -/
def ofFloat (x : Float) : Json :=
  match Decimal.text? x with
  | some digits => .number digits
  | none => .null

/-- The greatest significand that `takeDigits` takes in. -/
def significandLimit : Nat := Nat.pow 2 64 - 1

/-- Takes digits into a significand up to `significandLimit`; answers the significand, and how
many digits were left. -/
def takeDigits : Nat → Text → Nat × Nat
  | n, [] => (n, 0)
  | n, c :: rest =>
    let next := n * 10 + (c.toNat - 48)
    if significandLimit < next then (n, rest.length + 1) else takeDigits next rest

/-- The number nearest to `n` whose significand has 53 bits, a tie going to the even one. -/
def round53 (n : Nat) : Nat :=
  let drop := n.log2 - 52
  let unit := Nat.pow 2 drop
  let q := n / unit
  let r := n % unit
  if 2 * r < unit ∨ (2 * r = unit ∧ q % 2 = 0) then q * unit else (q + 1) * unit

/-- Whether the number written as `digits` is in the range of binary64. Digits beyond
`significandLimit` count for the magnitude only. -/
def numberInRange (digits : Text) : Bool :=
  let t := match digits with
    | '-' :: rest => rest
    | rest => rest
  let whole := t.takeWhile Char.isDigit
  let t := t.dropWhile Char.isDigit
  let (fraction, t) := match t with
    | '.' :: rest => (rest.takeWhile Char.isDigit, rest.dropWhile Char.isDigit)
    | rest => ([], rest)
  let written : Int := match t with
    | _ :: rest => Decimal.signedValue rest
    | [] => 0
  let (n, skipped) := takeDigits 0 whole
  let (n, ignored) := if skipped = 0 then takeDigits n fraction else (n, fraction.length)
  let exponent : Int := written + skipped - (fraction.length - ignored)
  n == 0 || exponent < 0 ||
    (exponent ≤ 308 &&
      round53 n * round53 (Nat.pow 10 exponent.toNat) < Nat.pow 2 1024 - Nat.pow 2 970)

/-- The greatest `depth` of a value from outside. -/
def depthLimit : Nat := 127

/-- Whether `v` respects `depthLimit` and all its numbers are `numberInRange`. -/
def withinLimits (v : Json) : Bool := v.depth ≤ depthLimit && v.numbersAll numberInRange

end ClipLedger.Json
