import ClipLedger.Text.Basic

/-
  Decimal numbers: written digits with a point and an exponent, as a whole significand and a
  power of ten, and the nearest value in binary64.
-/
namespace ClipLedger

/-- The number `significand * 10 ^ exponent`, negated if `negative`. -/
structure Decimal where
  negative : Bool
  significand : Nat
  exponent : Int
  deriving DecidableEq, Repr

namespace Decimal

/-- The value of the decimal digits `t`, the most significant first; any other character counts
for its distance from `'0'`. -/
def digitsValue (t : Text) : Nat := t.foldl (fun n c => n * 10 + (c.toNat - 48)) 0

/-- The value of digits behind an optional sign. -/
def signedValue : Text → Int
  | '-' :: digits => -(digitsValue digits : Int)
  | '+' :: digits => digitsValue digits
  | digits => digitsValue digits

/-- The number spelled by `t`: an optional sign, digits with an optional point, and an optional
exponent. -/
def ofDigits (t : Text) : Decimal :=
  let (negative, t) := match t with
    | '-' :: rest => (true, rest)
    | '+' :: rest => (false, rest)
    | rest => (false, rest)
  let whole := t.takeWhile Char.isDigit
  let t := t.dropWhile Char.isDigit
  let (fraction, t) := match t with
    | '.' :: rest => (rest.takeWhile Char.isDigit, rest.dropWhile Char.isDigit)
    | rest => ([], rest)
  let exponent := match t with
    | _ :: rest => signedValue rest
    | [] => 0
  ⟨negative, digitsValue (whole ++ fraction), exponent - fraction.length⟩

/-- The number of decimal digits of `n`. -/
def width (n : Nat) : Nat := (Nat.toDigits 10 n).length

/-- The binary64 value nearest to `d`, a tie going to the even significand. It is infinite from
`10 ^ 310` on and zero below `10 ^ -330`, so that no larger powers are formed. -/
def toFloat (d : Decimal) : Float :=
  let magnitude : Int := d.exponent + width d.significand
  let x :=
    if d.significand = 0 ∨ magnitude < -330 then 0
    else if 311 < magnitude then Float.ofScientific 1 false 400
    else if d.exponent < 0 then Float.ofScientific d.significand true d.exponent.natAbs
    else Float.ofScientific d.significand false d.exponent.natAbs
  if d.negative then -x else x

end Decimal
end ClipLedger
