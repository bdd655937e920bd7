import ClipLedger.Decimal.Shortest

/-
  The written form of binary64 numbers: the shortest digits that read back, with a point or an
  exponent always present. Numbers whose leading digit stands for `10 ^ e` are written out when
  `e` is from -5 to 15, and with an exponent otherwise.
-/
namespace ClipLedger.Decimal

/-- A binary64 number taken apart: `m * 2 ^ q` with its sign, or no finite number. -/
inductive Parts where
  | zero (negative : Bool)
  | finite (negative : Bool) (m : Nat) (q : Int) (leastExponent : Bool)
  | infinite (negative : Bool)
  | notANumber

/-- The parts that the 64 bits of a number stand for. -/
def Parts.ofBits (bits : Nat) : Parts :=
  let negative := bits / Nat.pow 2 63 % 2 = 1
  let biased : Nat := bits / Nat.pow 2 52 % 2048
  let low : Nat := bits % Nat.pow 2 52
  if biased = 2047 then if low = 0 then .infinite negative else .notANumber
  else if biased = 0 then if low = 0 then .zero negative else .finite negative low (-1074) true
  else .finite negative (Nat.pow 2 52 + low) ((biased : Int) - 1075) (biased = 1)

/-- The digits of `n` times `10 ^ e`, written out with a point, or with an exponent where the
leading digit is far from it. -/
def layout (n : Nat) (e : Int) : Text :=
  let digits := Nat.toDigits 10 n
  let lead : Int := e + digits.length - 1
  if -5 ≤ lead ∧ lead < 0 then
    "0.".toList ++ List.replicate (-lead - 1).toNat '0' ++ digits
  else if 0 ≤ lead ∧ lead < 16 then
    let whole := (lead + 1).toNat
    if 0 ≤ e then digits ++ List.replicate e.toNat '0' ++ ".0".toList
    else digits.take whole ++ '.' :: digits.drop whole
  else
    let significand := match digits with
      | [d] => [d]
      | d :: rest => d :: '.' :: rest
      | [] => []
    let exponent :=
      if lead < 0 then '-' :: Text.ofNat lead.natAbs else '+' :: Text.ofNat lead.natAbs
    significand ++ 'e' :: exponent

/-- Writes a minus in front of `t` if `negative`. -/
def signed (negative : Bool) (t : Text) : Text := if negative then '-' :: t else t

/-- The written form of the `shortest` decimal; `none` for infinities and what is no number. -/
def Parts.text? : Parts → Option Text
  | .zero negative => some (signed negative "0.0".toList)
  | .finite negative m q least =>
    let (n, e) := shortest m q least
    some (signed negative (layout n e))
  | .infinite _ => none
  | .notANumber => none

/-- The written form of `x`; `none` where `x` is not finite. -/
def text? (x : Float) : Option Text := (Parts.ofBits x.toBits.toNat).text?

end ClipLedger.Decimal
