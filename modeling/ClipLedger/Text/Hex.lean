import ClipLedger.Text.Utf8

/-
  Lower-case hexadecimal: two digits a byte, and the value of a digit of either case.
-/
namespace ClipLedger.Hex

/-- The hexadecimal digit of `n`, for `n < 16`. -/
def digit (n : Nat) : Char := if n < 10 then Char.ofNat (48 + n) else Char.ofNat (87 + n)

/-- The value of the hexadecimal digit `c`, in either case. -/
def value? (c : Char) : Option Nat :=
  let n := c.toNat
  if 48 ≤ n ∧ n ≤ 57 then some (n - 48)
  else if 97 ≤ n ∧ n ≤ 102 then some (n - 87)
  else if 65 ≤ n ∧ n ≤ 70 then some (n - 55)
  else none

/-- The two digits of a byte. -/
def ofByte (b : UInt8) : Text := [digit (b.toNat / 16), digit (b.toNat % 16)]

/-- The digits of `bytes`, two for each. -/
def ofBytes (bytes : Bytes) : Text := bytes.flatMap ofByte

/-- The value of hexadecimal digits, the most significant first; `none` where one of them is
none. -/
def number? (digits : Text) : Option Nat :=
  digits.foldl (fun n c => n.bind fun n => (value? c).map (n * 16 + ·)) (some 0)

/-- The bytes that pairs of digits spell. -/
def bytes? : Text → Option Bytes
  | [] => some []
  | [_] => none
  | a :: b :: rest => do
    let high ← value? a
    let low ← value? b
    let more ← bytes? rest
    return UInt8.ofNat (high * 16 + low) :: more

/-- `value?` reads every `digit`. -/
theorem value?_digit : ∀ n < 16, value? (digit n) = some n := by decide

theorem length_ofBytes (bytes : Bytes) : (ofBytes bytes).length = 2 * bytes.length := by
  induction bytes with
  | nil => rfl
  | cons b bytes ih =>
    simp only [ofBytes, List.flatMap_cons, List.length_append, List.length_cons] at ih ⊢
    simp only [ofByte, List.length_cons, List.length_nil]
    omega

end ClipLedger.Hex
