import ClipLedger.Decimal.Basic
import ClipLedger.Text.Hex

/-
  TOML values, and how numbers are spelled in them: whole numbers of 64 bits in four bases, and
  finite binary64 numbers. Single underscores may stand between digits, and decimal whole parts
  have no leading zeros.
-/
namespace ClipLedger

/-- A TOML value. Dates and times are not looked into. -/
inductive Toml where
  | text (t : Text)
  | integer (n : Int)
  | float (x : Float)
  | bool (b : Bool)
  | datetime
  | list (items : List Toml)
  | table (pairs : List (Text × Toml))

namespace Toml

/-- Whether `c` is a digit of `base`, which is at most sixteen. -/
def isDigitOf (base : Nat) (c : Char) : Bool :=
  match Hex.value? c with
  | some n => n < base
  | none => false

/-- Where the reader of digits stands, seen from the characters before. -/
inductive DigitMode where
  | first
  | afterZero
  | afterDigit
  | afterUnderscore (leadingZero : Bool)
  | afterZeros

/-- Reads digits of `base`: the digits without underscores, and what follows them. At least one
digit is needed, and none may follow a leading zero unless `zeros` allows it. -/
def digits? (base : Nat) (zeros : Bool) : DigitMode → Text → Option (Text × Text)
  | .first, [] => none
  | .afterUnderscore _, [] => none
  | _, [] => some ([], [])
  | mode, c :: rest =>
    let add next := (digits? base zeros next rest).map fun (ds, after) => (c :: ds, after)
    if isDigitOf base c then
      match mode with
      | .first => add (if c = '0' then .afterZero else .afterDigit)
      | .afterZero => if zeros then add .afterZeros else none
      | .afterUnderscore true => if zeros then add .afterZeros else none
      | .afterZeros => add .afterZeros
      | _ => add .afterDigit
    else
      match mode with
      | .first => none
      | .afterUnderscore _ => none
      | .afterZero =>
        if c = '_' then digits? base zeros (.afterUnderscore true) rest else some ([], c :: rest)
      | .afterZeros =>
        if c = '_' then digits? base zeros (.afterUnderscore true) rest else some ([], c :: rest)
      | .afterDigit =>
        if c = '_' then digits? base zeros (.afterUnderscore false) rest else some ([], c :: rest)

/-- Decimal digits behind an optional sign. -/
def signedDigits? (zeros : Bool) : Text → Option (Text × Text)
  | '-' :: rest => (digits? 10 zeros .first rest).map fun (ds, after) => ('-' :: ds, after)
  | t => digits? 10 zeros .first t

/-- `n` as a value, if it has 64 bits with its sign. -/
def inRange (n : Int) : Option Toml :=
  if -Int.ofNat (Nat.pow 2 63) ≤ n ∧ n < Int.ofNat (Nat.pow 2 63) then some (.integer n) else none

/-- A whole number in `base`, without sign. -/
def based? (base : Nat) (t : Text) : Option Toml :=
  match digits? base true .first t with
  | some (ds, []) =>
    inRange (ds.foldl (fun n c => n * base + ((Hex.value? c).getD 0 : Nat)) (0 : Nat))
  | _ => none

/-- A decimal whole number. -/
def integer? (t : Text) : Option Toml :=
  match signedDigits? false t with
  | some (ds, []) => inRange (Decimal.signedValue ds)
  | _ => none

/-- The number that `whole`, `fraction` and `exponent` make, if it is finite. -/
def finite? (whole fraction exponent : Text) : Option Toml :=
  let x := (Decimal.ofDigits (whole ++ '.' :: fraction ++ 'e' :: exponent)).toFloat
  if x.isFinite then some (.float x) else none

end Toml
end ClipLedger
