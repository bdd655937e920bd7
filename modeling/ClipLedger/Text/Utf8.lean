import ClipLedger.Text.Basic

/-
  UTF-8: the bytes of a text, the text of well formed bytes, and a reading of any bytes in
  which each maximal invalid part becomes one replacement character U+FFFD.
-/
namespace ClipLedger

/-- Content as it is stored: a sequence of bytes. -/
abbrev Bytes := List UInt8

namespace Utf8

/-- The bytes of `c`, one to four. -/
def encodeChar (c : Char) : Bytes :=
  let n := c.toNat
  if n < 0x80 then [UInt8.ofNat n]
  else if n < 0x800 then [UInt8.ofNat (0xC0 + n / 64), UInt8.ofNat (0x80 + n % 64)]
  else if n < 0x10000 then
    [UInt8.ofNat (0xE0 + n / 4096), UInt8.ofNat (0x80 + n / 64 % 64), UInt8.ofNat (0x80 + n % 64)]
  else
    [UInt8.ofNat (0xF0 + n / 262144), UInt8.ofNat (0x80 + n / 4096 % 64),
      UInt8.ofNat (0x80 + n / 64 % 64), UInt8.ofNat (0x80 + n % 64)]

/-- The bytes of `t`. -/
def encode (t : Text) : Bytes := t.flatMap encodeChar

/-- Whether `b` is in the range from `lo` to `hi`. -/
def within (lo hi : Nat) (b : UInt8) : Bool := lo ≤ b.toNat && b.toNat ≤ hi

/-- How many tail bytes follow a leading byte, and the range allowed for the first of them. -/
structure Lead where
  tails : Nat
  low : Nat
  high : Nat

/-- What a byte above 7F announces; `none` where no sequence begins with it. The narrowed ranges
keep out overlong forms, surrogates and values above 10FFFF. -/
def lead? (b : UInt8) : Option Lead :=
  let n := b.toNat
  if 0xC2 ≤ n && n ≤ 0xDF then some ⟨1, 0x80, 0xBF⟩
  else if n == 0xE0 then some ⟨2, 0xA0, 0xBF⟩
  else if n == 0xED then some ⟨2, 0x80, 0x9F⟩
  else if 0xE1 ≤ n && n ≤ 0xEF then some ⟨2, 0x80, 0xBF⟩
  else if n == 0xF0 then some ⟨3, 0x90, 0xBF⟩
  else if n == 0xF4 then some ⟨3, 0x80, 0x8F⟩
  else if 0xF1 ≤ n && n ≤ 0xF3 then some ⟨3, 0x80, 0xBF⟩
  else none

/-- The six bits that a tail byte carries. -/
def tailBits (b : UInt8) : Nat := b.toNat % 64

/-- Where the reader stands: at the start of a character, or inside a sequence with the value so
far, the number of bytes still to come and the range allowed for the next one. -/
inductive Mode where
  | start
  | inside (value : Nat) (wanted : Nat) (low high : Nat)

/-- One decoded part: a character, or bytes that form none. -/
inductive Part where
  | char (c : Char)
  | invalid
  deriving DecidableEq

/-- Reads `b` at the start of a character. -/
def begin (b : UInt8) : List Part × Mode :=
  if b.toNat < 0x80 then ([.char (Char.ofNat b.toNat)], .start)
  else match lead? b with
    | none => ([.invalid], .start)
    | some l =>
      let bits := match l.tails with
        | 1 => b.toNat % 32
        | 2 => b.toNat % 16
        | _ => b.toNat % 8
      ([], .inside bits l.tails l.low l.high)

/-- Reads one byte. A byte that cannot continue the sequence ends it as invalid and is read again by
`begin`. -/
def step : Mode → UInt8 → List Part × Mode
  | .start, b => begin b
  | .inside value wanted low high, b =>
    if within low high b then
      let value := value * 64 + tailBits b
      if wanted ≤ 1 then ([.char (Char.ofNat value)], .start)
      else ([], .inside value (wanted - 1) 0x80 0xBF)
    else
      let (out, mode) := begin b
      (.invalid :: out, mode)

/-- The parts of bytes that are read in a mode. An unfinished sequence at the end is one invalid
part. -/
def partsFrom : Mode → Bytes → List Part
  | .start, [] => []
  | .inside .., [] => [.invalid]
  | mode, b :: rest =>
    let (out, mode) := step mode b
    out ++ partsFrom mode rest

/-- The parts of `bytes`. -/
def parts (bytes : Bytes) : List Part := partsFrom .start bytes

/-- The text of the parts, if none is invalid. -/
def textOf? : List Part → Option Text
  | [] => some []
  | .char c :: rest => (textOf? rest).map (c :: ·)
  | .invalid :: _ => none

/-- The text that `bytes` encode; `none` where they are not UTF-8. -/
def decode? (bytes : Bytes) : Option Text := textOf? (parts bytes)

/-- The text of `bytes`, with U+FFFD for each invalid part. -/
def decodeLossy (bytes : Bytes) : Text :=
  (parts bytes).map fun
    | .char c => c
    | .invalid => '\uFFFD'

end Utf8
end ClipLedger
