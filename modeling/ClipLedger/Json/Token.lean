import ClipLedger.Json.Basic
import ClipLedger.Text.Hex

/-
  The tokens of JSON text. Layout between tokens is dropped, the escapes inside a text are
  resolved, and a number is kept as written. Characters below U+0020 may not stand inside a
  text, and an escaped surrogate has to be one half of a pair.
-/
namespace ClipLedger.Json

/-- A token: a sign of the structure, or a value that has no parts. -/
inductive Token where
  | openList
  | closeList
  | openObject
  | closeObject
  | comma
  | colon
  | text (t : Text)
  | number (digits : Text)
  | bool (b : Bool)
  | null
  deriving DecidableEq

/-- The four characters that may stand between tokens. -/
def isLayout (c : Char) : Bool := c == ' ' || c == '\n' || c == '\t' || c == '\r'

/-- The character that `c` stands for behind a backslash. -/
def plainEscape? (c : Char) : Option Char :=
  if c = '"' then some '"'
  else if c = '\\' then some '\\'
  else if c = '/' then some '/'
  else if c = 'b' then some '\x08'
  else if c = 'f' then some '\x0c'
  else if c = 'n' then some '\n'
  else if c = 'r' then some '\r'
  else if c = 't' then some '\t'
  else none

/-- One step inside a text: a character, or a code unit of UTF-16 that was escaped with `u`. -/
inductive Unit16 where
  | char (c : Char)
  | escaped (n : Nat)
  deriving DecidableEq

/-- Puts `u` in front of the units that were read up to a closing quote. -/
def Unit16.prepend (u : Unit16) : List Unit16 × Text → List Unit16 × Text
  | (us, rest) => (u :: us, rest)

/-- Reads up to the closing quote, and answers the units and what follows the quote. -/
def scanUnits : Text → Option (List Unit16 × Text)
  | [] => none
  | '"' :: rest => some ([], rest)
  | '\\' :: 'u' :: a :: b :: c :: d :: rest =>
    match Hex.number? [a, b, c, d] with
    | none => none
    | some n => (scanUnits rest).map (Unit16.escaped n).prepend
  | '\\' :: c :: rest =>
    match plainEscape? c with
    | none => none
    | some e => (scanUnits rest).map (Unit16.char e).prepend
  | c :: rest =>
    if c.toNat < 0x20 ∨ c = '\\' then none else (scanUnits rest).map (Unit16.char c).prepend

/-- Whether the unit `n` is the first half of a surrogate pair. -/
def isHighSurrogate (n : Nat) : Bool := 0xD800 ≤ n && n ≤ 0xDBFF

/-- Whether the unit `n` is the second half of a surrogate pair. -/
def isLowSurrogate (n : Nat) : Bool := 0xDC00 ≤ n && n ≤ 0xDFFF

/-- The character that the halves `high` and `low` stand for. -/
def ofSurrogates (high low : Nat) : Char :=
  Char.ofNat (0x10000 + (high - 0xD800) * 1024 + (low - 0xDC00))

/-- The text that the units spell; `none` where a surrogate lacks its other half. -/
def joinUnits : List Unit16 → Option Text
  | [] => some []
  | .char c :: rest => (joinUnits rest).map (c :: ·)
  | .escaped n :: rest =>
    if isLowSurrogate n then none
    else if isHighSurrogate n then
      match rest with
      | .escaped low :: rest =>
        if isLowSurrogate low then (joinUnits rest).map (ofSurrogates n low :: ·) else none
      | _ => none
    else (joinUnits rest).map (Char.ofNat n :: ·)

/-- The characters that occur in numbers. -/
def isNumberChar (c : Char) : Bool :=
  c.isDigit || c == '-' || c == '+' || c == '.' || c == 'e' || c == 'E'

/-- Drops the digits in front of `t`; `none` where there are none. -/
def someDigits? (t : Text) : Option Text :=
  match t with
  | c :: rest => if c.isDigit then some (rest.dropWhile Char.isDigit) else none
  | [] => none

/-- Whether the text is an exponent, or empty. -/
def isExponent : Text → Bool
  | [] => true
  | c :: rest =>
    if c = 'e' ∨ c = 'E' then
      let digits := match rest with
        | '+' :: r => r
        | '-' :: r => r
        | r => r
      someDigits? digits == some []
    else false

/-- Whether the text can follow the whole part of a number: a fraction, an exponent, both or
neither. -/
def isFraction : Text → Bool
  | '.' :: rest =>
    match someDigits? rest with
    | some r => isExponent r
    | none => false
  | t => isExponent t

/-- Whether `t` is a number: an optional minus, a whole part without leading zeros, and what
`isFraction` allows. -/
def isNumber (t : Text) : Bool :=
  let t := match t with
    | '-' :: r => r
    | r => r
  match t with
  | '0' :: rest => isFraction rest
  | c :: rest => c.isDigit && isFraction (rest.dropWhile Char.isDigit)
  | [] => false

/-- The token of the sign `c`, if it is one of the six of the structure. -/
def sign? (c : Char) : Option Token :=
  if c = '[' then some .openList
  else if c = ']' then some .closeList
  else if c = '\x7b' then some .openObject
  else if c = '\x7d' then some .closeObject
  else if c = ',' then some .comma
  else if c = ':' then some .colon
  else none

/-- The token of `null`, `true` or `false`. -/
def word? (t : Text) : Option Token :=
  if t = "null".toList then some .null
  else if t = "true".toList then some (.bool true)
  else if t = "false".toList then some (.bool false)
  else none

/-- Whether `c` can stand in a word. -/
def isWordChar (c : Char) : Bool := c.isLower

theorem length_scanUnits {s rest : Text} {us : List Unit16} (h : scanUnits s = some (us, rest)) :
    rest.length < s.length := by
  fun_induction scanUnits s generalizing us rest <;>
    simp only [Option.map_eq_some_iff, Option.some.injEq, Prod.mk.injEq, Prod.exists,
      reduceCtorEq, Unit16.prepend] at h
  case case2 r => simp [← h.2]
  case case4 ih | case6 ih | case8 ih =>
    obtain ⟨_, _, hr, _, rfl⟩ := h
    have := ih hr
    simp only [List.length_cons]
    omega

/-- The tokens of a text; `none` where some part of it is no token. -/
def tokens : Text → Option (List Token)
  | [] => some []
  | c :: rest =>
    if isLayout c then tokens rest
    else match sign? c with
      | some token => (tokens rest).map (token :: ·)
      | none =>
        if c = '"' then
          match h : scanUnits rest with
          | none => none
          | some (us, after) =>
            have := length_scanUnits h
            match joinUnits us with
            | none => none
            | some t => (tokens after).map (.text t :: ·)
        else if isNumberChar c then
          have := Text.length_dropWhile_le isNumberChar rest
          let digits := c :: rest.takeWhile isNumberChar
          if isNumber digits then
            (tokens (rest.dropWhile isNumberChar)).map (.number digits :: ·)
          else none
        else
          have := Text.length_dropWhile_le isWordChar rest
          match word? (c :: rest.takeWhile isWordChar) with
          | none => none
          | some token => (tokens (rest.dropWhile isWordChar)).map (token :: ·)
termination_by s => s.length

end ClipLedger.Json
