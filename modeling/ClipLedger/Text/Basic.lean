/-
  Text: sequences of characters, the blank characters, trimming and lines.
  A line ends at a line feed; one carriage return before it belongs to the line end.
  `truncate` cuts to a number of characters and marks what was cut with `truncationMarker`.
-/
namespace ClipLedger

/-- A sequence of Unicode scalar values. -/
abbrev Text := List Char

namespace Text

/-- What holds of all characters of a text is decided along the text, not over all there are. -/
instance (priority := high) decidableForall (p : Char → Prop) [DecidablePred p] (t : Text) :
    Decidable (∀ c ∈ t, p c) := List.decidableBAll p t

/-- Whether `c` has the Unicode property White_Space. -/
def isBlank (c : Char) : Bool :=
  let n := c.toNat
  (9 ≤ n && n ≤ 13) || n == 0x20 || n == 0x85 || n == 0xA0 || n == 0x1680 ||
    (0x2000 ≤ n && n ≤ 0x200A) || n == 0x2028 || n == 0x2029 || n == 0x202F ||
    n == 0x205F || n == 0x3000

/-- `t` without the blanks in front. -/
def trimStart (t : Text) : Text := t.dropWhile isBlank

/-- `t` without the blanks at the end. -/
def trimEnd (t : Text) : Text := (t.reverse.dropWhile isBlank).reverse

/-- `t` without the blanks at both ends. -/
def trim (t : Text) : Text := trimEnd (trimStart t)

/-- The pieces of a text, each cut off after its line feed; together they are the text. -/
def pieces : Text → List Text
  | [] => []
  | c :: rest =>
    if c = '\n' then [c] :: pieces rest
    else match pieces rest with
      | [] => [[c]]
      | p :: ps => (c :: p) :: ps

/-- A piece without its line end, which is a line feed that a carriage return may precede. -/
def withoutLineEnd : Text → Text
  | [] => []
  | ['\n'] => []
  | ['\r', '\n'] => []
  | c :: rest => c :: withoutLineEnd rest

/-- The lines of `t`. A line feed at the very end opens no further line. -/
def lines (t : Text) : List Text := (pieces t).map withoutLineEnd

/-- Both sides of the first `sep`, or `none` where it does not occur. -/
def splitFirst (sep : Char) : Text → Option (Text × Text)
  | [] => none
  | c :: rest =>
    if c = sep then some ([], rest)
    else (splitFirst sep rest).map fun (before, after) => (c :: before, after)

/-- What follows the first text in the second; `none` where the second does not begin with the
first. -/
def after? : Text → Text → Option Text
  | [], t => some t
  | _ :: _, [] => none
  | c :: start, d :: t => if c = d then after? start t else none

/-- The texts with `sep` between them. -/
def join (sep : Text) : List Text → Text
  | [] => []
  | [t] => t
  | t :: ts => t ++ sep ++ join sep ts

/-- The decimal digits of `n`. -/
def ofNat (n : Nat) : Text := Nat.toDigits 10 n

/-- `t` with its ASCII letters in lower case. -/
def asciiLower (t : Text) : Text := t.map Char.toLower

/-- Whether `s` and `t` differ at most in the case of ASCII letters. -/
def sameIgnoringCase (s t : Text) : Bool := asciiLower s == asciiLower t

/-- The order of texts by the first character that differs, a text before those it begins. -/
def less : Text → Text → Bool
  | _, [] => false
  | [], _ :: _ => true
  | a :: as, b :: bs => a.toNat < b.toNat || (a == b && less as bs)

theorem length_dropWhile_le (p : Char → Bool) (t : Text) :
    (t.dropWhile p).length ≤ t.length := (List.dropWhile_suffix p).length_le

theorem pieces_flatten (t : Text) : (pieces t).flatten = t := by
  induction t with
  | nil => rfl
  | cons c rest ih =>
    rw [pieces]
    split
    · simp [ih]
    · split
      · next h => rw [h] at ih; simp [← ih]
      · next h => rw [h] at ih; simp [← ih]

/-! ## Cutting to a budget -/

/-- What stands at the end of a text that was cut. -/
def truncationMarker : Text := "... [truncated]".toList

/-- At most `max` characters of `t`, followed by `truncationMarker` if there are more. -/
def truncate (max : Nat) (t : Text) : Text :=
  if t.length ≤ max then t else t.take max ++ truncationMarker

theorem truncate_of_le {max : Nat} {t : Text} (h : t.length ≤ max) : truncate max t = t :=
  if_pos h

theorem length_truncate_le (max : Nat) (t : Text) : (truncate max t).length ≤ max + 15 := by
  unfold truncate
  split
  · omega
  · have hm : truncationMarker.length = 15 := by decide
    rw [List.length_append, List.length_take, hm]
    omega

end Text
end ClipLedger
