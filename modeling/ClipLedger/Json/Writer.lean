import ClipLedger.Json.Basic
import ClipLedger.Text.Hex

/-
  Writing JSON. Two layouts: one without any blanks, and one with a line for each item and two
  blanks of indentation for each level. Characters above U+007E are written as they are.
-/
namespace ClipLedger.Json

/-- The character `c` as it is written between quotes. -/
def escapeChar (c : Char) : Text :=
  if c = '"' then ['\\', '"']
  else if c = '\\' then ['\\', '\\']
  else if c = '\n' then ['\\', 'n']
  else if c = '\r' then ['\\', 'r']
  else if c = '\t' then ['\\', 't']
  else if c = '\x08' then ['\\', 'b']
  else if c = '\x0c' then ['\\', 'f']
  else if c.toNat < 0x20 then
    ['\\', 'u', '0', '0', Hex.digit (c.toNat / 16), Hex.digit (c.toNat % 16)]
  else [c]

/-- A text between quotes. -/
def quote (t : Text) : Text := '"' :: t.flatMap escapeChar ++ ['"']

mutual

/-- The value on one line without blanks. -/
def compact : Json → Text
  | .null => "null".toList
  | .bool b => (if b then "true" else "false").toList
  | .number digits => digits
  | .text t => quote t
  | .list items => '[' :: compactItems items ++ [']']
  | .object fields => '\x7b' :: compactFields fields ++ ['\x7d']

/-- Items with commas between them. -/
def compactItems : List Json → Text
  | [] => []
  | [v] => compact v
  | v :: rest => compact v ++ ',' :: compactItems rest

/-- Fields with commas between them. -/
def compactFields : List (Text × Json) → Text
  | [] => []
  | [(k, v)] => quote k ++ ':' :: compact v
  | (k, v) :: rest => quote k ++ ':' :: compact v ++ ',' :: compactFields rest

end

/-- A line end and the indentation of `level`. -/
def newLine (level : Nat) : Text := '\n' :: List.replicate (2 * level) ' '

mutual

/-- The value over several lines, where it stands at the indentation `level`. -/
def prettyAt (level : Nat) : Json → Text
  | .list [] => ['[', ']']
  | .object [] => ['\x7b', '\x7d']
  | .list items => '[' :: prettyItems (level + 1) items ++ newLine level ++ [']']
  | .object fields => '\x7b' :: prettyFields (level + 1) fields ++ newLine level ++ ['\x7d']
  | .null => "null".toList
  | .bool b => (if b then "true" else "false").toList
  | .number digits => digits
  | .text t => quote t

/-- Items, each on a line of its own at the indentation `level`. -/
def prettyItems (level : Nat) : List Json → Text
  | [] => []
  | [v] => newLine level ++ prettyAt level v
  | v :: rest => newLine level ++ prettyAt level v ++ ',' :: prettyItems level rest

/-- Fields, each on a line of its own at the indentation `level`. -/
def prettyFields (level : Nat) : List (Text × Json) → Text
  | [] => []
  | [(k, v)] => newLine level ++ quote k ++ ':' :: ' ' :: prettyAt level v
  | (k, v) :: rest =>
    newLine level ++ quote k ++ ':' :: ' ' :: prettyAt level v ++ ',' :: prettyFields level rest

end

/-- The value over several lines. -/
def pretty (v : Json) : Text := prettyAt 0 v

end ClipLedger.Json
