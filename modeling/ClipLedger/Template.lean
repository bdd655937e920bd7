import ClipLedger.Failure
import ClipLedger.Json.Number

/-
  Text templates. A name or a dotted path in braces is replaced by its value in a context, a
  backslash before an opening brace makes the brace literal, and all else stands for itself.
  Inserted values are not read again.
-/
namespace ClipLedger

/-- A part of a template: literal text, or the path of a value. -/
inductive Template.Part where
  | literal (t : Text)
  | value (path : List Text)
  deriving DecidableEq

/-- A template is a sequence of parts. -/
structure Template where
  parts : List Template.Part

namespace Template

def brace : Char := '\x7b'

def closingBrace : Char := '\x7d'

/-- Puts the literal `c` in front of the parts. -/
def consLiteral (c : Char) : List Part → List Part
  | .literal t :: rest => .literal (c :: t) :: rest
  | rest => .literal [c] :: rest

/-- The steps of the dotted path written as `inside`. -/
def path (inside : Text) : List Text := (Text.trim inside).splitOn '.'

/-- Where the reader stands: in literal text, or inside braces behind what was read there. -/
inductive Mode where
  | literal
  | inside (read : Text)

/-- Reads the parts in a mode. The closing brace has to stand on the line of the opening one. -/
def readFrom : Mode → Text → Except TemplateError (List Part)
  | .literal, [] => .ok []
  | .inside _, [] => .error .malformed
  | .literal, '\\' :: c :: rest =>
    if c = brace then (readFrom .literal rest).map (consLiteral brace)
    else (readFrom .literal (c :: rest)).map (consLiteral '\\')
  | .literal, c :: rest =>
    if c = brace then readFrom (.inside []) rest
    else (readFrom .literal rest).map (consLiteral c)
  | .inside read, c :: rest =>
    if c = closingBrace then (readFrom .literal rest).map (.value (path read) :: ·)
    else if c = '\n' then .error .malformed
    else readFrom (.inside (read ++ [c])) rest

def read (t : Text) : Except TemplateError Template := (readFrom .literal t).map Template.mk

/-- The place in a list that `step` names: digits with at most a plus in front. -/
def index? (step : Text) : Option Nat :=
  let digits := match step with
    | '+' :: rest => rest
    | rest => rest
  if digits = [] ∨ digits.any (fun c => !c.isDigit) then none
  else
    let n := Decimal.digitsValue digits
    if n < Nat.pow 2 64 then some n else none

/-- The value under `key`; the last one counts where the key repeats. -/
def field? (key : Text) (fields : List (Text × Json)) : Option Json :=
  fields.reverse.lookup key

/-- The part of a value that `step` names. -/
def stepInto (step : Text) : Json → Option Json
  | .list items => (index? step).bind fun i => items[i]?
  | .object fields => field? step fields
  | _ => none

/-- The value at the end of a path; `none` where a step names no part. -/
def lookup : List Text → Json → Option Json
  | [], v => some v
  | step :: rest, v => (stepInto step v).bind (lookup rest)

/-- A whole number that 64 bits hold stays as it is written; all others are written as binary64
numbers. -/
def numberText (digits : Text) : Text :=
  let value := Decimal.signedValue digits
  let whole := digits.all fun c => c.isDigit || c == '-'
  if whole ∧ digits ≠ ['-', '0'] ∧ -Int.ofNat (Nat.pow 2 63) ≤ value
      ∧ value < Int.ofNat (Nat.pow 2 64) then digits
  else (Decimal.text? (Decimal.ofDigits digits).toFloat).getD []

/-- The text inserted for a value. A list or an object has none. -/
def valueText : Json → Except TemplateError Text
  | .null => .ok []
  | .bool b => .ok (if b then "true" else "false").toList
  | .number digits => .ok (numberText digits)
  | .text t => .ok t
  | .list _ => .error .notPrintable
  | .object _ => .error .notPrintable

/-- The text of a part, with values from `context`. -/
def Part.fill (context : Json) : Part → Except TemplateError Text
  | .literal t => .ok t
  | .value path =>
    match lookup path context with
    | none => .error .unknownName
    | some v => valueText v

/-- The texts of the parts one after the other, up to the first error. -/
def fillParts (context : Json) : List Part → Except TemplateError Text
  | [] => .ok []
  | p :: rest =>
    match p.fill context with
    | .error e => .error e
    | .ok t => (fillParts context rest).map (t ++ ·)

/-- The text of `t`, with values from `context`. -/
def fill (t : Template) (context : Json) : Except TemplateError Text := fillParts context t.parts

/-- The text of the template spelled by `template`, with values from `context`. -/
def render (template : Text) (context : Json) : Except TemplateError Text :=
  match read template with
  | .error e => .error e
  | .ok t => t.fill context

end Template
end ClipLedger
