import ClipLedger.Toml.Number
import ClipLedger.Toml.Token

/-
  The lines of a TOML document. A line sets a key to a value or opens a table; values may be
  lists and tables written inside braces.
-/
namespace ClipLedger.Toml

/-- The tokens that remain. -/
abbrev Rest := List Token

/-- A line: a value that is set at a key path, or the header of a table, which may be doubled. -/
inductive Line where
  | set (path : List Text) (v : Toml)
  | header (path : List Text) (many : Bool)

/-- Passes over a blank. -/
def skipBlank : Rest → Rest
  | .blank _ :: rest => rest
  | rest => rest

/-- Passes over blanks, comments and line ends. -/
def skipLines : Rest → Rest
  | .blank _ :: rest => skipLines rest
  | .newline :: rest => skipLines rest
  | .comment :: rest => skipLines rest
  | rest => rest

/-- The end of a line, behind blanks and a comment; `none` where something else is left on it. -/
def lineEnd? (ts : Rest) : Option Rest :=
  match skipBlank ts with
  | [] => some []
  | .newline :: rest => some rest
  | [.comment] => some []
  | .comment :: .newline :: rest => some rest
  | _ => none

/-- One key: a bare word, or a text on one line. -/
def key? : Rest → Option (Text × Rest)
  | .word t :: rest => some (t, rest)
  | .text t false :: rest => some (t, rest)
  | _ => none

/-- Keys with periods between them, fewer than the number. -/
def keyPath? : Nat → Rest → Option (List Text × Rest)
  | 0, _ => none
  | n + 1, ts =>
    match key? ts with
    | none => none
    | some (k, rest) =>
      match skipBlank rest with
      | .period :: rest =>
        (keyPath? n (skipBlank rest)).map fun (ks, rest) => (k :: ks, rest)
      | rest => some ([k], rest)

/-- Passes over a word, which has to be there. -/
def skipWord? : Rest → Option Rest
  | .word _ :: rest => some rest
  | _ => none

/-- Passes over `mark` and the word behind it, if `mark` is there. -/
def skipMarked? (mark : Token) : Rest → Option Rest
  | t :: rest => if t = mark then skipWord? rest else some (t :: rest)
  | [] => some []

/-- The end of a time behind its hour and a colon: minutes and seconds, a fraction, an offset. -/
def timeEnd? (ts : Rest) : Option Rest := do
  let ts ← skipWord? ts
  match ts with
  | .colon :: ts =>
    let ts ← skipWord? ts
    let ts ← skipMarked? .period ts
    let ts ← skipMarked? .plus ts
    skipMarked? .colon ts
  | _ => none

/-- Passes over a blank and the hour behind it, as they stand between a date and its time. -/
def skipHour : Rest → Rest
  | .blank b :: .word w :: rest => if b = [' '] then rest else .blank b :: .word w :: rest
  | rest => rest

/-- The end of a date or time; `colon` says that the colon behind an hour was read. -/
def dateEnd? (colon : Bool) (ts : Rest) : Option Rest :=
  let ts := skipHour ts
  if colon then timeEnd? ts
  else match ts with
    | .colon :: rest => timeEnd? rest
    | rest => some rest

/-- The exponent in `suffix`, which follows a whole part or a fraction: none, or digits behind an
`e`. -/
def exponent? (suffix : Text) (ts : Rest) : Option (Text × Rest) :=
  match suffix with
  | [] => some (['0'], ts)
  | [c] =>
    if c = 'e' ∨ c = 'E' then
      let ts := match ts with
        | .plus :: rest => rest
        | rest => rest
      match ts with
      | .word w :: rest =>
        match digits? 10 true .first w with
        | some (ds, []) => some (ds, rest)
        | _ => none
      | _ => none
    else none
  | c :: digits =>
    if c = 'e' ∨ c = 'E' then
      match signedDigits? true digits with
      | some (ds, []) => some (ds, ts)
      | _ => none
    else none

/-- A number with an exponent and no fraction. -/
def scaled? (t : Text) (ts : Rest) : Option (Toml × Rest) := do
  let (whole, suffix) ← signedDigits? false t
  let (exponent, ts) ← exponent? suffix ts
  let x ← finite? whole [] exponent
  return (x, ts)

/-- A number with a fraction: `t` stands before the period and `after` behind it. -/
def fractional? (t after : Text) (ts : Rest) : Option (Toml × Rest) := do
  let (whole, suffix) ← signedDigits? false t
  if suffix ≠ [] then none
  let (fraction, suffix) ← digits? 10 true .first after
  let (exponent, ts) ← exponent? suffix ts
  let x ← finite? whole fraction exponent
  return (x, ts)

/-- The numbers that are written as words. -/
def namedNumber? (t : Text) : Option Toml :=
  if t = "inf".toList then some (.float (1.0 / 0.0))
  else if t = "-inf".toList then some (.float (-1.0 / 0.0))
  else if t = "nan".toList ∨ t = "-nan".toList then some (.float (0.0 / 0.0))
  else none

/-- The number that begins with the word `t`. -/
def number? (t : Text) (ts : Rest) : Option (Toml × Rest) :=
  match t with
  | '0' :: 'x' :: digits => (based? 16 digits).map (·, ts)
  | '0' :: 'o' :: digits => (based? 8 digits).map (·, ts)
  | '0' :: 'b' :: digits => (based? 2 digits).map (·, ts)
  | t =>
    if t.contains 'e' ∨ t.contains 'E' then scaled? t ts
    else match ts with
      | .period :: .word after :: rest => fractional? t after rest
      | .period :: _ => none
      | ts => ((namedNumber? t).or (integer? t)).map (·, ts)

/-- Whether `a` stands directly in front of `b` somewhere in a text. -/
def containsPair (a b : Char) : Text → Bool
  | x :: y :: rest => (x == a && y == b) || containsPair a b (y :: rest)
  | _ => false

/-- Whether the word `t` can only begin a date or a time. -/
def looksLikeDate (t : Text) : Bool :=
  t.contains 'T' || t.contains 't' ||
    (t.tail.contains '-' && !containsPair 'e' '-' t && !containsPair 'E' '-' t)

/-- The number, date or time that begins with the word `t`. -/
def numberOrDate? (t : Text) (ts : Rest) : Option (Toml × Rest) :=
  if looksLikeDate t then (dateEnd? false ts).map (.datetime, ·)
  else match ts with
    | .colon :: rest => (dateEnd? true rest).map (.datetime, ·)
    | ts => number? t ts

/-- The value that begins with the word `t`. -/
def word? (t : Text) (ts : Rest) : Option (Toml × Rest) :=
  if t = "true".toList then some (.bool true, ts)
  else if t = "false".toList then some (.bool false, ts)
  else if t = "inf".toList ∨ t = "nan".toList then numberOrDate? t ts
  else match t with
    | '-' :: _ => numberOrDate? t ts
    | c :: _ => if c.isDigit then numberOrDate? t ts else none
    | [] => none

/-- A value under construction: a table made by dotted keys may still grow, all else is
`whole`. -/
inductive Growing where
  | whole (v : Toml)
  | dotted (pairs : List (Text × Growing))

/-- Sets the value at a key path among pairs. A dotted key goes into the table that earlier dotted
keys made; anything else in its place is in the way. -/
def insert? : List Text → Toml → List (Text × Growing) → Option (List (Text × Growing))
  | [], _, _ => none
  | [k], v, pairs => some (pairs ++ [(k, .whole v)])
  | k :: ks, v, pairs =>
    match pairs.find? fun p => p.1 == k with
    | none => (insert? ks v []).map fun inner => pairs ++ [(k, .dotted inner)]
    | some (_, .whole _) => none
    | some (_, .dotted inner) =>
      (insert? ks v inner).map fun inner =>
        let before := pairs.takeWhile fun p => p.1 != k
        let after := (pairs.dropWhile fun p => p.1 != k).tail
        before ++ (k, .dotted inner) :: after

mutual

/-- The value once it grows no more. -/
def Growing.finish : Growing → Toml
  | .whole v => v
  | .dotted pairs => .table (finishPairs pairs)

/-- The pairs once they grow no more. -/
def finishPairs : List (Text × Growing) → List (Text × Toml)
  | [] => []
  | (k, v) :: rest => (k, v.finish) :: finishPairs rest

end

/-- The pairs that key paths with their values make, by `insert?`. -/
def build? (sets : List (List Text × Toml)) : Option (List (Text × Toml)) :=
  let grown := sets.foldl
    (fun pairs set => pairs.bind (insert? set.1 set.2)) (some [])
  grown.map finishPairs

mutual

/-- A value. The number bounds the length of what is read. -/
def value? : Nat → Rest → Option (Toml × Rest)
  | 0, _ => none
  | n + 1, ts =>
    match ts with
    | .text t _ :: rest => some (.text t, rest)
    | .word t :: rest => word? t rest
    | .plus :: .word t :: rest => number? t rest
    | .openBracket :: rest => (items? n rest).map fun (vs, rest) => (.list vs, rest)
    | .openBrace :: rest =>
      match skipBlank rest with
      | .closeBrace :: rest => some (.table [], rest)
      | rest =>
        match entries? n rest with
        | none => none
        | some (sets, rest) => (build? sets).map fun pairs => (.table pairs, rest)
    | _ => none

/-- The items of a list, up to its closing bracket. -/
def items? : Nat → Rest → Option (List Toml × Rest)
  | 0, _ => none
  | n + 1, ts =>
    match skipLines ts with
    | .closeBracket :: rest => some ([], rest)
    | ts =>
      match value? n ts with
      | none => none
      | some (v, rest) =>
        match skipLines rest with
        | .comma :: rest => (items? n rest).map fun (vs, rest) => (v :: vs, rest)
        | .closeBracket :: rest => some ([v], rest)
        | _ => none

/-- The entries of a table in braces, up to its closing brace. -/
def entries? : Nat → Rest → Option (List (List Text × Toml) × Rest)
  | 0, _ => none
  | n + 1, ts =>
    match keyPath? n ts with
    | some (path, .equals :: rest) =>
      match value? n (skipBlank rest) with
      | none => none
      | some (v, rest) =>
        match skipBlank rest with
        | .closeBrace :: rest => some ([(path, v)], rest)
        | .comma :: rest =>
          (entries? n (skipBlank rest)).map fun (sets, rest) => ((path, v) :: sets, rest)
        | _ => none
    | _ => none

end

/-- The closing bracket of a header, or both if it is doubled (`many`). -/
def headerEnd? (many : Bool) : Rest → Option Rest
  | .closeBracket :: rest =>
    if many then
      match rest with
      | .closeBracket :: rest => lineEnd? rest
      | _ => none
    else lineEnd? rest
  | _ => none

/-- The header behind its opening brackets. -/
def header? (n : Nat) (many : Bool) (ts : Rest) : Option (Line × Rest) :=
  match keyPath? n (skipBlank ts) with
  | none => none
  | some (path, rest) => (headerEnd? many rest).map fun rest => (.header path many, rest)

/-- A line that is not empty. -/
def line? (n : Nat) (ts : Rest) : Option (Line × Rest) :=
  match ts with
  | .openBracket :: .openBracket :: rest => header? n true rest
  | .openBracket :: rest => header? n false rest
  | ts =>
    match keyPath? n ts with
    | some (path, .equals :: rest) =>
      match value? n (skipBlank rest) with
      | none => none
      | some (v, rest) => (lineEnd? rest).map fun rest => (.set path v, rest)
    | _ => none

/-- All lines, fewer than the number. -/
def lines? : Nat → Rest → Option (List Line)
  | 0, _ => none
  | n + 1, ts =>
    match skipLines ts with
    | [] => some []
    | ts =>
      match line? (n + 1) ts with
      | none => none
      | some (l, rest) => (lines? n rest).map (l :: ·)

end ClipLedger.Toml
