import ClipLedger.Proofs.Toml.Content

/-
  How TOML is written. Every kind of value has its ways to be written: texts between four kinds of
  quotes, whole numbers in four bases, numbers with a fraction or an exponent, dates and times,
  lists, and tables between braces (`Spells`). Lines set key paths or open tables (`SpellsLine`),
  and a document is made of lines, with blanks, comments and empty lines wherever TOML allows them
  (`SpellsLines`). A line may end with a carriage return before its line feed, and a mark for the
  order of bytes may stand in front of everything (`SpellsDocument`). Of dates and times only the
  shape is told.
-/
namespace ClipLedger.Toml

/-! ## Gaps -/

/-- `w` consists of blanks and tabs. -/
def Blank (w : Text) : Prop := ∀ c ∈ w, isBlankChar c = true

/-- `w` is a comment, or empty. -/
def Comment (w : Text) : Prop := w = [] ∨ ∃ t, w = '#' :: t ∧ ∀ c ∈ t, isCommentChar c = true

/-- Lines without content, and blanks in front of what comes next. -/
inductive Gap : Text → Prop
  | blank {b : Text} (blank : Blank b) : Gap b
  | line {b c w : Text} (blank : Blank b) (comment : Comment c) (rest : Gap w) :
      Gap (b ++ (c ++ '\n' :: w))

/-! ## Texts and keys -/

/-- The letters of the escapes with one letter, each with the character that it stands for. -/
def shortEscapes : List (Char × Char) :=
  [('"', '"'), ('\\', '\\'), ('b', '\x08'), ('f', '\x0c'), ('n', '\n'), ('r', '\r'), ('t', '\t')]

/-- What stands behind a backslash for a character. -/
inductive SpellsEscape : Char → Text → Prop
  | short {c letter : Char} (known : (letter, c) ∈ shortEscapes) : SpellsEscape c [letter]
  | code {c : Char} {digits : Text} (four : digits.length = 4)
      (value : Hex.number? digits = some c.toNat) : SpellsEscape c ('u' :: digits)
  | longCode {c : Char} {digits : Text} (eight : digits.length = 8)
      (value : Hex.number? digits = some c.toNat) : SpellsEscape c ('U' :: digits)

/-- The ways to write a text between quotes. In double quotes a backslash begins an escape, or
continues a line. A text over several lines may have quotes inside, as long as no three of them
stand side by side. -/
inductive SpellsInside (quote : Char) (multiline : Bool) : Text → Text → Prop
  | nil : SpellsInside quote multiline [] []
  | plain {c : Char} {t w : Text} (allowed : isTextChar c = true) (other : c ≠ quote)
      (literal : c = '\\' → quote = '\'') (rest : SpellsInside quote multiline t w) :
      SpellsInside quote multiline (c :: t) (c :: w)
  | escape {c : Char} {t e w : Text} (basic : quote = '"') (escape : SpellsEscape c e)
      (rest : SpellsInside quote multiline t w) :
      SpellsInside quote multiline (c :: t) ('\\' :: (e ++ w))
  | lineFeed {t w : Text} (lines : multiline = true) (rest : SpellsInside quote multiline t w) :
      SpellsInside quote multiline ('\n' :: t) ('\n' :: w)
  | continued {t b g w : Text} (basic : quote = '"') (lines : multiline = true) (blank : Blank b)
      (gap : ∀ c ∈ g, (isBlankChar c || c == '\n') = true)
      (ends : ∀ c ∈ w.head?, (isBlankChar c || c == '\n') = false)
      (rest : SpellsInside quote multiline t w) :
      SpellsInside quote multiline t ('\\' :: (b ++ '\n' :: (g ++ w)))
  | quote {t w : Text} (lines : multiline = true) (apart : ¬ [quote, quote] <+: w)
      (rest : SpellsInside quote multiline t w) :
      SpellsInside quote multiline (quote :: t) (quote :: w)

/-- The two quotes. -/
def quotes : List Char := ['"', '\'']

/-- A text on one line. -/
inductive SpellsLineText : Text → Text → Prop
  | mk {quote : Char} {t w : Text} (isQuote : quote ∈ quotes)
      (inside : SpellsInside quote false t w) : SpellsLineText t (quote :: (w ++ [quote]))

/-- A text over several lines. A line feed right behind the first quotes does not count. -/
inductive SpellsLinesText : Text → Text → Prop
  | mk {quote : Char} {start t w : Text} (isQuote : quote ∈ quotes)
      (first : start = [] ∧ w.head? ≠ some '\n' ∨ start = ['\n'])
      (inside : SpellsInside quote true t w) :
      SpellsLinesText t ([quote, quote, quote] ++ (start ++ (w ++ [quote, quote, quote])))

/-- A key: a bare word, or a text on one line. -/
inductive SpellsKey : Text → Text → Prop
  | bare {k : Text} (nonempty : k ≠ []) (word : ∀ c ∈ k, isWordChar c = true) : SpellsKey k k
  | quoted {k w : Text} (text : SpellsLineText k w) : SpellsKey k w

/-- Keys with periods between them. -/
inductive SpellsPath : List Text → Text → Prop
  | last {k w : Text} (key : SpellsKey k w) : SpellsPath [k] w
  | cons {k w b b' ws : Text} {ks : List Text} (key : SpellsKey k w) (before : Blank b)
      (after : Blank b') (rest : SpellsPath ks ws) :
      SpellsPath (k :: ks) (w ++ (b ++ '.' :: (b' ++ ws)))

/-! ## Numbers -/

/-- Digits of `base`, with single underscores between them. -/
inductive SpellsDigits (base : Nat) : Text → Text → Prop
  | last {d : Char} (digit : isDigitOf base d = true) : SpellsDigits base [d] [d]
  | cons {d : Char} {ds w : Text} (digit : isDigitOf base d = true)
      (rest : SpellsDigits base ds w) : SpellsDigits base (d :: ds) (d :: w)
  | spaced {d : Char} {ds w : Text} (digit : isDigitOf base d = true)
      (rest : SpellsDigits base ds w) : SpellsDigits base (d :: ds) (d :: '_' :: w)

/-- Decimal digits without leading zeros. -/
structure SpellsWhole (ds w : Text) : Prop where
  digits : SpellsDigits 10 ds w
  leading : w = ['0'] ∨ w.head? ≠ some '0'

/-- The signs that may stand in front of a number. -/
def signs : List Text := [[], ['-'], ['+']]

/-- The letters of other bases. -/
def bases : List (Char × Nat) := [('x', 16), ('o', 8), ('b', 2)]

/-- The value of digits of `base`. -/
def digitsValue (base : Nat) (ds : Text) : Nat :=
  ds.foldl (fun n d => n * base + (Hex.value? d).getD 0) 0

/-- A whole number. -/
inductive SpellsInteger : Int → Text → Prop
  | decimal {sign ds w : Text} (signed : sign ∈ signs) (whole : SpellsWhole ds w) :
      SpellsInteger (Decimal.signedValue (sign ++ ds)) (sign ++ w)
  | based {letter : Char} {base : Nat} {ds w : Text} (known : (letter, base) ∈ bases)
      (digits : SpellsDigits base ds w) : SpellsInteger (digitsValue base ds) ('0' :: letter :: w)

/-- `n` is an integer of 64 bits. -/
def InRange (n : Int) : Prop := -Int.ofNat (Nat.pow 2 63) ≤ n ∧ n < Int.ofNat (Nat.pow 2 63)

/-- A fraction with its point, or nothing. -/
inductive SpellsFraction : Text → Text → Prop
  | none : SpellsFraction [] []
  | digits {ds w : Text} (digits : SpellsDigits 10 ds w) : SpellsFraction ds ('.' :: w)

/-- An exponent with its letter, or nothing. -/
inductive SpellsExponent : Int → Text → Prop
  | none : SpellsExponent 0 []
  | digits {letter : Char} {sign ds w : Text} (known : letter = 'e' ∨ letter = 'E')
      (signed : sign ∈ signs) (digits : SpellsDigits 10 ds w) :
      SpellsExponent (Decimal.signedValue (sign ++ ds)) (letter :: (sign ++ w))

/-- A number that is not whole: it has a fraction or an exponent, and stands for the nearest
binary64 number, which is finite; or it is infinite, or not a number, and written as a word. -/
inductive SpellsFloat : Float → Text → Prop
  | digits {sign whole fraction w f e : Text} {exponent : Int} (signed : sign ∈ signs)
      (isWhole : SpellsWhole whole w) (isFraction : SpellsFraction fraction f)
      (isExponent : SpellsExponent exponent e) (nonempty : f ≠ [] ∨ e ≠ [])
      (finite : (Decimal.toFloat ⟨sign = ['-'], Decimal.digitsValue (whole ++ fraction),
        exponent - fraction.length⟩).isFinite = true) :
      SpellsFloat (Decimal.toFloat ⟨sign = ['-'], Decimal.digitsValue (whole ++ fraction),
        exponent - fraction.length⟩) (sign ++ (w ++ (f ++ e)))
  | infinite {sign : Text} (signed : sign ∈ signs) :
      SpellsFloat (if sign = ['-'] then -1.0 / 0.0 else 1.0 / 0.0) (sign ++ "inf".toList)
  | notANumber {sign : Text} (signed : sign ∈ signs) :
      SpellsFloat (0.0 / 0.0) (sign ++ "nan".toList)

/-! ## Dates and times -/

/-- `w` consists of `n` decimal digits. -/
def IsDigits (n : Nat) (w : Text) : Prop := w.length = n ∧ ∀ d ∈ w, isDigitOf 10 d = true

/-- Year, month and day. -/
inductive SpellsDate : Text → Prop
  | mk {y m d : Text} (year : IsDigits 4 y) (month : IsDigits 2 m) (day : IsDigits 2 d) :
      SpellsDate (y ++ '-' :: (m ++ '-' :: d))

/-- A fraction of seconds with its point, or nothing. -/
def SecondsFraction (w : Text) : Prop :=
  w = [] ∨ ∃ ds, w = '.' :: ds ∧ ds ≠ [] ∧ ∀ d ∈ ds, isDigitOf 10 d = true

/-- Hour, minute and second. -/
inductive SpellsTime : Text → Prop
  | mk {h m s f : Text} (hour : IsDigits 2 h) (minute : IsDigits 2 m) (second : IsDigits 2 s)
      (fraction : SecondsFraction f) : SpellsTime (h ++ ':' :: (m ++ ':' :: (s ++ f)))

/-- The distance of a time from universal time, or nothing. -/
inductive SpellsOffset : Text → Prop
  | none : SpellsOffset []
  | universal {letter : Char} (known : letter = 'Z' ∨ letter = 'z') : SpellsOffset [letter]
  | distance {sign : Char} {h m : Text} (known : sign = '+' ∨ sign = '-') (hour : IsDigits 2 h)
      (minute : IsDigits 2 m) : SpellsOffset (sign :: (h ++ ':' :: m))

/-- A date, a time, or both. -/
inductive SpellsDateTime : Text → Prop
  | date {d : Text} (date : SpellsDate d) : SpellsDateTime d
  | time {t : Text} (time : SpellsTime t) : SpellsDateTime t
  | both {d t o : Text} {mark : Char} (date : SpellsDate d)
      (known : mark = 'T' ∨ mark = 't' ∨ mark = ' ') (time : SpellsTime t)
      (offset : SpellsOffset o) : SpellsDateTime (d ++ mark :: (t ++ o))

/-! ## Values -/

/-- A part of a document: a value, the items of a list with its closing bracket, or the entries of
a table with its closing brace. -/
inductive Part where
  | value (v : Toml)
  | items (vs : List Toml)
  | entries (sets : Sets)

/-- The ways to write a part. -/
inductive Spells : Part → Text → Prop
  | lineText {t w : Text} (text : SpellsLineText t w) : Spells (.value (.text t)) w
  | linesText {t w : Text} (text : SpellsLinesText t w) : Spells (.value (.text t)) w
  | integer {n : Int} {w : Text} (integer : SpellsInteger n w) (range : InRange n) :
      Spells (.value (.integer n)) w
  | float {x : Float} {w : Text} (float : SpellsFloat x w) : Spells (.value (.float x)) w
  | true : Spells (.value (.bool true)) "true".toList
  | false : Spells (.value (.bool false)) "false".toList
  | datetime {w : Text} (datetime : SpellsDateTime w) : Spells (.value .datetime) w
  | list {vs : List Toml} {w : Text} (items : Spells (.items vs) w) :
      Spells (.value (.list vs)) ('[' :: w)
  | table {sets : Sets} {pairs : List (Text × Toml)} {w : Text} (entries : Spells (.entries sets) w)
      (sound : Outline.Sound ⟨sets, [], pairs⟩) : Spells (.value (.table pairs)) ('\x7b' :: w)
  | noItem {g : Text} (gap : Gap g) : Spells (.items []) (g ++ [']'])
  | lastItem {v : Toml} {g w g' : Text} (before : Gap g) (value : Spells (.value v) w)
      (after : Gap g') : Spells (.items [v]) (g ++ (w ++ (g' ++ [']'])))
  | item {v : Toml} {vs : List Toml} {g w g' ws : Text} (before : Gap g)
      (value : Spells (.value v) w) (after : Gap g') (rest : Spells (.items vs) ws) :
      Spells (.items (v :: vs)) (g ++ (w ++ (g' ++ ',' :: ws)))
  | noEntry {b : Text} (blank : Blank b) : Spells (.entries []) (b ++ ['\x7d'])
  | lastEntry {path : List Text} {v : Toml} {b w b₁ b₂ u b₃ : Text} (blank : Blank b)
      (key : SpellsPath path w) (before : Blank b₁) (after : Blank b₂)
      (value : Spells (.value v) u) (ends : Blank b₃) :
      Spells (.entries [(path, v)]) (b ++ (w ++ (b₁ ++ '=' :: (b₂ ++ (u ++ (b₃ ++ ['\x7d']))))))
  | entry {path : List Text} {v : Toml} {sets : Sets} {b w b₁ b₂ u b₃ ws : Text} (blank : Blank b)
      (key : SpellsPath path w) (before : Blank b₁) (after : Blank b₂)
      (value : Spells (.value v) u) (ends : Blank b₃) (nonempty : sets ≠ [])
      (rest : Spells (.entries sets) ws) :
      Spells (.entries ((path, v) :: sets))
        (b ++ (w ++ (b₁ ++ '=' :: (b₂ ++ (u ++ (b₃ ++ ',' :: ws))))))

/-! ## Lines and documents -/

/-- The ways to write a line, without blanks around it. -/
inductive SpellsLine : Line → Text → Prop
  | set {path : List Text} {v : Toml} {w b b' u : Text} (key : SpellsPath path w)
      (before : Blank b) (after : Blank b') (value : Spells (.value v) u) :
      SpellsLine (.set path v) (w ++ (b ++ '=' :: (b' ++ u)))
  | table {path : List Text} {w b b' : Text} (before : Blank b) (key : SpellsPath path w)
      (after : Blank b') : SpellsLine (.header path false) ('[' :: (b ++ (w ++ (b' ++ [']']))))
  | element {path : List Text} {w b b' : Text} (before : Blank b) (key : SpellsPath path w)
      (after : Blank b') :
      SpellsLine (.header path true) ('[' :: '[' :: (b ++ (w ++ (b' ++ [']', ']']))))

/-- The ways to write lines, one below the other. -/
inductive SpellsLines : List Line → Text → Prop
  | none {g c : Text} (gap : Gap g) (comment : Comment c) : SpellsLines [] (g ++ c)
  | last {l : Line} {g w b c : Text} (gap : Gap g) (line : SpellsLine l w) (blank : Blank b)
      (comment : Comment c) : SpellsLines [l] (g ++ (w ++ (b ++ c)))
  | cons {l : Line} {ls : List Line} {g w b c ws : Text} (gap : Gap g) (line : SpellsLine l w)
      (blank : Blank b) (comment : Comment c) (rest : SpellsLines ls ws) :
      SpellsLines (l :: ls) (g ++ (w ++ (b ++ (c ++ '\n' :: ws))))

/-- The second text is the first one with some line feeds written with a carriage return. -/
inductive LineEnds : Text → Text → Prop
  | nil : LineEnds [] []
  | keep {c : Char} {t w : Text} (other : c ≠ '\r') (rest : LineEnds t w) :
      LineEnds (c :: t) (c :: w)
  | carriage {t w : Text} (rest : LineEnds t w) : LineEnds ('\n' :: t) ('\r' :: '\n' :: w)

/-- The ways to write a document. -/
inductive SpellsDocument : List Line → Text → Prop
  | mk {ls : List Line} {t w mark : Text} (lines : SpellsLines ls t) (ends : LineEnds t w)
      (marked : mark = [] ∨ mark = ['\uFEFF']) : SpellsDocument ls (mark ++ w)

end ClipLedger.Toml
