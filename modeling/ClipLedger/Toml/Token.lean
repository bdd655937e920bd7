import ClipLedger.Text.Hex

/-
  The tokens of TOML. A line ends at a line feed, with or without a carriage return before it.
  Texts stand between quotes: double ones resolve escapes, single ones do not, and three of them
  let the text run over several lines.
-/
namespace ClipLedger.Toml

/-- A token. Bare words serve as keys, numbers, dates and truth values. -/
inductive Token where
  | blank (t : Text)
  | newline
  | comment
  | equals
  | period
  | comma
  | colon
  | plus
  | openBrace
  | closeBrace
  | openBracket
  | closeBracket
  | word (t : Text)
  | text (t : Text) (multiline : Bool)
  deriving DecidableEq

/-- Drops the carriage return of every line end. -/
def foldLineEnds : Text → Text
  | [] => []
  | '\r' :: '\n' :: rest => '\n' :: foldLineEnds rest
  | c :: rest => c :: foldLineEnds rest

/-- Whether `c` is a blank or a tab. -/
def isBlankChar (c : Char) : Bool := c == ' ' || c == '\t'

/-- Whether `c` can stand in a bare word. -/
def isWordChar (c : Char) : Bool := c.isAlphanum || c == '-' || c == '_'

/-- Whether `c` can stand in a comment. -/
def isCommentChar (c : Char) : Bool := c == '\t' || 0x20 ≤ c.toNat

/-- Whether `c` can stand in a text. -/
def isTextChar (c : Char) : Bool := c == '\t' || (0x20 ≤ c.toNat && c.toNat != 0x7F)

/-- The character with the number `n`, unless that is a surrogate or beyond the last one. -/
def scalar? (n : Nat) : Option Char := if h : n.isValidChar then some (Char.ofNatAux n h) else none

/-- The character that the hexadecimal `digits` of an escape name. -/
def namedChar? (digits : Text) : Option Char := (Hex.number? digits).bind scalar?

/-- What follows the end of a line that was continued: blanks up to a line feed, then all blanks and
line feeds, are passed over. -/
def afterContinuation? (t : Text) : Option Text :=
  match t.dropWhile isBlankChar with
  | [] => some []
  | '\n' :: rest => some (rest.dropWhile fun c => isBlankChar c || c == '\n')
  | _ => none

/-- What an escape stands for, and what follows it, given the text behind its backslash. -/
def escape? (multiline : Bool) : Text → Option (Text × Text)
  | 'u' :: a :: b :: c :: d :: rest =>
    (namedChar? [a, b, c, d]).map fun ch => ([ch], rest)
  | 'U' :: a :: b :: c :: d :: e :: f :: g :: h :: rest =>
    (namedChar? [a, b, c, d, e, f, g, h]).map fun ch => ([ch], rest)
  | '"' :: rest => some (['"'], rest)
  | '\\' :: rest => some (['\\'], rest)
  | 'b' :: rest => some (['\x08'], rest)
  | 'f' :: rest => some (['\x0c'], rest)
  | 'n' :: rest => some (['\n'], rest)
  | 'r' :: rest => some (['\r'], rest)
  | 't' :: rest => some (['\t'], rest)
  | c :: rest =>
    if multiline ∧ (isBlankChar c ∨ c = '\n') then
      (afterContinuation? (c :: rest)).map fun rest => ([], rest)
    else none
  | [] => none

/-- The end of a text over several lines, given the text behind a first quote: up to two quotes that
still belong to it, and what follows the end. -/
def closing? (quote : Char) : Text → Option (Text × Text)
  | a :: b :: rest =>
    if a = quote ∧ b = quote then
      match rest with
      | c :: d :: after =>
        if c = quote ∧ d = quote then some ([quote, quote], after)
        else if c = quote then some ([quote], d :: after)
        else some ([], rest)
      | [c] => if c = quote then some ([quote], []) else some ([], rest)
      | [] => some ([], [])
    else none
  | _ => none

theorem length_afterContinuation {t rest : Text} (h : afterContinuation? t = some rest) :
    rest.length ≤ t.length := by
  have hd := Text.length_dropWhile_le isBlankChar t
  unfold afterContinuation? at h
  split at h
  · simp only [Option.some.injEq] at h; subst h; simp
  · next r heq =>
    simp only [Option.some.injEq] at h
    have := Text.length_dropWhile_le (fun c => isBlankChar c || c == '\n') r
    rw [heq, List.length_cons] at hd
    rw [← h]
    omega
  · simp at h

theorem length_escape {multiline : Bool} {t piece rest : Text}
    (h : escape? multiline t = some (piece, rest)) : rest.length ≤ t.length := by
  unfold escape? at h
  split at h
  case h_10 =>
    split at h
    · simp only [Option.map_eq_some_iff, Prod.mk.injEq] at h
      obtain ⟨r', hr, _, rfl⟩ := h
      exact length_afterContinuation hr
    · simp at h
  all_goals
    simp only [Option.map_eq_some_iff, Option.some.injEq, Prod.mk.injEq, reduceCtorEq] at h
  case h_1 | h_2 =>
    obtain ⟨_, _, _, rfl⟩ := h
    simp only [List.length_cons]
    omega
  all_goals
    obtain ⟨_, rfl⟩ := h
    simp only [List.length_cons]
    omega

/-- Puts `piece` in front of a text that was read up to its end. -/
def prepend (piece : Text) : Text × Text → Text × Text
  | (t, rest) => (piece ++ t, rest)

/-- Reads up to the end of a text: the text, and what follows its closing quotes. -/
def scan (quote : Char) (multiline : Bool) : Text → Option (Text × Text)
  | [] => none
  | c :: rest =>
    if c = quote then
      if multiline then
        match closing? quote rest with
        | some end_ => some end_
        | none => (scan quote multiline rest).map (prepend [c])
      else some ([], rest)
    else if c = '\\' ∧ quote = '"' then
      match h : escape? multiline rest with
      | none => none
      | some (piece, after) =>
        have := length_escape h
        (scan quote multiline after).map (prepend piece)
    else if isTextChar c ∨ (c = '\n' ∧ multiline) then
      (scan quote multiline rest).map (prepend [c])
    else none
termination_by t => t.length

/-- Reads a text, given what is behind its first quote. A line feed right at the start of a text
over several lines does not count. -/
def scanText (quote : Char) : Text → Option (Token × Text)
  | a :: b :: rest =>
    if a = quote ∧ b = quote then
      let rest := match rest with
        | '\n' :: r => r
        | r => r
      (scan quote true rest).map fun (t, after) => (.text t true, after)
    else if a = quote then some (.text [] false, b :: rest)
    else (scan quote false (a :: b :: rest)).map fun (t, after) => (.text t false, after)
  | [a] => if a = quote then some (.text [] false, []) else none
  | [] => none

/-- The token of the sign `c`. -/
def sign? (c : Char) : Option Token :=
  if c = '\n' then some .newline
  else if c = '=' then some .equals
  else if c = '.' then some .period
  else if c = ',' then some .comma
  else if c = ':' then some .colon
  else if c = '+' then some .plus
  else if c = '\x7b' then some .openBrace
  else if c = '\x7d' then some .closeBrace
  else if c = '[' then some .openBracket
  else if c = ']' then some .closeBracket
  else none

theorem length_closing {quote : Char} {t extra rest : Text}
    (h : closing? quote t = some (extra, rest)) : rest.length ≤ t.length := by
  unfold closing? at h
  split at h
  · split at h
    · split at h
      · split at h
        · simp only [Option.some.injEq, Prod.mk.injEq] at h
          simp only [← h.2, List.length_cons]; omega
        · split at h <;> simp only [Option.some.injEq, Prod.mk.injEq] at h <;>
            simp only [← h.2, List.length_cons] <;> omega
      · split at h <;> simp only [Option.some.injEq, Prod.mk.injEq] at h <;>
          simp only [← h.2, List.length_cons, List.length_nil] <;> omega
      · simp only [Option.some.injEq, Prod.mk.injEq] at h
        simp only [← h.2, List.length_nil]; omega
    · simp at h
  · simp at h

theorem length_scan {quote : Char} {multiline : Bool} {s t rest : Text}
    (h : scan quote multiline s = some (t, rest)) : rest.length ≤ s.length := by
  fun_induction scan quote multiline s generalizing t rest <;>
    simp only [Option.map_eq_some_iff, Option.some.injEq, Prod.mk.injEq, Prod.exists,
      reduceCtorEq, prepend] at h
  case case2 hc =>
    have := length_closing (h ▸ hc)
    simp only [List.length_cons]
    omega
  case case4 =>
    obtain ⟨_, rfl⟩ := h
    simp only [List.length_cons]
    omega
  case case3 ih | case6 ih | case7 ih =>
    obtain ⟨_, _, hr, _, rfl⟩ := h
    have := ih hr
    simp only [List.length_cons]
    omega

theorem length_scanText {quote : Char} {s rest : Text} {token : Token}
    (h : scanText quote s = some (token, rest)) : rest.length ≤ s.length := by
  unfold scanText at h
  split at h
  · next a b r =>
    split at h
    · simp only [Option.map_eq_some_iff, Prod.mk.injEq, Prod.exists] at h
      obtain ⟨_, _, hr, _, rfl⟩ := h
      have := length_scan hr
      simp only [List.length_cons]
      split at this <;> simp only [List.length_cons] at * <;> omega
    · split at h
      · simp only [Option.some.injEq, Prod.mk.injEq] at h
        simp only [← h.2, List.length_cons]
        omega
      · simp only [Option.map_eq_some_iff, Prod.mk.injEq, Prod.exists] at h
        obtain ⟨_, _, hr, _, rfl⟩ := h
        exact length_scan hr
  · split at h
    · simp only [Option.some.injEq, Prod.mk.injEq] at h
      simp [← h.2]
    · simp at h
  · simp at h

/-- The tokens of a text whose line ends are line feeds; `none` where a part of it is no token. -/
def lex : Text → Option (List Token)
  | [] => some []
  | c :: rest =>
    match sign? c with
    | some token => (lex rest).map (token :: ·)
    | none =>
      if isBlankChar c then
        have := Text.length_dropWhile_le isBlankChar rest
        (lex (rest.dropWhile isBlankChar)).map (.blank (c :: rest.takeWhile isBlankChar) :: ·)
      else if c = '#' then
        have := Text.length_dropWhile_le isCommentChar rest
        (lex (rest.dropWhile isCommentChar)).map (.comment :: ·)
      else if isWordChar c then
        have := Text.length_dropWhile_le isWordChar rest
        (lex (rest.dropWhile isWordChar)).map (.word (c :: rest.takeWhile isWordChar) :: ·)
      else if c = '"' ∨ c = '\'' then
        match h : scanText c rest with
        | none => none
        | some (token, after) =>
          have := length_scanText h
          (lex after).map (token :: ·)
      else none
termination_by t => t.length

/-- The tokens of `t`. A byte order mark at the start does not count. -/
def tokens (t : Text) : Option (List Token) :=
  match t with
  | '\uFEFF' :: rest => lex (foldLineEnds rest)
  | rest => lex (foldLineEnds rest)

end ClipLedger.Toml
