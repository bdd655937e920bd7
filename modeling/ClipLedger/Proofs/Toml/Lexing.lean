import ClipLedger.Proofs.Toml.Spelling
import ClipLedger.Toml.Reader

/-
  The tokens of what is written. A part of a document has its tokens wherever what follows begins
  with a character that ends it (`Lexes`): blanks end at anything but a blank, words at anything
  that is no character of words, and texts at anything but a quote. So the tokens of a document are
  found part by part.
-/
namespace ClipLedger.Toml

/-! ## Edges -/

/-- `rest` is empty or begins with a character that `edge` allows. -/
def Meets (edge : Char → Bool) (rest : Text) : Prop := ∀ c ∈ rest.head?, edge c = true

/-- `w` begins with a character that `edge` allows. -/
def Starts (edge : Char → Bool) (w : Text) : Prop := ∃ c rest, w = c :: rest ∧ edge c = true

/-- Whether `c` may follow blanks. -/
def endsBlank (c : Char) : Bool := !isBlankChar c

/-- Whether `c` may follow a comment. -/
def endsComment (c : Char) : Bool := !isCommentChar c

/-- Whether `c` may follow a word or a text. -/
def endsValue (c : Char) : Bool := !isWordChar c && c != '"' && c != '\''

variable {edge edge' : Char → Bool} {w w' rest : Text}

theorem Meets.nil : Meets edge [] := by simp [Meets]

theorem Starts.cons {c : Char} (h : edge c = true) (rest : Text) : Starts edge (c :: rest) :=
  ⟨c, rest, rfl, h⟩

theorem Starts.append (h : Starts edge w) (rest : Text) : Starts edge (w ++ rest) := by
  obtain ⟨c, w, rfl, hc⟩ := h
  exact ⟨c, w ++ rest, rfl, hc⟩

theorem Starts.meets (h : Starts edge w) : Meets edge w := by
  obtain ⟨c, w, rfl, hc⟩ := h
  intro d hd
  cases hd
  exact hc

theorem Meets.append (h : Meets edge w) (h' : Meets edge rest) : Meets edge (w ++ rest) := by
  cases w with
  | nil => exact h'
  | cons c w => exact h

theorem blank_cases {c : Char} (h : isBlankChar c = true) : c = ' ' ∨ c = '\t' := by
  simpa [isBlankChar] using h

theorem Blank.meets {b : Text} (h : Blank b) (hspace : edge ' ' = true) (htab : edge '\t' = true) :
    Meets edge b := by
  intro c hc
  rcases blank_cases (h c (List.mem_of_mem_head? hc)) with rfl | rfl
  · exact hspace
  · exact htab

/-- Blanks in front do not matter where `edge` allows blanks. -/
theorem Starts.blank {b : Text} (hb : Blank b) (hspace : edge ' ' = true) (htab : edge '\t' = true)
    (h : Starts edge w) : Starts edge (b ++ w) := by
  cases b with
  | nil => exact h
  | cons c b => exact .cons (hb.meets hspace htab c rfl) _

theorem Comment.meets {c : Text} (h : Comment c) (hmark : edge '#' = true) : Meets edge c := by
  obtain rfl | ⟨t, rfl, -⟩ := h
  · exact .nil
  · exact (Starts.cons hmark t).meets

/-- Gaps in front do not matter where `edge` allows blanks, comments and line ends. -/
theorem Starts.gap {g : Text} (hg : Gap g) (hspace : edge ' ' = true) (htab : edge '\t' = true)
    (hmark : edge '#' = true) (hline : edge '\n' = true) (h : Starts edge w) :
    Starts edge (g ++ w) := by
  cases hg with
  | blank hb => exact h.blank hb hspace htab
  | @line b c g hb hc =>
    have hrest : Starts edge (c ++ '\n' :: (g ++ w)) := by
      obtain rfl | ⟨t, rfl, -⟩ := hc
      · exact .cons hline _
      · exact .cons hmark _
    simpa using hrest.blank hb hspace htab

/-! ## Single tokens -/

/-- `w` has the tokens `ts`, whatever follows behind an edge. -/
def Lexes (edge : Char → Bool) (w : Text) (ts : List Token) : Prop :=
  ∀ rest, Meets edge rest → lex (w ++ rest) = (lex rest).map (ts ++ ·)

variable {ts ts' : List Token}

theorem Lexes.nil : Lexes edge [] [] := fun rest _ => by simp

theorem Lexes.append (h : Lexes edge w ts) (h' : Lexes edge' w' ts') (hs : Starts edge w') :
    Lexes edge' (w ++ w') (ts ++ ts') := by
  intro rest hrest
  rw [List.append_assoc, h _ (hs.append rest).meets, h' rest hrest, Option.map_map]
  simp [Function.comp_def]

/-- What ends at the characters of `edge` ends at fewer. -/
theorem Lexes.mono (h : Lexes edge w ts) (hle : ∀ c, edge' c = true → edge c = true) :
    Lexes edge' w ts := fun rest hrest => h rest fun c hc => hle c (hrest c hc)

/-- A sign in front. -/
theorem Lexes.sign {c : Char} {token : Token} (hc : sign? c = some token) (h : Lexes edge w ts) :
    Lexes edge (c :: w) (token :: ts) := by
  intro rest hrest
  rw [List.cons_append, lex, hc, h rest hrest]
  exact Option.map_map _ _ _

theorem sign?_eq_none {c : Char}
    (h : c ∉ ['\n', '=', '.', ',', ':', '+', '\x7b', '\x7d', '[', ']']) : sign? c = none := by
  simp only [List.mem_cons, List.not_mem_nil, or_false, not_or] at h
  simp [sign?, h]

/-- The tokens of blanks. -/
def blankTokens (b : Text) : List Token := if b = [] then [] else [.blank b]

/-- The tokens of a comment. -/
def commentTokens (c : Text) : List Token := if c = [] then [] else [.comment]

theorem Blank.lexes {b : Text} (h : Blank b) : Lexes endsBlank b (blankTokens b) := by
  intro rest hrest
  cases b with
  | nil => simp [blankTokens]
  | cons c b =>
    have hc := h c List.mem_cons_self
    have hb : ∀ d ∈ b, isBlankChar d = true := fun d hd => h d (List.mem_cons_of_mem c hd)
    have hsign : sign? c = none := by rcases blank_cases hc with rfl | rfl <;> decide
    obtain ⟨htake, hdrop⟩ := takeWhile_append_ends hb fun d hd => by
      simpa [endsBlank] using hrest d hd
    rw [List.cons_append, lex, hsign]
    simp [hc, htake, hdrop, blankTokens]

theorem Comment.lexes {c : Text} (h : Comment c) : Lexes endsComment c (commentTokens c) := by
  intro rest hrest
  obtain rfl | ⟨t, rfl, ht⟩ := h
  · simp [commentTokens]
  · obtain ⟨-, hdrop⟩ := takeWhile_append_ends ht fun d hd => by
      simpa [endsComment] using hrest d hd
    have hmark : sign? '#' = none ∧ isBlankChar '#' = false := by decide
    rw [List.cons_append, lex, hmark.1]
    simp [hmark.2, hdrop, commentTokens]

theorem wordChar_not_sign {c : Char} (h : isWordChar c = true) :
    sign? c = none ∧ isBlankChar c = false ∧ c ≠ '#' := by
  have hne : ∀ d, isWordChar d = false → c ≠ d := fun d hd hcd => by simp [← hcd, h] at hd
  refine ⟨sign?_eq_none fun hmem => ?_, ?_, hne _ (by decide)⟩
  · have hall : ∀ d ∈ ['\n', '=', '.', ',', ':', '+', '\x7b', '\x7d', '[', ']'],
        isWordChar d = false := by decide
    exact hne c (hall c hmem) rfl
  · rw [Bool.eq_false_iff]
    intro hb
    rcases blank_cases hb with rfl | rfl
    · exact absurd h (by decide)
    · exact absurd h (by decide)

/-- Words end at anything that is no character of words. -/
theorem lexes_word (hne : w ≠ []) (hw : ∀ c ∈ w, isWordChar c = true) :
    Lexes (fun c => !isWordChar c) w [.word w] := by
  intro rest hrest
  cases w with
  | nil => exact absurd rfl hne
  | cons c w =>
    have hc := hw c List.mem_cons_self
    obtain ⟨hsign, hblank, hmark⟩ := wordChar_not_sign hc
    have hrest' : ∀ d ∈ rest.head?, isWordChar d = false := fun d hd => by simpa using hrest d hd
    obtain ⟨htake, hdrop⟩ :=
      takeWhile_append_ends (fun d hd => hw d (List.mem_cons_of_mem c hd)) hrest'
    rw [List.cons_append, lex, hsign]
    simp [hc, hblank, hmark, htake, hdrop]

/-- Words do not begin with blanks. -/
theorem starts_word (hne : w ≠ []) (hw : ∀ c ∈ w, isWordChar c = true) : Starts endsBlank w := by
  cases w with
  | nil => exact absurd rfl hne
  | cons c w =>
    exact .cons (by simp [endsBlank, (wordChar_not_sign (hw c List.mem_cons_self)).2.1]) w

/-- The tokens of gaps. -/
inductive GapTokens : List Token → Prop
  | blank (b : Text) : GapTokens (blankTokens b)
  | line (b c : Text) {ts : List Token} (rest : GapTokens ts) :
      GapTokens (blankTokens b ++ (commentTokens c ++ .newline :: ts))

theorem Gap.lexes {g : Text} (h : Gap g) : ∃ ts, Lexes endsBlank g ts ∧ GapTokens ts := by
  induction h with
  | @blank b blank => exact ⟨blankTokens b, blank.lexes, .blank b⟩
  | @line b c w blank comment rest ih =>
    obtain ⟨ts, hts, htokens⟩ := ih
    have hline : Lexes endsBlank ('\n' :: w) (.newline :: ts) := hts.sign (by decide)
    have hcomment : Lexes endsBlank (c ++ '\n' :: w) (commentTokens c ++ .newline :: ts) :=
      comment.lexes.append hline (.cons (by decide) _)
    have hstarts : Starts endsBlank (c ++ '\n' :: w) := by
      obtain rfl | ⟨t, rfl, -⟩ := comment
      · exact .cons (by decide) _
      · exact .cons (by decide) _
    exact ⟨_, blank.lexes.append hcomment hstarts, .line b c htokens⟩

/-- `skipLines` passes over gaps. -/
theorem GapTokens.skipLines (h : GapTokens ts) (more : Rest) :
    skipLines (ts ++ more) = skipLines more := by
  have hblanks (b : Text) (more : Rest) :
      Toml.skipLines (blankTokens b ++ more) = Toml.skipLines more := by
    unfold blankTokens
    split <;> rfl
  have hcomments (c : Text) (more : Rest) :
      Toml.skipLines (commentTokens c ++ more) = Toml.skipLines more := by
    unfold commentTokens
    split <;> rfl
  induction h with
  | blank b => exact hblanks b more
  | line b c rest ih =>
    rw [List.append_assoc, hblanks, List.append_assoc, hcomments, List.cons_append,
      Toml.skipLines, ih]

/-! ## Texts -/

theorem scalar?_toNat (c : Char) : scalar? c.toNat = some c := by
  have hvalid : c.toNat.isValidChar := c.valid
  rw [scalar?, dif_pos hvalid]
  rfl

/-- However a character is escaped, `escape?` reads it. -/
theorem SpellsEscape.escape? {c : Char} {e : Text} (h : SpellsEscape c e) (multiline : Bool)
    (rest : Text) : escape? multiline (e ++ rest) = some ([c], rest) := by
  cases h with
  | short known =>
    simp only [shortEscapes, List.mem_cons, Prod.mk.injEq, List.not_mem_nil, or_false] at known
    rcases known with ⟨rfl, rfl⟩ | ⟨rfl, rfl⟩ | ⟨rfl, rfl⟩ | ⟨rfl, rfl⟩ | ⟨rfl, rfl⟩ | ⟨rfl, rfl⟩ |
      ⟨rfl, rfl⟩ <;> rfl
  | @code digits four value =>
    match digits, four with
    | [_, _, _, _], _ => simp [Toml.escape?, namedChar?, value, scalar?_toNat]
  | @longCode digits eight value =>
    match digits, eight with
    | [_, _, _, _, _, _, _, _], _ => simp [Toml.escape?, namedChar?, value, scalar?_toNat]

/-- A line is continued at the next character that is no blank. -/
theorem escape?_continued {b g rest : Text} (hb : Blank b)
    (hg : ∀ c ∈ g, (isBlankChar c || c == '\n') = true)
    (hrest : ∀ c ∈ rest.head?, (isBlankChar c || c == '\n') = false) :
    escape? true (b ++ '\n' :: (g ++ rest)) = some ([], rest) := by
  have hfeed : ∀ c ∈ ('\n' :: (g ++ rest)).head?, isBlankChar c = false := by
    intro c hc
    cases hc
    rfl
  have hblanks := (takeWhile_append_ends hb hfeed).2
  have hgap := (takeWhile_append_ends hg hrest).2
  have hafter : afterContinuation? (b ++ '\n' :: (g ++ rest)) = some rest := by
    unfold afterContinuation?
    rw [hblanks]
    exact congrArg some hgap
  obtain ⟨c, tail, htail, hc⟩ : ∃ c tail, b ++ '\n' :: (g ++ rest) = c :: tail ∧
      (c = ' ' ∨ c = '\t' ∨ c = '\n') := by
    cases b with
    | nil => exact ⟨_, _, rfl, .inr (.inr rfl)⟩
    | cons c b =>
      refine ⟨c, _, rfl, ?_⟩
      rcases blank_cases (hb c List.mem_cons_self) with rfl | rfl
      · exact .inl rfl
      · exact .inr (.inl rfl)
  rw [htail] at hafter ⊢
  rcases hc with rfl | rfl | rfl
  · simp [escape?, hafter, isBlankChar]
  · simp [escape?, hafter, isBlankChar]
  · simp [escape?, hafter]

/-- What closes a text. -/
def closer (quote : Char) (multiline : Bool) : Text :=
  if multiline then [quote, quote, quote] else [quote]

/-- Up to two quotes in front of those that close a text belong to it. -/
theorem closing?_closer {quote : Char} {n : Nat} (hn : n ≤ 2) {rest : Text}
    (hrest : ∀ c ∈ rest.head?, c ≠ quote) :
    closing? quote (List.replicate (n + 2) quote ++ rest) =
      some (List.replicate n quote, rest) := by
  match n, hn, rest with
  | 0, _, [] => simp [closing?]
  | 0, _, [c] => simp [closing?, hrest c rfl]
  | 0, _, c :: d :: rest => simp [closing?, hrest c rfl]
  | 1, _, [] => simp [closing?]
  | 1, _, c :: rest => simp [closing?, hrest c rfl]
  | 2, _, rest => simp [closing?]

/-- Fewer than three quotes do not close a text over several lines. -/
theorem closing?_eq_none {quote : Char} {w : Text} (h : ¬ [quote, quote] <+: w) :
    closing? quote w = none := by
  match w with
  | [] => rfl
  | [_] => rfl
  | a :: b :: rest =>
    have hne : ¬(a = quote ∧ b = quote) := by
      rintro ⟨rfl, rfl⟩
      exact h (by simp)
    simp [closing?, hne]

theorem replicate_closer (n : Nat) (quote : Char) (rest : Text) :
    List.replicate n quote ++ (closer quote true ++ rest) =
      List.replicate (n + 3) quote ++ rest := by
  rw [← List.replicate_append_replicate, List.append_assoc]
  rfl

/-- Quotes that close a text over several lines, with one or two of its own in front. -/
theorem scan_closer {quote : Char} {n : Nat} (hn : n ≤ 2) {rest : Text}
    (hrest : ∀ c ∈ rest.head?, c ≠ quote) :
    scan quote true (List.replicate n quote ++ (closer quote true ++ rest)) =
      some (List.replicate n quote, rest) := by
  rw [replicate_closer, List.replicate_succ, List.cons_append, scan, if_pos rfl, if_pos rfl,
    closing?_closer hn hrest]

/-- What stands behind a backslash between double quotes is read as an escape. -/
theorem scan_escape {quote : Char} {multiline : Bool} {e after piece : Text} (basic : quote = '"')
    (he : escape? multiline (e ++ after) = some (piece, after)) :
    scan quote multiline ('\\' :: (e ++ after)) =
      (scan quote multiline after).map (prepend piece) := by
  subst basic
  rw [scan, if_neg (by decide), if_pos ⟨rfl, rfl⟩]
  split
  · next hnone =>
    rw [he] at hnone
    cases hnone
  · next hsome =>
    rw [he] at hsome
    cases hsome
    rfl

/-- Two quotes at the start of `w ++ rest` are at the start of `w`, unless `w` is at most one
quote. -/
theorem not_prefix_append {quote : Char} {w : Text} (apart : ¬ [quote, quote] <+: w)
    (hlong : ¬(w = [] ∨ w = [quote])) : ¬ [quote, quote] <+: w ++ rest := by
  rcases w with _ | ⟨a, _ | ⟨b, w⟩⟩
  · exact absurd (.inl rfl) hlong
  · rintro ⟨more, hmore⟩
    cases hmore
    exact hlong (.inr rfl)
  · intro hprefix
    simp only [List.cons_append, List.cons_prefix_cons, List.nil_prefix, and_true] at hprefix
    exact apart (by simp [← hprefix.1, ← hprefix.2])

theorem quote_not_blank {quote : Char} (hquote : quote ∈ quotes) :
    (isBlankChar quote || quote == '\n') = false := by
  have hall : ∀ q ∈ quotes, (isBlankChar q || q == '\n') = false := by decide
  exact hall quote hquote

/-- A backslash at the end of a line, and the gap `b`, `g` behind it up to what is left. -/
theorem scan_continued {quote : Char} {b g w rest : Text} (basic : quote = '"') (hb : Blank b)
    (hg : ∀ c ∈ g, (isBlankChar c || c == '\n') = true)
    (hw : ∀ c ∈ w.head?, (isBlankChar c || c == '\n') = false) :
    scan quote true ('\\' :: (b ++ '\n' :: (g ++ w)) ++ (closer quote true ++ rest)) =
      scan quote true (w ++ (closer quote true ++ rest)) := by
  have hends : ∀ c ∈ (w ++ (closer quote true ++ rest)).head?,
      (isBlankChar c || c == '\n') = false := by
    cases w with
    | nil =>
      subst basic
      intro c hc
      cases hc
      exact quote_not_blank (by decide)
    | cons d w => exact hw
  have hcontinued := escape?_continued hb hg hends
  have hsplit : '\\' :: (b ++ '\n' :: (g ++ w)) ++ (closer quote true ++ rest) =
      '\\' :: ((b ++ '\n' :: g) ++ (w ++ (closer quote true ++ rest))) := by simp
  rw [hsplit, scan_escape basic (by simpa using hcontinued)]
  cases scan quote true (w ++ (closer quote true ++ rest)) <;> rfl

/-- A quote inside a text over several lines. Where it is among the last three, the reader takes
all those of the text at once. -/
theorem scan_quote {quote : Char} {t w rest : Text} (apart : ¬ [quote, quote] <+: w)
    (hrest : ∀ c ∈ rest.head?, c ≠ quote)
    (hw : scan quote true (w ++ (closer quote true ++ rest)) = some (t, rest)) :
    scan quote true (quote :: w ++ (closer quote true ++ rest)) = some (quote :: t, rest) := by
  rw [List.cons_append, scan, if_pos rfl, if_pos rfl]
  by_cases hshort : w = [] ∨ w = [quote]
  · obtain ⟨n, hn, rfl⟩ : ∃ n ≤ 1, w = List.replicate n quote := by
      rcases hshort with rfl | rfl
      · exact ⟨0, by decide, rfl⟩
      · exact ⟨1, by decide, rfl⟩
    have ht := (scan_closer (by omega) hrest).symm.trans hw
    cases ht
    rw [replicate_closer, closing?_closer (n := n + 1) (by omega) hrest]
    rfl
  · rw [closing?_eq_none (not_prefix_append apart hshort)]
    dsimp only
    rw [hw]
    rfl

/-- `scan` reads `w` up to the `closer` as the text `t` that it spells. -/
theorem SpellsInside.scan {quote : Char} {multiline : Bool} {t w : Text}
    (h : SpellsInside quote multiline t w) (hquote : quote ∈ quotes) {rest : Text}
    (hrest : multiline = true → ∀ c ∈ rest.head?, c ≠ quote) :
    scan quote multiline (w ++ (closer quote multiline ++ rest)) = some (t, rest) := by
  induction h with
  | nil =>
    cases multiline with
    | false => simp [closer, Toml.scan]
    | true => exact scan_closer (Nat.zero_le 2) (hrest rfl)
  | @plain c t w allowed other literal inside ih =>
    rw [List.cons_append, Toml.scan, if_neg other, if_neg, if_pos (.inl allowed), ih]
    · rfl
    · rintro ⟨hc, hq⟩
      rw [literal hc] at hq
      exact absurd hq (by decide)
  | @escape c t e w basic escape inside ih =>
    rw [List.cons_append, List.append_assoc, scan_escape basic (escape.escape? multiline _), ih]
    rfl
  | @lineFeed t w lines inside ih =>
    have hline : '\n' ≠ quote := by
      rintro rfl
      exact absurd hquote (by decide)
    rw [List.cons_append, Toml.scan, if_neg hline, if_neg (by simp), if_pos (.inr ⟨rfl, lines⟩),
      ih]
    rfl
  | @continued t b g w basic lines blank gap ends inside ih =>
    subst lines
    exact (scan_continued basic blank gap ends).trans ih
  | @quote t w lines apart inside ih =>
    subst lines
    exact scan_quote apart (hrest rfl) ih

theorem lex_quote {quote : Char} (hquote : quote ∈ quotes) {rest after : Text} {token : Token}
    (h : scanText quote rest = some (token, after)) :
    lex (quote :: rest) = (lex after).map (token :: ·) := by
  have hall : ∀ q ∈ quotes, sign? q = none ∧ isBlankChar q = false ∧ q ≠ '#' ∧
      isWordChar q = false ∧ (q = '"' ∨ q = '\'') := by decide
  obtain ⟨hsign, hblank, hmark, hword, heither⟩ := hall quote hquote
  rw [lex, hsign]
  simp only [hblank, hmark, hword, heither, if_true, if_false, Bool.false_eq_true]
  split
  · next hnone =>
    rw [h] at hnone
    cases hnone
  · next hsome =>
    rw [h] at hsome
    cases hsome
    rfl

/-- On one line, no quote stands inside a text. -/
theorem SpellsInside.head_ne {quote c : Char} {t w : Text}
    (h : SpellsInside quote false t (c :: w)) (hquote : quote ∈ quotes) : c ≠ quote := by
  cases h with
  | plain allowed other => exact other
  | escape =>
    rintro rfl
    exact absurd hquote (by decide)
  | lineFeed lines => cases lines
  | continued basic lines => cases lines
  | quote lines => cases lines

theorem quote_not_endsValue {quote : Char} (h : quote ∈ quotes) : endsValue quote = false := by
  have hall : ∀ q ∈ quotes, endsValue q = false := by decide
  exact hall quote h

theorem Meets.ne_quote {quote : Char} (h : Meets endsValue rest) (hquote : quote ∈ quotes) :
    ∀ c ∈ rest.head?, c ≠ quote := by
  rintro c hc rfl
  have hends := h c hc
  rw [quote_not_endsValue hquote] at hends
  cases hends

theorem SpellsLineText.lexes {t w : Text} (h : SpellsLineText t w) :
    Lexes endsValue w [.text t false] := by
  obtain ⟨hquote, inside⟩ := h
  rename_i quote w
  intro rest hrest
  have hscan : scan quote false (w ++ (closer quote false ++ rest)) = some (t, rest) :=
    inside.scan hquote fun h => by cases h
  have htext : scanText quote (w ++ quote :: rest) = some (.text t false, rest) := by
    cases w with
    | nil =>
      cases inside
      cases rest with
      | nil => simp [scanText]
      | cons c rest => simp [scanText, hrest.ne_quote hquote c rfl]
    | cons c w =>
      have hne := inside.head_ne hquote
      obtain ⟨d, more, hmore⟩ : ∃ d more, w ++ quote :: rest = d :: more := by
        cases w with
        | nil => exact ⟨_, _, rfl⟩
        | cons d w => exact ⟨_, _, rfl⟩
      have hscan' : scan quote false (c :: d :: more) = some (t, rest) := by
        rw [← hmore]
        exact hscan
      rw [List.cons_append, hmore, scanText.eq_def]
      dsimp only
      rw [if_neg fun h => hne h.1, if_neg hne, hscan']
      rfl
  rw [List.cons_append, List.append_assoc, List.singleton_append, lex_quote hquote htext]
  rfl

theorem SpellsLinesText.lexes {t w : Text} (h : SpellsLinesText t w) :
    Lexes endsValue w [.text t true] := by
  obtain ⟨hquote, first, inside⟩ := h
  rename_i quote start w
  intro rest hrest
  have hscan := inside.scan hquote fun _ => hrest.ne_quote hquote
  have htext : scanText quote (quote :: quote :: (start ++ (w ++ (closer quote true ++ rest)))) =
      some (.text t true, rest) := by
    rw [scanText.eq_def]
    dsimp only
    rw [if_pos ⟨rfl, rfl⟩]
    rcases first with ⟨rfl, hfirst⟩ | rfl
    · have hfeed : ∀ more, w ++ (closer quote true ++ rest) ≠ '\n' :: more := by
        intro more hmore
        cases w with
        | nil =>
          cases hmore
          exact absurd hquote (by decide)
        | cons c w =>
          cases hmore
          exact hfirst rfl
      rw [List.nil_append]
      split
      · next more hmore => exact absurd hmore (hfeed more)
      · rw [hscan]
        rfl
    · show (scan quote true (w ++ (closer quote true ++ rest))).map _ = _
      rw [hscan]
      rfl
  have hsplit : [quote, quote, quote] ++ (start ++ (w ++ [quote, quote, quote])) ++ rest =
      quote :: quote :: quote :: (start ++ (w ++ (closer quote true ++ rest))) := by
    simp [closer]
  rw [hsplit, lex_quote hquote htext]
  rfl

/-- Texts do not begin with blanks. -/
theorem starts_quote {quote : Char} (h : quote ∈ quotes) (w : Text) :
    Starts endsBlank (quote :: w) := by
  have hall : ∀ q ∈ quotes, endsBlank q = true := by decide
  exact .cons (hall quote h) w

theorem SpellsLineText.starts {t w : Text} (h : SpellsLineText t w) : Starts endsBlank w := by
  obtain ⟨hquote, -⟩ := h
  exact starts_quote hquote _

theorem SpellsLinesText.starts {t w : Text} (h : SpellsLinesText t w) : Starts endsBlank w := by
  obtain ⟨hquote, -, -⟩ := h
  exact starts_quote hquote _

end ClipLedger.Toml
