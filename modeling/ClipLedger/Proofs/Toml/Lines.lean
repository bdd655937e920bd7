import ClipLedger.Proofs.Toml.Value

/-
  However lines are written, they are read (`SpellsLine.tokens`, `SpellsLines.tokens`): keys with
  their values and headers, each up to the end of its line, with blanks, comments and empty lines
  around them.
-/
namespace ClipLedger.Toml

/-! ## Lines -/

/-- The key path of a line. -/
def Line.path : Line → List Text
  | .set path _ => path
  | .header path _ => path

/-- How `l`, written as `w`, is read up to its end. -/
structure LineTokens (l : Line) (w : Text) (ts : List Token) : Prop where
  lexes : Lexes endsValue w ts
  starts : Starts endsBlank w
  first : ts ≠ [] ∧ ∀ more, skipLines (ts ++ more) = ts ++ more
  length : l.path.length ≤ ts.length
  reads : ∀ n more, ts.length ≤ n → Follows more →
    line? n (ts ++ more) = (lineEnd? more).map fun rest => (l, rest)

theorem SetTokens.line {path : List Text} {v : Toml} {w : Text} {ts : List Token}
    (h : SetTokens path v w ts) : LineTokens (.set path v) w ts := by
  obtain ⟨token, us, rfl, hkey⟩ := h.first
  refine ⟨h.lexes, h.starts, ⟨by simp, fun more => ?_⟩, h.length, fun n more hn hmore => ?_⟩
  · cases token with
    | blank | newline | comment => exact hkey.elim
    | _ => rfl
  · obtain ⟨rest, hpath, hvalue⟩ := h.reads n more hn hmore
    have hopen : token ≠ .openBracket := by
      rintro rfl
      exact hkey
    unfold line?
    split
    · next heq => exact absurd (List.cons.inj heq).1 hopen
    · next heq => exact absurd (List.cons.inj heq).1 hopen
    · rw [hpath]
      dsimp only
      rw [hvalue]

/-- What stands between the brackets of a header. -/
theorem header?_path {path : List Text} {w b b' ws : Text} (hb : Blank b)
    (hpath : SpellsPath path w) (hb' : Blank b') {us : List Token}
    (hws : Lexes anyChar ws us) :
    ∃ ts, Lexes anyChar (b ++ (w ++ (b' ++ ']' :: ws))) (ts ++ .closeBracket :: us) ∧
      path.length ≤ ts.length ∧ (∀ rest more, ts ++ more ≠ .openBracket :: rest) ∧
      ∀ n many more, ts.length ≤ n → header? n many (ts ++ .closeBracket :: more) =
        (headerEnd? many (.closeBracket :: more)).map fun rest => (.header path many, rest) := by
  obtain ⟨ts, hts⟩ := hpath.tokens
  have hclose : sign? ']' = some .closeBracket := by decide
  have hbehind := hb'.lexes.append (hws.sign hclose) (.cons (by decide) _)
  have hkeys := hts.lexes.append hbehind
    ((Starts.cons (by decide) _).blank hb' (by decide) (by decide))
  have hall := hb.lexes.append hkeys (hts.starts.append _)
  obtain ⟨first, ts, rfl, hkey⟩ := hts.first
  refine ⟨blankTokens b ++ (first :: ts ++ blankTokens b'), by simpa using hall, ?_, ?_, ?_⟩
  · have hlength := hts.length
    simp only [List.length_append, List.length_cons] at hlength ⊢
    omega
  · intro rest more heq
    unfold blankTokens at heq
    split at heq
    · cases (List.cons.inj heq).1
      exact hkey
    · cases (List.cons.inj heq).1
  · intro n many more hn
    simp only [List.length_append] at hn
    have hread := hts.reads n (blankTokens b' ++ .closeBracket :: more) (by omega)
      (by simp [skipBlank_append])
    rw [skipBlank_append b' (by simp)] at hread
    simp only [List.append_assoc, List.cons_append] at hread ⊢
    rw [header?, hkey.skipBlank, hread]

/-- **However a line is written, it has `LineTokens`.** -/
theorem SpellsLine.tokens {l : Line} {w : Text} (h : SpellsLine l w) : ∃ ts, LineTokens l w ts := by
  cases h with
  | set key before after value =>
    obtain ⟨ts, hts⟩ := setTokens key before after value.reads
    exact ⟨ts, hts.line⟩
  | table before key after =>
    obtain ⟨ts, hlexes, hlength, hopen, hread⟩ := header?_path before key after .nil
    refine ⟨.openBracket :: (ts ++ [.closeBracket]), hlexes.toAny.sign (by decide),
      .cons (by decide) _, ⟨by simp, fun more => rfl⟩, ?_, fun n more hn hmore => ?_⟩
    · simp only [Line.path, List.length_cons, List.length_append]
      omega
    · simp only [List.length_cons, List.length_append] at hn
      rw [List.cons_append, List.append_assoc, line?]
      · exact hread n false more (by omega)
      · intro rest heq
        exact hopen _ _ heq
  | element before key after =>
    have hclose : sign? ']' = some .closeBracket := by decide
    obtain ⟨ts, hlexes, hlength, hopen, hread⟩ := header?_path before key after (lexes_sign hclose)
    refine ⟨.openBracket :: .openBracket :: (ts ++ [.closeBracket, .closeBracket]),
      (hlexes.toAny.sign (by decide)).sign (by decide), .cons (by decide) _,
      ⟨by simp, fun more => rfl⟩, ?_, fun n more hn hmore => ?_⟩
    · simp only [Line.path, List.length_cons, List.length_append]
      omega
    · simp only [List.length_cons, List.length_append] at hn
      rw [List.cons_append, List.cons_append, List.append_assoc, line?]
      exact hread n true _ (by omega)

/-! ## Lines below each other -/

theorem Lexes.lex {edge : Char → Bool} {w rest : Text} {ts us : List Token} (h : Lexes edge w ts)
    (hrest : lex rest = some us) (hmeets : Meets edge rest) :
    lex (w ++ rest) = some (ts ++ us) := by
  rw [h rest hmeets, hrest]
  rfl

/-- A comment may be the last thing there is. -/
theorem Comment.lex {c : Text} (h : Comment c) : lex c = some (commentTokens c) := by
  have hnil : Toml.lex [] = some [] := by rw [Toml.lex]
  simpa using h.lexes.lex hnil .nil

theorem lineEnd?_newline (b c : Text) (rest : Rest) :
    lineEnd? (blankTokens b ++ (commentTokens c ++ .newline :: rest)) = some rest := by
  by_cases hc : c = []
  · rw [commentTokens, if_pos hc, List.nil_append, lineEnd?, skipBlank_append b (by simp)]
  · rw [commentTokens, if_neg hc, List.singleton_append, lineEnd?, skipBlank_append b (by simp)]

theorem lineEnd?_end (b c : Text) : lineEnd? (blankTokens b ++ commentTokens c) = some [] := by
  by_cases hc : c = []
  · rw [commentTokens, if_pos hc, List.append_nil]
    unfold blankTokens
    split <;> rfl
  · rw [commentTokens, if_neg hc, lineEnd?, skipBlank_append b (by simp)]

theorem follows_newline (b c : Text) (rest : Rest) :
    Follows (blankTokens b ++ (commentTokens c ++ .newline :: rest)) := by
  unfold commentTokens
  split
  · exact follows_blank b _ (by simp)
  · exact follows_blank b _ (by simp)

theorem follows_end (b c : Text) : Follows (blankTokens b ++ commentTokens c) := by
  unfold commentTokens
  split
  · unfold blankTokens
    split <;> simp [Follows, skipBlank]
  · exact follows_blank b _ (by simp)

/-- A line is read, and then those below it. -/
theorem LineTokens.lines? {l : Line} {w : Text} {ts gs : List Token} (h : LineTokens l w ts)
    (hgap : GapTokens gs) {more rest : Rest} (hmore : Follows more)
    (hend : lineEnd? more = some rest) {n : Nat} (hn : ts.length ≤ n + 1) :
    lines? (n + 1) (gs ++ (ts ++ more)) = (lines? n rest).map (l :: ·) := by
  obtain ⟨hne, hskip⟩ := h.first
  rw [Toml.lines?, hgap.skipLines, hskip]
  split
  · next hnil => exact absurd (List.append_eq_nil_iff.1 hnil).1 hne
  · rw [h.reads (n + 1) more hn hmore, hend]
    rfl

/-- **However lines are written, `lines?` reads them.** -/
theorem SpellsLines.tokens {ls : List Line} {w : Text} (h : SpellsLines ls w) :
    ∃ ts, lex w = some ts ∧ (∀ l ∈ ls, l.path.length ≤ ts.length) ∧
      ∀ n, ts.length < n → lines? n ts = some ls := by
  induction h with
  | @none g c gap comment =>
    obtain ⟨gs, hgs, hgap⟩ := gap.lexes
    refine ⟨_, hgs.lex comment.lex (comment.meets (by decide)), List.forall_mem_nil _,
      fun n hn => ?_⟩
    cases n with
    | zero => exact absurd hn (Nat.not_lt_zero _)
    | succ n =>
      have hskip : skipLines (commentTokens c) = [] := by
        unfold commentTokens
        split <;> rfl
      rw [lines?, hgap.skipLines, hskip]
  | @last l g w b c gap line blank comment =>
    obtain ⟨gs, hgs, hgap⟩ := gap.lexes
    obtain ⟨ts, hts⟩ := line.tokens
    have hblank := blank.lexes.lex comment.lex (comment.meets (by decide))
    have hline := hts.lexes.lex hblank
      ((blank.meets (by decide) (by decide)).append (comment.meets (by decide)))
    refine ⟨_, hgs.lex hline (hts.starts.append _).meets, fun l' hl' => ?_, fun n hn => ?_⟩
    · cases List.mem_singleton.1 hl'
      have hlength := hts.length
      simp only [List.length_append]
      omega
    · have hpos := List.length_pos_iff.2 hts.first.1
      simp only [List.length_append] at hn
      obtain ⟨n, rfl⟩ : ∃ m, n = m + 2 := ⟨n - 2, by omega⟩
      rw [hts.lines? hgap (follows_end b c) (lineEnd?_end b c) (by omega)]
      rfl
  | @cons l ls g w b c ws gap line blank comment rest ih =>
    obtain ⟨gs, hgs, hgap⟩ := gap.lexes
    obtain ⟨ts, hts⟩ := line.tokens
    obtain ⟨us, hus, hpaths, hread⟩ := ih
    have hfeed : lex ('\n' :: ws) = some (.newline :: us) := by
      rw [lex, hus]
      rfl
    have hcomment := comment.lexes.lex hfeed (Starts.cons (by decide) ws).meets
    have hblank := blank.lexes.lex hcomment
      ((comment.meets (by decide)).append (Starts.cons (by decide) ws).meets)
    have hline := hts.lexes.lex hblank ((blank.meets (by decide) (by decide)).append
      ((comment.meets (by decide)).append (Starts.cons (by decide) ws).meets))
    refine ⟨_, hgs.lex hline (hts.starts.append _).meets, fun l' hl' => ?_, fun n hn => ?_⟩
    · simp only [List.length_append, List.length_cons]
      rcases List.mem_cons.1 hl' with rfl | hl'
      · have hlength := hts.length
        omega
      · have hlength := hpaths l' hl'
        omega
    · simp only [List.length_append, List.length_cons] at hn
      obtain ⟨n, rfl⟩ : ∃ m, n = m + 1 := ⟨n - 1, by omega⟩
      rw [hts.lines? hgap (follows_newline b c us) (lineEnd?_newline b c us) (by omega),
        hread n (by omega)]
      rfl

end ClipLedger.Toml
