import ClipLedger.Proofs.Toml.Build
import ClipLedger.Proofs.Toml.Date
import ClipLedger.Proofs.Toml.Float

/-
  However keys and values are written, they are read (`SpellsPath.tokens`, `Spells.reads`). For a
  list and for a table between braces this is by induction on the way they are written: what is read
  of one part ends where the next one begins.
-/
namespace ClipLedger.Toml

/-! ## Keys -/

/-- The token is a key. -/
def Token.IsKey : Token → Prop
  | .word _ | .text _ false => True
  | _ => False

/-- Blanks in front of another token are passed over. -/
theorem skipBlank_append (b : Text) {token : Token} (h : ∀ t, token ≠ .blank t) (more : Rest) :
    skipBlank (blankTokens b ++ token :: more) = token :: more := by
  have hskip : skipBlank (token :: more) = token :: more := by
    cases token with
    | blank t => exact absurd rfl (h t)
    | _ => rfl
  unfold blankTokens
  split
  · exact hskip
  · rfl

theorem Token.IsKey.skipBlank {token : Token} (h : token.IsKey) (b : Text) (more : Rest) :
    skipBlank (blankTokens b ++ token :: more) = token :: more :=
  skipBlank_append b (fun t heq => by rw [heq] at h; exact h) more

theorem SpellsKey.token {k w : Text} (h : SpellsKey k w) :
    ∃ token : Token, token.IsKey ∧ Lexes endsValue w [token] ∧ Starts endsBlank w ∧
      ∀ more, key? (token :: more) = some (k, more) := by
  cases h with
  | bare nonempty word =>
    exact ⟨.word k, trivial, lexes_value_word nonempty word, starts_word nonempty word,
      fun more => rfl⟩
  | quoted text =>
    exact ⟨.text k false, trivial, text.lexes, text.starts, fun more => rfl⟩

/-- How a key path, written as `w`, is read. -/
structure PathTokens (ks : List Text) (w : Text) (ts : List Token) : Prop where
  lexes : Lexes endsValue w ts
  starts : Starts endsBlank w
  first : ∃ token more, ts = token :: more ∧ token.IsKey
  length : ks.length ≤ ts.length
  reads : ∀ n more, ts.length ≤ n → (∀ rest, skipBlank more ≠ .period :: rest) →
    keyPath? n (ts ++ more) = some (ks, skipBlank more)

/-- **However a key path is written, it has `PathTokens`.** -/
theorem SpellsPath.tokens {ks : List Text} {w : Text} (h : SpellsPath ks w) :
    ∃ ts, PathTokens ks w ts := by
  induction h with
  | last key =>
    obtain ⟨token, hkey, hlexes, hstarts, hread⟩ := key.token
    refine ⟨[token], hlexes, hstarts, ⟨token, [], rfl, hkey⟩, Nat.le_refl _, ?_⟩
    intro n more hn hmore
    cases n with
    | zero => exact absurd hn (Nat.not_succ_le_zero _)
    | succ n =>
      rw [List.singleton_append, keyPath?, hread]
      dsimp only
      split
      · next rest heq => exact absurd heq (hmore rest)
      · rfl
  | @cons k w b b' ws ks key before after rest ih =>
    obtain ⟨token, hkey, hlexes, hstarts, hread⟩ := key.token
    obtain ⟨ts, hts⟩ := ih
    have hperiod : Lexes endsValue ('.' :: (b' ++ ws)) (.period :: (blankTokens b' ++ ts)) :=
      (after.lexes.append hts.lexes hts.starts).sign (by decide)
    have hbehind := before.lexes.append hperiod (.cons (by decide) _)
    have hall : Lexes endsValue (w ++ (b ++ '.' :: (b' ++ ws)))
        (token :: (blankTokens b ++ .period :: (blankTokens b' ++ ts))) :=
      hlexes.append hbehind ((Starts.cons (by decide) _).blank before (by decide) (by decide))
    refine ⟨_, hall, hstarts.append _, ⟨token, _, rfl, hkey⟩, ?_, ?_⟩
    · have hlength := hts.length
      simp only [List.length_append, List.length_cons] at hlength ⊢
      omega
    · intro n more hn hmore
      cases n with
      | zero => exact absurd hn (Nat.not_succ_le_zero _)
      | succ n =>
        obtain ⟨first, more', rfl, hfirst⟩ := hts.first
        have hlength : (first :: more').length ≤ n := by
          simp only [List.length_append, List.length_cons] at hn ⊢
          omega
        have hpath := hts.reads n more hlength hmore
        simp only [List.cons_append, List.append_assoc] at hpath ⊢
        rw [keyPath?, hread]
        dsimp only
        rw [skipBlank_append b (by simp)]
        dsimp only
        rw [hfirst.skipBlank, hpath]
        rfl

/-! ## Values -/

theorem GapTokens.follows {ts : List Token} (h : GapTokens ts) {token : Token}
    (htoken : token = .comma ∨ token = .closeBracket) (more : Rest) :
    Follows (ts ++ token :: more) := by
  have hblank : ∀ t, token ≠ .blank t := by
    rcases htoken with rfl | rfl <;> simp
  intro first hfirst
  cases h with
  | blank b =>
    rw [skipBlank_append b hblank] at hfirst
    cases hfirst
    rcases htoken with rfl | rfl <;> simp
  | line b c rest =>
    rw [List.append_assoc] at hfirst
    unfold commentTokens at hfirst
    split at hfirst
    · rw [List.nil_append, List.cons_append, skipBlank_append b (by simp)] at hfirst
      cases hfirst
      simp
    · rw [List.singleton_append, List.cons_append, skipBlank_append b (by simp)] at hfirst
      cases hfirst
      simp

theorem follows_blank (b : Text) {token : Token} (more : Rest)
    (h : token ∈ [.newline, .comment, .comma, .closeBracket, .closeBrace]) :
    Follows (blankTokens b ++ token :: more) := by
  have hblank : ∀ t, token ≠ .blank t := by
    rintro t rfl
    simp at h
  intro first hfirst
  rw [skipBlank_append b hblank] at hfirst
  cases hfirst
  exact h

/-- A text is one token. -/
theorem readAs_text {t w : Text} {multiline : Bool} (hlexes : Lexes endsValue w [.text t multiline])
    (hstarts : Starts endsBlank w) : ReadAs (.text t) w [.text t multiline] := by
  refine ⟨hlexes, hstarts, ⟨_, _, rfl, trivial⟩, fun n more hn hmore => ?_⟩
  cases n with
  | zero => exact absurd hn (Nat.not_succ_le_zero _)
  | succ n => rfl

theorem SpellsLineText.readAs {t w : Text} (h : SpellsLineText t w) :
    ReadAs (.text t) w [.text t false] := readAs_text h.lexes h.starts

theorem SpellsLinesText.readAs {t w : Text} (h : SpellsLinesText t w) :
    ReadAs (.text t) w [.text t true] := readAs_text h.lexes h.starts

theorem SpellsInteger.readAs {n : Int} {w : Text} (h : SpellsInteger n w) (hrange : InRange n) :
    ∃ ts, ReadAs (.integer n) w ts := by
  cases h with
  | decimal signed whole => exact whole.readAs signed hrange
  | based known digits => exact ⟨_, digits.readAs known hrange⟩

theorem readAs_bool (value : Bool) (w : Text)
    (h : value = true ∧ w = "true".toList ∨ value = false ∧ w = "false".toList) :
    ∃ ts, ReadAs (.bool value) w ts := by
  have hword : w ≠ [] ∧ (∀ c ∈ w, isWordChar c = true) ∧
      ∀ more, word? w more = some (.bool value, more) := by
    rcases h with ⟨rfl, rfl⟩ | ⟨rfl, rfl⟩
    · exact ⟨by decide, by decide, fun more => rfl⟩
    · exact ⟨by decide, by decide, fun more => rfl⟩
  obtain ⟨hne, hchars, hread⟩ := hword
  have hlexes : Lexes endsValue (w ++ []) [.word w] := by
    rw [List.append_nil]
    exact lexes_value_word hne hchars
  rw [← List.append_nil w]
  exact ⟨_, readAs_of_word hlexes (starts_word hne hchars) fun more _ => hread more⟩

/-! ## Key paths with their values -/

/-- How a key path with its value, written as `w`, is read. -/
structure SetTokens (path : List Text) (v : Toml) (w : Text) (ts : List Token) : Prop where
  lexes : Lexes endsValue w ts
  starts : Starts endsBlank w
  first : ∃ token more, ts = token :: more ∧ token.IsKey
  length : path.length ≤ ts.length
  reads : ∀ n more, ts.length ≤ n → Follows more → ∃ rest,
    keyPath? n (ts ++ more) = some (path, .equals :: rest) ∧
      value? n (skipBlank rest) = some (v, more)

theorem ReadAs.skipBlank {v : Toml} {w : Text} {ts : List Token} (h : ReadAs v w ts) (b : Text)
    (more : Rest) : skipBlank (blankTokens b ++ (ts ++ more)) = ts ++ more := by
  obtain ⟨token, ts, rfl, hbegins⟩ := h.begins
  exact skipBlank_append b (fun t heq => by rw [heq] at hbegins; exact hbegins) (ts ++ more)

theorem setTokens {path : List Text} {v : Toml} {w b b' u : Text} (hpath : SpellsPath path w)
    (hb : Blank b) (hb' : Blank b') (hv : ∃ ts, ReadAs v u ts) :
    ∃ ts, SetTokens path v (w ++ (b ++ '=' :: (b' ++ u))) ts := by
  obtain ⟨ts, hts⟩ := hpath.tokens
  obtain ⟨us, hus⟩ := hv
  have hequals : Lexes endsValue ('=' :: (b' ++ u)) (.equals :: (blankTokens b' ++ us)) :=
    (hb'.lexes.append hus.lexes hus.starts).sign (by decide)
  have hall : Lexes endsValue (w ++ (b ++ '=' :: (b' ++ u)))
      (ts ++ (blankTokens b ++ .equals :: (blankTokens b' ++ us))) :=
    hts.lexes.append (hb.lexes.append hequals (.cons (by decide) _))
      ((Starts.cons (by decide) _).blank hb (by decide) (by decide))
  obtain ⟨token, ts', rfl, hkey⟩ := hts.first
  refine ⟨_, hall, hts.starts.append _, ⟨token, _, rfl, hkey⟩, ?_, fun n more hn hmore => ?_⟩
  · exact Nat.le_trans hts.length (by simp)
  · simp only [List.length_append, List.length_cons] at hn
    have hread := hts.reads n (blankTokens b ++ .equals :: (blankTokens b' ++ (us ++ more)))
      (by simp only [List.length_cons]; omega) (by simp [skipBlank_append])
    refine ⟨blankTokens b' ++ (us ++ more), ?_, ?_⟩
    · rw [skipBlank_append b (by simp)] at hread
      simpa using hread
    · rw [hus.skipBlank]
      exact hus.reads n more (by omega) hmore

/-! ## Lists -/

/-- An edge that allows everything. -/
def anyChar (_ : Char) : Bool := true

/-- How the items of a list are read, with the closing bracket. -/
structure ItemTokens (vs : List Toml) (w : Text) (ts : List Token) : Prop where
  lexes : Lexes anyChar w ts
  reads : ∀ n more, ts.length ≤ n → items? n (ts ++ more) = some (vs, more)

theorem Lexes.toAny {edge : Char → Bool} {w : Text} {ts : List Token} (h : Lexes anyChar w ts) :
    Lexes edge w ts := h.mono fun _ _ => rfl

theorem lexes_sign {c : Char} {token : Token} (h : sign? c = some token) :
    Lexes anyChar [c] [token] := Lexes.nil.sign h

theorem ItemTokens.readAs {vs : List Toml} {w : Text} {ts : List Token} (h : ItemTokens vs w ts) :
    ReadAs (.list vs) ('[' :: w) (.openBracket :: ts) := by
  refine ⟨h.lexes.toAny.sign (by decide), .cons (by decide) w, ⟨_, _, rfl, trivial⟩,
    fun n more hn hmore => ?_⟩
  cases n with
  | zero => exact absurd hn (Nat.not_succ_le_zero _)
  | succ n =>
    rw [List.cons_append, value?, h.reads n more (Nat.le_of_succ_le_succ hn)]
    rfl

theorem itemTokens_nil {g : Text} (hg : Gap g) : ∃ ts, ItemTokens [] (g ++ [']']) ts := by
  obtain ⟨gs, hlexes, hgap⟩ := hg.lexes
  refine ⟨gs ++ [.closeBracket],
    hlexes.append (lexes_sign (by decide)) (.cons (by decide) _), fun n more hn => ?_⟩
  cases n with
  | zero => simp at hn
  | succ n =>
    rw [List.append_assoc, items?, hgap.skipLines]
    rfl

section Items

variable {n : Nat} {ts rest rest' : Rest} {v : Toml}
  (hopen : ∀ more, skipLines ts ≠ .closeBracket :: more)
  (hvalue : value? n (skipLines ts) = some (v, rest))

include hopen hvalue

/-- An item with a comma behind it. -/
theorem items?_comma (hcomma : skipLines rest = .comma :: rest') :
    items? (n + 1) ts = (items? n rest').map fun (vs, more) => (v :: vs, more) := by
  rw [items?]
  split
  · next heq => exact absurd heq (hopen _)
  · rw [hvalue]
    dsimp only
    rw [hcomma]

/-- The last item. -/
theorem items?_last (hclose : skipLines rest = .closeBracket :: rest') :
    items? (n + 1) ts = some ([v], rest') := by
  rw [items?]
  split
  · next heq => exact absurd heq (hopen _)
  · rw [hvalue]
    dsimp only
    rw [hclose]

end Items

/-- How an item with the gaps around it is read, in front of a comma or of the closing bracket. -/
structure ItemFront (v : Toml) (w : Text) (ts : List Token) : Prop where
  comma : ∀ {ws : Text} {us : List Token}, Lexes anyChar ws us →
    Lexes anyChar (w ++ ',' :: ws) (ts ++ .comma :: us)
  close : Lexes anyChar (w ++ [']']) (ts ++ [.closeBracket])
  more : ∀ n more, ts.length ≤ n → items? (n + 1) (ts ++ .comma :: more) =
    (items? n more).map fun (vs, rest) => (v :: vs, rest)
  last : ∀ n more, ts.length ≤ n → items? (n + 1) (ts ++ .closeBracket :: more) = some ([v], more)

theorem itemFront {g w g' : Text} {v : Toml} (hg : Gap g) (hv : ∃ ts, ReadAs v w ts)
    (hg' : Gap g') : ∃ ts, ItemFront v (g ++ (w ++ g')) ts := by
  obtain ⟨gs, hgs, hgap⟩ := hg.lexes
  obtain ⟨ts, hts⟩ := hv
  obtain ⟨gs', hgs', hgap'⟩ := hg'.lexes
  have hlexes {c : Char} {token : Token} (hc : sign? c = some token)
      (hends : endsBlank c = true ∧ endsValue c = true) {ws : Text} {us : List Token}
      (hws : Lexes anyChar ws us) :
      Lexes anyChar (g ++ (w ++ g') ++ c :: ws) (gs ++ (ts ++ gs') ++ token :: us) := by
    have hbehind := hgs'.append (hws.sign hc) (.cons hends.1 _)
    have hitem := hts.lexes.append hbehind
      (.gap hg' (by decide) (by decide) (by decide) (by decide) (.cons hends.2 _))
    have hall := hgs.append hitem (hts.starts.append _)
    simpa only [List.append_assoc] using hall
  -- Behind the gap in front the value begins, and no bracket closes the list.
  have hfront (more : Rest) : skipLines (gs ++ (ts ++ gs') ++ more) = ts ++ (gs' ++ more) ∧
      ∀ rest, ts ++ (gs' ++ more) ≠ .closeBracket :: rest := by
    obtain ⟨first, ts, rfl, hbegins⟩ := hts.begins
    rw [List.append_assoc, hgap.skipLines]
    constructor
    · cases first with
      | blank | newline | comment => exact hbegins.elim
      | _ => simp [skipLines]
    · rintro rest heq
      cases heq
      exact hbegins
  have hopen (more : Rest) : ∀ rest,
      skipLines (gs ++ (ts ++ gs') ++ more) ≠ .closeBracket :: rest := by
    rw [(hfront more).1]
    exact (hfront more).2
  have hvalue {n : Nat} (hn : (gs ++ (ts ++ gs')).length ≤ n) {token : Token}
      (htoken : token = .comma ∨ token = .closeBracket) (more : Rest) :
      value? n (skipLines (gs ++ (ts ++ gs') ++ token :: more)) =
        some (v, gs' ++ token :: more) := by
    simp only [List.length_append] at hn
    rw [(hfront _).1]
    exact hts.reads n _ (by omega) (hgap'.follows htoken more)
  refine ⟨gs ++ (ts ++ gs'), fun hws => hlexes (by decide) (by decide) hws,
    hlexes (by decide) (by decide) .nil, fun n more hn => ?_, fun n more hn => ?_⟩
  · exact items?_comma (hopen _) (hvalue hn (.inl rfl) more) (hgap'.skipLines _)
  · exact items?_last (hopen _) (hvalue hn (.inr rfl) more) (hgap'.skipLines _)

/-! ## Tables between braces -/

/-- How the entries of a table between braces are read, with the closing brace. -/
structure EntryTokens (sets : Sets) (w : Text) (ts : List Token) : Prop where
  lexes : Lexes anyChar w ts
  none : sets = [] → ∀ more, skipBlank (ts ++ more) = .closeBrace :: more
  reads : sets ≠ [] → ∀ n more, ts.length ≤ n →
    (∀ rest, skipBlank (ts ++ more) ≠ .closeBrace :: rest) ∧
      entries? n (skipBlank (ts ++ more)) = some (sets, more)

theorem EntryTokens.readAs {sets : Sets} {pairs : List (Text × Toml)} {w : Text} {ts : List Token}
    (h : EntryTokens sets w ts) (hsound : Outline.Sound ⟨sets, [], pairs⟩) :
    ReadAs (.table pairs) ('\x7b' :: w) (.openBrace :: ts) := by
  refine ⟨h.lexes.toAny.sign (by decide), .cons (by decide) w, ⟨_, _, rfl, trivial⟩,
    fun n more hn hmore => ?_⟩
  have hbuild := build?_of_sound hsound
  cases n with
  | zero => exact absurd hn (Nat.not_succ_le_zero _)
  | succ n =>
    rw [List.cons_append]
    by_cases hnil : sets = []
    · subst hnil
      cases hbuild
      rw [value?, h.none rfl more]
      rfl
    · obtain ⟨hopen, hread⟩ := h.reads hnil n more (Nat.le_of_succ_le_succ hn)
      rw [value?]
      split
      · next heq => exact absurd heq (hopen _)
      · rw [hread]
        dsimp only
        rw [hbuild]
        rfl

theorem entryTokens_nil {b : Text} (hb : Blank b) :
    ∃ ts, EntryTokens [] (b ++ ['\x7d']) ts := by
  have hclose : sign? '\x7d' = some .closeBrace := by decide
  have hlexes := hb.lexes.append (lexes_sign hclose) (.cons (by decide) _)
  refine ⟨_, hlexes, fun _ more => ?_, fun h => absurd rfl h⟩
  rw [List.append_assoc]
  exact skipBlank_append b (by simp) more

/-- An entry with blanks around it, in front of a comma or of the closing brace. -/
theorem entryTokens_cons {path : List Text} {v : Toml} {sets : Sets} {b w b' ws : Text} {c : Char}
    {token : Token} {us : List Token} (hb : Blank b) (hset : ∃ ts, SetTokens path v w ts)
    (hb' : Blank b') (hc : sign? c = some token) (hends : endsBlank c = true ∧ endsValue c = true)
    (hws : Lexes anyChar ws us)
    (hrest : token = .closeBrace ∧ sets = [] ∧ us = [] ∨ token = .comma ∧ ∀ n more, us.length ≤ n →
      entries? n (skipBlank (us ++ more)) = some (sets, more)) :
    ∃ ts, EntryTokens ((path, v) :: sets) (b ++ (w ++ (b' ++ c :: ws))) ts := by
  obtain ⟨ts, hts⟩ := hset
  have hall : Lexes anyChar (b ++ (w ++ (b' ++ c :: ws)))
      (blankTokens b ++ (ts ++ (blankTokens b' ++ token :: us))) := by
    have hbehind := hb'.lexes.append (hws.sign hc) (.cons hends.1 _)
    have hentry := hts.lexes.append hbehind
      ((Starts.cons hends.2 _).blank hb' (by decide) (by decide))
    exact hb.lexes.append hentry (hts.starts.append _)
  obtain ⟨first, ts, rfl, hkey⟩ := hts.first
  refine ⟨_, hall, fun h => by simp at h, fun _ n more hn => ?_⟩
  simp only [List.append_assoc, List.cons_append, List.length_append, List.length_cons] at hn ⊢
  rw [hkey.skipBlank]
  refine ⟨fun rest heq => ?_, ?_⟩
  · cases heq
    exact hkey
  cases n with
  | zero => omega
  | succ n =>
    have hfollows : Follows (blankTokens b' ++ token :: (us ++ more)) := by
      refine follows_blank b' _ ?_
      rcases hrest with ⟨rfl, -⟩ | ⟨rfl, -⟩ <;> simp
    obtain ⟨rest, hpath, hvalue⟩ := hts.reads n _ (by simp only [List.length_cons]; omega) hfollows
    rw [List.cons_append] at hpath
    rw [entries?, hpath]
    dsimp only
    rw [hvalue]
    dsimp only
    rcases hrest with ⟨rfl, rfl, rfl⟩ | ⟨rfl, hrest⟩
    · rw [skipBlank_append b' (by simp)]
      rfl
    · rw [skipBlank_append b' (by simp)]
      dsimp only
      rw [hrest n more (by omega)]
      rfl

/-! ## Values -/

/-- How a part of a document, written as a text, is read. -/
def Reads : Part → Text → Prop
  | .value v, w => ∃ ts, ReadAs v w ts
  | .items vs, w => ∃ ts, ItemTokens vs w ts
  | .entries sets, w => ∃ ts, EntryTokens sets w ts

/-- **However a value is written, `value?` reads it.** -/
theorem Spells.reads {part : Part} {w : Text} (h : Spells part w) : Reads part w := by
  induction h with
  | lineText text => exact ⟨_, text.readAs⟩
  | linesText text => exact ⟨_, text.readAs⟩
  | integer integer range => exact integer.readAs range
  | float float => exact float.readAs
  | true => exact readAs_bool _ _ (.inl ⟨rfl, rfl⟩)
  | false => exact readAs_bool _ _ (.inr ⟨rfl, rfl⟩)
  | datetime datetime => exact datetime.readAs
  | list items ih =>
    obtain ⟨ts, hts⟩ := ih
    exact ⟨_, hts.readAs⟩
  | table entries sound ih =>
    obtain ⟨ts, hts⟩ := ih
    exact ⟨_, hts.readAs sound⟩
  | noItem gap => exact itemTokens_nil gap
  | @lastItem v g w g' before value after ih =>
    obtain ⟨ts, hts⟩ := itemFront before ih after
    have hlexes := hts.close
    refine ⟨ts ++ [.closeBracket], by simpa using hlexes, fun n more hn => ?_⟩
    cases n with
    | zero => simp at hn
    | succ n =>
      rw [List.append_assoc, List.singleton_append]
      exact hts.last n more (by simpa using hn)
  | @item v vs g w g' ws before value after rest ih ihs =>
    obtain ⟨ts, hts⟩ := itemFront before ih after
    obtain ⟨us, hus⟩ := ihs
    have hlexes := hts.comma hus.lexes
    refine ⟨ts ++ .comma :: us, by simpa using hlexes, fun n more hn => ?_⟩
    simp only [List.length_append, List.length_cons] at hn
    cases n with
    | zero => simp at hn
    | succ n =>
      rw [List.append_assoc, List.cons_append, hts.more n _ (by omega), hus.reads n more (by omega)]
      rfl
  | noEntry blank => exact entryTokens_nil blank
  | lastEntry blank key before after value ends ih =>
    have hentry := entryTokens_cons (c := '\x7d') blank (setTokens key before after ih) ends
      (by decide) (by decide) .nil (.inl ⟨rfl, rfl, rfl⟩)
    simpa [Reads] using hentry
  | entry blank key before after value ends nonempty rest ih ihs =>
    obtain ⟨us, hus⟩ := ihs
    have hentry := entryTokens_cons (c := ',') blank (setTokens key before after ih) ends
      (by decide) (by decide) hus.lexes
      (.inr ⟨rfl, fun n more hn => (hus.reads nonempty n more hn).2⟩)
    simpa [Reads] using hentry

end ClipLedger.Toml
