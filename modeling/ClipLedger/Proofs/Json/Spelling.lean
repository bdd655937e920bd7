import ClipLedger.Proofs.Json.Number
import ClipLedger.Proofs.Json.RoundTrip
import Mathlib.Data.List.Chain

/-
  All texts that spell a JSON value. The tokens of a value may have layout between them, and each
  character of a text may be written in several ways: as itself, by an escape of one letter, by its
  code, or by the codes of two surrogates. Reading gives the value back whichever way was taken
  (`read?_of_spells`).
-/
namespace ClipLedger.Json

/-! ## Characters and texts -/

/-- The letters of the escapes with one letter, each with the character that it stands for. -/
def shortEscapes : List (Char × Char) :=
  [('"', '"'), ('\\', '\\'), ('/', '/'), ('b', '\x08'), ('f', '\x0c'), ('n', '\n'), ('r', '\r'),
    ('t', '\t')]

/-- The ways to write a character between quotes. -/
inductive SpellsChar : Char → Text → Prop
  | plain {c : Char} (control : 0x20 ≤ c.toNat) (quote : c ≠ '"') (backslash : c ≠ '\\') :
      SpellsChar c [c]
  | short {c letter : Char} (known : (letter, c) ∈ shortEscapes) : SpellsChar c ['\\', letter]
  | code {c d₁ d₂ d₃ d₄ : Char} (value : Hex.number? [d₁, d₂, d₃, d₄] = some c.toNat) :
      SpellsChar c ['\\', 'u', d₁, d₂, d₃, d₄]
  | pair {c d₁ d₂ d₃ d₄ e₁ e₂ e₃ e₄ : Char} {high low : Nat}
      (first : Hex.number? [d₁, d₂, d₃, d₄] = some high)
      (second : Hex.number? [e₁, e₂, e₃, e₄] = some low)
      (isHigh : 0xD800 ≤ high ∧ high ≤ 0xDBFF) (isLow : 0xDC00 ≤ low ∧ low ≤ 0xDFFF)
      (value : c.toNat = 0x10000 + (high - 0xD800) * 0x400 + (low - 0xDC00)) :
      SpellsChar c ['\\', 'u', d₁, d₂, d₃, d₄, '\\', 'u', e₁, e₂, e₃, e₄]

/-- The ways to write a text, without its quotes. -/
inductive SpellsText : Text → Text → Prop
  | nil : SpellsText [] []
  | cons {c : Char} {t w ws : Text} (first : SpellsChar c w) (rest : SpellsText t ws) :
      SpellsText (c :: t) (w ++ ws)

/-- A text without controls, quotes and backslashes may stand for itself. -/
theorem SpellsText.plain {t : Text}
    (h : ∀ c ∈ t, 0x20 ≤ c.toNat ∧ c ≠ '"' ∧ c ≠ '\\') : SpellsText t t := by
  induction t with
  | nil => exact .nil
  | cons c t ih =>
    obtain ⟨hcontrol, hquote, hbackslash⟩ := h c List.mem_cons_self
    exact .cons (.plain hcontrol hquote hbackslash) (ih fun d hd => h d (List.mem_cons_of_mem c hd))

theorem not_isSurrogate (c : Char) : isLowSurrogate c.toNat = false ∧
    isHighSurrogate c.toNat = false := by
  have hvalid : c.toNat.isValidChar := c.valid
  unfold isLowSurrogate isHighSurrogate
  rcases hvalid with h | h
  · exact ⟨by simp; omega, by simp; omega⟩
  · exact ⟨by simp; omega, by simp; omega⟩

theorem joinUnits_char (c : Char) (us : List Unit16) :
    joinUnits (.char c :: us) = (joinUnits us).map (c :: ·) := by
  rw [joinUnits]

theorem joinUnits_code (c : Char) (us : List Unit16) :
    joinUnits (.escaped c.toNat :: us) = (joinUnits us).map (c :: ·) := by
  obtain ⟨hlow, hhigh⟩ := not_isSurrogate c
  rw [joinUnits.eq_def]
  dsimp only
  rw [if_neg (by rw [hlow]; decide), if_neg (by rw [hhigh]; decide), Char.ofNat_toNat]

theorem joinUnits_pair {c : Char} {high low : Nat} (hhigh : 0xD800 ≤ high ∧ high ≤ 0xDBFF)
    (hlow : 0xDC00 ≤ low ∧ low ≤ 0xDFFF)
    (hvalue : c.toNat = 0x10000 + (high - 0xD800) * 0x400 + (low - 0xDC00)) (us : List Unit16) :
    joinUnits (.escaped high :: .escaped low :: us) = (joinUnits us).map (c :: ·) := by
  have h₁ : isLowSurrogate high = false := by
    unfold isLowSurrogate
    simp
    omega
  have h₂ : isHighSurrogate high = true := by
    unfold isHighSurrogate
    simp
    omega
  have h₃ : isLowSurrogate low = true := by
    unfold isLowSurrogate
    simp
    omega
  have hc : ofSurrogates high low = c := by
    unfold ofSurrogates
    rw [← hvalue, Char.ofNat_toNat]
  rw [joinUnits.eq_def]
  dsimp only
  rw [if_neg (by rw [h₁]; decide), if_pos h₂, if_pos h₃, hc]

/-- However `c` is written, `scanUnits` reads units that `joinUnits` joins to it. -/
theorem scanUnits_spelled {c : Char} {w : Text} (h : SpellsChar c w) :
    ∃ us, (∀ rest, scanUnits (w ++ rest) =
        (scanUnits rest).map fun out => (us ++ out.1, out.2)) ∧
      ∀ more, joinUnits (us ++ more) = (joinUnits more).map (c :: ·) := by
  cases h with
  | plain control quote backslash =>
    refine ⟨[.char c], fun rest => ?_, joinUnits_char c⟩
    rw [List.singleton_append, scanUnits, if_neg (by simp [backslash]; omega)]
    · rfl
    all_goals simp [quote, backslash]
  | short known =>
    refine ⟨[.char c], fun rest => ?_, joinUnits_char c⟩
    simp only [shortEscapes, List.mem_cons, Prod.mk.injEq, List.not_mem_nil, or_false] at known
    rcases known with ⟨rfl, rfl⟩ | ⟨rfl, rfl⟩ | ⟨rfl, rfl⟩ | ⟨rfl, rfl⟩ | ⟨rfl, rfl⟩ | ⟨rfl, rfl⟩ |
      ⟨rfl, rfl⟩ | ⟨rfl, rfl⟩ <;> rfl
  | code value =>
    refine ⟨[.escaped c.toNat], fun rest => ?_, joinUnits_code c⟩
    simp only [List.cons_append, List.nil_append]
    rw [scanUnits, value]
    rfl
  | pair first second isHigh isLow value =>
    refine ⟨[.escaped _, .escaped _], fun rest => ?_, joinUnits_pair isHigh isLow value⟩
    simp only [List.cons_append, List.nil_append]
    rw [scanUnits, first]
    dsimp only
    rw [scanUnits, second, Option.map_map]
    rfl

theorem scanUnits_spelledText {t w : Text} (h : SpellsText t w) :
    ∃ us, (∀ rest, scanUnits (w ++ '"' :: rest) = some (us, rest)) ∧ joinUnits us = some t := by
  induction h with
  | nil => exact ⟨[], fun rest => rfl, rfl⟩
  | cons first rest ih =>
    obtain ⟨us, hscan, hjoin⟩ := scanUnits_spelled first
    obtain ⟨more, hscans, hjoins⟩ := ih
    refine ⟨us ++ more, fun rest => ?_, ?_⟩
    · rw [List.append_assoc, hscan, hscans]
      rfl
    · rw [hjoin, hjoins]
      rfl

theorem tokens_spelledText {t w : Text} (h : SpellsText t w) (rest : Text) :
    tokens ('"' :: (w ++ '"' :: rest)) = (tokens rest).map (.text t :: ·) := by
  obtain ⟨us, hscan, hjoin⟩ := scanUnits_spelledText h
  rw [tokens, if_neg (by decide), show sign? '"' = none from by decide]
  dsimp only
  rw [if_pos rfl]
  split
  · next hnone =>
    rw [hscan] at hnone
    cases hnone
  · next us' after hsome =>
    rw [hscan] at hsome
    cases hsome
    rw [hjoin]

/-! ## Numbers -/

instance (t : Text) : Decidable (Digits t) := inferInstanceAs (Decidable (_ ∧ ∀ c ∈ t, _))

instance (t : Text) : Decidable (Whole t) := inferInstanceAs (Decidable (Digits t ∧ (_ → _)))

/-- What may stand behind the whole part of a number: nothing, or a point with digits. -/
def FractionText (t : Text) : Prop := t = [] ∨ ∃ digits, t = '.' :: digits ∧ Digits digits

/-- What may stand at the end of a number: nothing, or an exponent with an optional sign. -/
def ExponentText (t : Text) : Prop :=
  t = [] ∨ ∃ mark sign digits, t = mark :: (sign ++ digits) ∧ (mark = 'e' ∨ mark = 'E') ∧
    (sign = [] ∨ sign = ['+'] ∨ sign = ['-']) ∧ Digits digits

/-- A number: an optional minus, a whole part, a fraction and an exponent. -/
def NumberText (t : Text) : Prop :=
  ∃ whole fraction exponent, Whole whole ∧ FractionText fraction ∧ ExponentText exponent ∧
    (t = whole ++ (fraction ++ exponent) ∨ t = '-' :: (whole ++ (fraction ++ exponent)))

theorem ExponentText.isExponent {t : Text} (h : ExponentText t) : isExponent t = true := by
  obtain rfl | ⟨mark, sign, digits, rfl, hmark, hsign, hdigits⟩ := h
  · rfl
  have hsome := someDigits?_digits hdigits
  obtain ⟨hne, hall⟩ := hdigits
  cases digits with
  | nil => exact absurd rfl hne
  | cons d digits =>
    have hd := hall d List.mem_cons_self
    have hplus : d ≠ '+' := by rintro rfl; exact absurd hd (by decide)
    have hminus : d ≠ '-' := by rintro rfl; exact absurd hd (by decide)
    rw [isExponent.eq_def]
    dsimp only
    rw [if_pos hmark]
    rcases hsign with rfl | rfl | rfl
    · simp [hplus, hminus, hsome]
    · simp [hsome]
    · simp [hsome]

theorem ExponentText.noDigit {t : Text} (h : ExponentText t) : NoDigit t := by
  obtain rfl | ⟨mark, sign, digits, rfl, hmark, -⟩ := h
  · intro c hc
    cases hc
  · intro c hc
    cases hc
    rcases hmark with rfl | rfl <;> decide

theorem NumberText.isNumber {t : Text} (h : NumberText t) : isNumber t = true := by
  obtain ⟨whole, fraction, exponent, hwhole, hfraction, hexponent, ht⟩ := h
  have hbehind : NoDigit (fraction ++ exponent) ∧ isFraction (fraction ++ exponent) = true := by
    obtain rfl | ⟨digits, rfl, hdigits⟩ := hfraction
    · refine ⟨hexponent.noDigit, ?_⟩
      have hpoint : ∀ rest, exponent ≠ '.' :: rest := by
        rintro rest rfl
        obtain h | ⟨mark, sign, digits, h, hmark, -⟩ := hexponent
        · cases h
        · cases h
          rcases hmark with h | h <;> cases h
      rw [List.nil_append, isFraction]
      · exact hexponent.isExponent
      · exact hpoint
    · refine ⟨?_, isFraction_point hdigits hexponent.noDigit hexponent.isExponent⟩
      intro c hc
      cases hc
      decide
  obtain ⟨hplain, hminus⟩ := isNumber_append hwhole hbehind.1 hbehind.2
  rcases ht with rfl | rfl
  · exact hplain
  · exact hminus

/-! ## Tokens -/

/-- `w` consists of characters that may stand between tokens. -/
def Layout (w : Text) : Prop := ∀ c ∈ w, isLayout c = true

instance (w : Text) : Decidable (Layout w) := inferInstanceAs (Decidable (∀ c ∈ w, _))

/-- The ways to write a token. -/
inductive SpellsToken : Token → Text → Prop
  | openList : SpellsToken .openList ['[']
  | closeList : SpellsToken .closeList [']']
  | openObject : SpellsToken .openObject ['\x7b']
  | closeObject : SpellsToken .closeObject ['\x7d']
  | comma : SpellsToken .comma [',']
  | colon : SpellsToken .colon [':']
  | null : SpellsToken .null "null".toList
  | true : SpellsToken (.bool true) "true".toList
  | false : SpellsToken (.bool false) "false".toList
  | number {digits : Text} (grammar : NumberText digits) : SpellsToken (.number digits) digits
  | text {t w : Text} (inside : SpellsText t w) : SpellsToken (.text t) ('"' :: (w ++ ['"']))

/-- Tokens one after the other, with `Layout` between them. -/
inductive SpellsTokens : List Token → Text → Prop
  | last {token : Token} {w : Text} (spelled : SpellsToken token w) : SpellsTokens [token] w
  | cons {token next : Token} {ts : List Token} {w gap ws : Text} (spelled : SpellsToken token w)
      (layout : Layout gap) (rest : SpellsTokens (next :: ts) ws) :
      SpellsTokens (token :: next :: ts) (w ++ (gap ++ ws))

/-- Tokens may stand side by side. -/
theorem SpellsTokens.tight {token next : Token} {ts : List Token} {w ws : Text}
    (spelled : SpellsToken token w) (rest : SpellsTokens (next :: ts) ws) :
    SpellsTokens (token :: next :: ts) (w ++ ws) := .cons spelled (List.forall_mem_nil _) rest

/-- `w` spells the value `v`. -/
def Spells (v : Json) (w : Text) : Prop := SpellsTokens (toTokens v) w

/-- The token is one of the six signs of the structure. -/
def Token.IsSign (token : Token) : Prop :=
  token ∈ [.openList, .closeList, .openObject, .closeObject, .comma, .colon]

/-- One of the two tokens is a sign, so they need no layout between them. -/
def Token.Apart (a b : Token) : Prop := a.IsSign ∨ b.IsSign

theorem SpellsToken.ends {token : Token} {w : Text} (h : SpellsToken token w)
    (hsign : token.IsSign) (rest : Text) : Ends (w ++ rest) := by
  unfold Token.IsSign at hsign
  cases h with
  | openList => exact ends_sign (by decide) rest
  | closeList => exact ends_sign (by decide) rest
  | openObject => exact ends_sign (by decide) rest
  | closeObject => exact ends_sign (by decide) rest
  | comma => exact ends_sign (by decide) rest
  | colon => exact ends_sign (by decide) rest
  | null => simp at hsign
  | true => simp at hsign
  | false => simp at hsign
  | number => simp at hsign
  | text => simp at hsign

theorem SpellsToken.tokens {token : Token} {w : Text} (h : SpellsToken token w) {rest : Text}
    (hrest : token.IsSign ∨ Ends rest) :
    tokens (w ++ rest) = (tokens rest).map (token :: ·) := by
  have hends (hnot : ¬ token.IsSign) : Ends rest := hrest.resolve_left hnot
  unfold Token.IsSign at hends
  cases h with
  | openList => exact tokens_sign (by decide) rest
  | closeList => exact tokens_sign (by decide) rest
  | openObject => exact tokens_sign (by decide) rest
  | closeObject => exact tokens_sign (by decide) rest
  | comma => exact tokens_sign (by decide) rest
  | colon => exact tokens_sign (by decide) rest
  | null => exact tokens_word (by decide) (by decide) (by decide) (hends (by simp))
  | true => exact tokens_word (by decide) (by decide) (by decide) (hends (by simp))
  | false => exact tokens_word (by decide) (by decide) (by decide) (hends (by simp))
  | number grammar => exact tokens_number grammar.isNumber (hends (by simp))
  | text inside =>
    rw [List.cons_append, List.append_assoc]
    exact tokens_spelledText inside rest

theorem tokens_layout {gap : Text} (h : Layout gap) (rest : Text) :
    tokens (gap ++ rest) = tokens rest := by
  induction gap with
  | nil => rfl
  | cons c gap ih =>
    rw [List.cons_append, tokens, if_pos (h c List.mem_cons_self)]
    exact ih fun d hd => h d (List.mem_cons_of_mem c hd)

theorem ends_layout {gap : Text} (h : Layout gap) (hne : gap ≠ []) (rest : Text) :
    Ends (gap ++ rest) := by
  cases gap with
  | nil => exact absurd rfl hne
  | cons c gap =>
    have hc := h c List.mem_cons_self
    have hmem : c ∈ [' ', '\n', '\t', '\r'] := by
      unfold isLayout at hc
      simpa [or_assoc] using hc
    have hall : ∀ d ∈ [' ', '\n', '\t', '\r'], isNumberChar d = false ∧ isWordChar d = false := by
      decide
    exact ends_cons (hall c hmem).1 (hall c hmem).2

theorem SpellsTokens.ends {token : Token} {ts : List Token} {w : Text}
    (h : SpellsTokens (token :: ts) w) (hsign : token.IsSign) (rest : Text) : Ends (w ++ rest) := by
  cases h with
  | last spelled => exact spelled.ends hsign rest
  | cons spelled layout more =>
    rw [List.append_assoc]
    exact spelled.ends hsign _

/-- Whichever way tokens are written, `tokens` reads them, if no two of them run together. -/
theorem SpellsTokens.tokens {ts : List Token} {w : Text} (h : SpellsTokens ts w)
    (hchain : ts.IsChain Token.Apart) {rest : Text} (hrest : Ends rest) :
    tokens (w ++ rest) = (tokens rest).map (ts ++ ·) := by
  induction h with
  | last spelled => exact spelled.tokens (.inr hrest)
  | @cons token next ts w gap ws spelled layout more ih =>
    rw [List.isChain_cons_cons] at hchain
    have hnext : token.IsSign ∨ Ends (gap ++ (ws ++ rest)) := by
      rcases hchain.1 with hsign | hsign
      · exact .inl hsign
      by_cases hgap : gap = []
      · rw [hgap]
        exact .inr (more.ends hsign rest)
      · exact .inr (ends_layout layout hgap _)
    rw [List.append_assoc, List.append_assoc, spelled.tokens hnext, tokens_layout layout,
      ih hchain.2]
    simp [Function.comp_def]

/-! ## Values -/

/-- Two chains with a comma between them. -/
theorem isChain_comma {xs ys : List Token} (hxs : xs.IsChain Token.Apart)
    (hys : ys.IsChain Token.Apart) : (xs ++ .comma :: ys).IsChain Token.Apart := by
  have hcomma : Token.IsSign .comma := by simp [Token.IsSign]
  refine List.isChain_append.2 ⟨hxs, List.isChain_cons.2 ⟨fun _ _ => .inl hcomma, hys⟩, ?_⟩
  intro x _ y hy
  cases hy
  exact .inr hcomma

/-- A chain between two signs. -/
theorem isChain_enclosed (first last : Token) (hfirst : first.IsSign) (hlast : last.IsSign)
    {xs : List Token} (hxs : xs.IsChain Token.Apart) :
    (first :: (xs ++ [last])).IsChain Token.Apart := by
  refine List.isChain_cons.2 ⟨fun _ _ => .inl hfirst,
    List.isChain_append.2 ⟨hxs, .singleton _, ?_⟩⟩
  intro x _ y hy
  cases hy
  exact .inr hlast

/-- A chain behind the name of a field. -/
theorem isChain_named (k : Text) {xs : List Token} (hxs : xs.IsChain Token.Apart) :
    (.text k :: .colon :: xs).IsChain Token.Apart := by
  have hcolon : Token.IsSign .colon := by simp [Token.IsSign]
  exact List.isChain_cons_cons.2 ⟨.inr hcolon, List.isChain_cons.2 ⟨fun _ _ => .inl hcolon, hxs⟩⟩

mutual

/-- In a value, two tokens that are no signs never meet. -/
theorem isChain_toTokens (v : Json) : (toTokens v).IsChain Token.Apart :=
  match v with
  | .null => .singleton _
  | .bool _ => .singleton _
  | .number _ => .singleton _
  | .text _ => .singleton _
  | .list items =>
    isChain_enclosed .openList .closeList (by simp [Token.IsSign]) (by simp [Token.IsSign])
      (isChain_itemTokens items)
  | .object fields =>
    isChain_enclosed .openObject .closeObject (by simp [Token.IsSign]) (by simp [Token.IsSign])
      (isChain_fieldTokens fields)

theorem isChain_itemTokens (items : List Json) : (itemTokens items).IsChain Token.Apart :=
  match items with
  | [] => .nil
  | [v] => isChain_toTokens v
  | v :: w :: more => isChain_comma (isChain_toTokens v) (isChain_itemTokens (w :: more))

theorem isChain_fieldTokens (fields : List (Text × Json)) :
    (fieldTokens fields).IsChain Token.Apart :=
  match fields with
  | [] => .nil
  | [(k, v)] => isChain_named k (isChain_toTokens v)
  | (k, v) :: w :: more => by
    have hrest := isChain_comma (isChain_toTokens v) (isChain_fieldTokens (w :: more))
    exact isChain_named k hrest

end

/-- **However a value is spelled, `read?` gives it back.** -/
theorem read?_of_spells {v : Json} {w : Text} (h : Spells v w) : read? w = some v := by
  have htokens := SpellsTokens.tokens h (isChain_toTokens v) ends_nil
  rw [List.append_nil] at htokens
  rw [read?, htokens, tokens]
  simp [ofTokens?_toTokens]

/-- What spells an object begins and ends with its braces. -/
theorem Spells.object_braces {fields : List (Text × Json)} {w : Text}
    (h : Spells (.object fields) w) : ∃ inside, w = '\x7b' :: (inside ++ ['\x7d']) := by
  have hlast : ∀ {ts : List Token} {w : Text}, SpellsTokens (ts ++ [.closeObject]) w →
      ∃ before, w = before ++ ['\x7d'] := by
    intro ts
    induction ts with
    | nil =>
      intro w h
      cases h with
      | last spelled =>
        cases spelled
        exact ⟨[], rfl⟩
    | cons token ts ih =>
      intro w h
      generalize hmore : ts ++ [Token.closeObject] = more at h ih
      rw [List.cons_append, hmore] at h
      cases h with
      | last => exact absurd hmore (by simp)
      | @cons _ _ _ w gap _ spelled layout rest =>
        obtain ⟨before, rfl⟩ := ih rest
        exact ⟨w ++ (gap ++ before), by simp⟩
  unfold Spells at h
  rw [toTokens] at h
  generalize hmore : fieldTokens fields ++ [Token.closeObject] = more at h
  cases h with
  | last => exact absurd hmore (by simp)
  | @cons _ _ _ _ gap _ spelled layout rest =>
    cases spelled
    rw [← hmore] at rest
    obtain ⟨before, rfl⟩ := hlast rest
    exact ⟨gap ++ before, by simp⟩

end ClipLedger.Json
