import ClipLedger.Json.Reader
import ClipLedger.Json.Writer
import ClipLedger.Proofs.Lists

/-
  What the tokens of written JSON are. A text between quotes is one token, whatever characters it
  has (`tokens_quote`); a number is one token as long as no character of a number follows
  (`tokens_number`); signs and words are their own.
-/
namespace ClipLedger.Json

/-! ## Texts -/

/-- Whether `c` is a control character without an escape of one letter. -/
def isCoded (c : Char) : Bool :=
  c.toNat < 0x20 && c != '\n' && c != '\r' && c != '\t' && c != '\x08' && c != '\x0c'

/-- The unit that `scanUnits` reads where `c` was written. -/
def unitOf (c : Char) : Unit16 := if isCoded c then .escaped c.toNat else .char c

theorem number?_code {n : Nat} (h : n < 0x20) :
    Hex.number? ['0', '0', Hex.digit (n / 16), Hex.digit (n % 16)] = some n := by
  have h0 : Hex.value? '0' = some 0 := by decide
  have h1 := Hex.value?_digit (n / 16) (by omega)
  have h2 := Hex.value?_digit (n % 16) (by omega)
  simp only [Hex.number?, List.foldl_cons, List.foldl_nil, Option.bind_some, Option.map_some, h0,
    h1, h2, Option.some.injEq]
  omega

theorem scanUnits_escapeChar (c : Char) (rest : Text) :
    scanUnits (escapeChar c ++ rest) = (scanUnits rest).map (unitOf c).prepend := by
  unfold escapeChar
  split
  · next h => subst h; rfl
  split
  · next h => subst h; rfl
  split
  · next h => subst h; rfl
  split
  · next h => subst h; rfl
  split
  · next h => subst h; rfl
  split
  · next h => subst h; rfl
  split
  · next h => subst h; rfl
  split
  · next hn hr ht hb hf h =>
    have hu : unitOf c = .escaped c.toNat := by
      unfold unitOf isCoded
      simp [*]
    simp only [List.cons_append, List.nil_append]
    rw [scanUnits, number?_code h, hu]
  · next hq hs hn hr ht hb hf h =>
    have hu : unitOf c = .char c := by
      unfold unitOf isCoded
      simp [h]
    simp only [List.cons_append, List.nil_append]
    rw [scanUnits, hu, if_neg (by simp [h, hs])]
    all_goals simp [hq, hs]

theorem scanUnits_escaped (t rest : Text) :
    scanUnits (t.flatMap escapeChar ++ '"' :: rest) = some (t.map unitOf, rest) := by
  induction t with
  | nil => rfl
  | cons c t ih =>
    rw [List.flatMap_cons, List.append_assoc, scanUnits_escapeChar, ih]
    rfl

theorem joinUnits_unitOf (t : Text) : joinUnits (t.map unitOf) = some t := by
  induction t with
  | nil => rfl
  | cons c t ih =>
    rw [List.map_cons]
    by_cases h : isCoded c = true
    · have hc : c.toNat < 0x20 := by
        simp only [isCoded, Bool.and_eq_true, decide_eq_true_eq] at h
        omega
      have hl : isLowSurrogate c.toNat = false := by simp [isLowSurrogate]; omega
      have hh : isHighSurrogate c.toNat = false := by simp [isHighSurrogate]; omega
      rw [unitOf, if_pos h, joinUnits.eq_def]
      dsimp only
      rw [if_neg (by simp [hl]), if_neg (by simp [hh]), ih, Char.ofNat_toNat]
      rfl
    · rw [unitOf, if_neg h, joinUnits, ih]
      rfl

theorem tokens_quote (t rest : Text) :
    tokens (quote t ++ rest) = (tokens rest).map (.text t :: ·) := by
  have hq : quote t ++ rest = '"' :: (t.flatMap escapeChar ++ '"' :: rest) := by simp [quote]
  rw [hq, tokens, if_neg (by decide)]
  rw [show sign? '"' = none from by decide]
  dsimp only
  rw [if_pos rfl]
  split
  · next h => rw [scanUnits_escaped] at h; cases h
  · next us after h =>
    rw [scanUnits_escaped] at h
    cases h
    rw [joinUnits_unitOf]

/-! ## Signs, words and numbers -/

theorem tokens_sign {c : Char} {token : Token} (h : sign? c = some token) (rest : Text) :
    tokens (c :: rest) = (tokens rest).map (token :: ·) := by
  have hl : isLayout c = false := by
    unfold isLayout
    grind [sign?]
  rw [tokens, if_neg (by simp [hl]), h]

/-- `rest` does not go on with a number or a word. -/
def Ends (rest : Text) : Prop := ∀ c ∈ rest.head?, isNumberChar c = false ∧ isWordChar c = false

theorem ends_nil : Ends [] := by
  intro c hc
  cases hc

theorem ends_cons {c : Char} {rest : Text} (hn : isNumberChar c = false)
    (hw : isWordChar c = false) :
    Ends (c :: rest) := by
  intro d hd
  cases hd
  exact ⟨hn, hw⟩

theorem tokens_word {c : Char} {w : Text} {token : Token} (h : word? (c :: w) = some token)
    (hc : isLayout c = false ∧ sign? c = none ∧ c ≠ '"' ∧ isNumberChar c = false)
    (hw : ∀ d ∈ w, isWordChar d = true) {rest : Text} (hr : Ends rest) :
    tokens (c :: w ++ rest) = (tokens rest).map (token :: ·) := by
  obtain ⟨hl, hs, hq, hn⟩ := hc
  obtain ⟨htake, hdrop⟩ := takeWhile_append_ends hw fun d hd => (hr d hd).2
  rw [List.cons_append, tokens, if_neg (by simp [hl]), hs]
  dsimp only
  rw [if_neg hq, if_neg (by simp [hn]), htake, hdrop, h]

theorem isNumberChar_of_isDigit {c : Char} (h : c.isDigit = true) : isNumberChar c = true := by
  simp [isNumberChar, h]

theorem mem_dropWhile_or {p : Char → Bool} {t : Text} {c : Char} (h : c ∈ t) :
    p c = true ∨ c ∈ t.dropWhile p := by
  rw [← List.takeWhile_append_dropWhile (p := p) (l := t), List.mem_append] at h
  rcases h with h | h
  · left
    exact List.all_eq_true.1 List.all_takeWhile c h
  · exact .inr h

theorem number_head {c : Char} (h : isNumberChar c = true) :
    isLayout c = false ∧ sign? c = none ∧ c ≠ '"' := by
  have hno : ∀ d ∈ [' ', '\n', '\t', '\r', '[', ']', '\x7b', '\x7d', ',', ':', '"'],
      isNumberChar d = false := by decide
  have hc : c ∉ [' ', '\n', '\t', '\r', '[', ']', '\x7b', '\x7d', ',', ':', '"'] := by
    intro hm
    rw [hno c hm] at h
    cases h
  simp only [List.mem_cons, not_or] at hc
  simp [isLayout, sign?, hc]

theorem chars_of_someDigits? {t r : Text} (h : someDigits? t = some r) {c : Char} (hc : c ∈ t) :
    isNumberChar c = true ∨ c ∈ r := by
  cases t with
  | nil => cases h
  | cons d t =>
    rw [someDigits?] at h
    split at h
    · next hd =>
      cases h
      rcases List.mem_cons.1 hc with rfl | hc
      · exact .inl (isNumberChar_of_isDigit hd)
      · rcases mem_dropWhile_or (p := Char.isDigit) hc with h | h
        · exact .inl (isNumberChar_of_isDigit h)
        · exact .inr h
    · cases h

theorem chars_of_isExponent {t : Text} (h : isExponent t = true) :
    ∀ c ∈ t, isNumberChar c = true := by
  cases t with
  | nil => simp
  | cons e t =>
    rw [isExponent.eq_def] at h
    dsimp only at h
    split at h
    · next he =>
      have hdigits : ∀ u, someDigits? u == some [] → ∀ c ∈ u, isNumberChar c = true := by
        intro u hu c hc
        rcases chars_of_someDigits? (beq_iff_eq.1 hu) hc with hn | hn
        · exact hn
        · cases hn
      intro c hc
      rcases List.mem_cons.1 hc with rfl | hc
      · rcases he with rfl | rfl <;> decide
      · split at h
        · rcases List.mem_cons.1 hc with rfl | hc
          · decide
          · exact hdigits _ h c hc
        · rcases List.mem_cons.1 hc with rfl | hc
          · decide
          · exact hdigits _ h c hc
        · exact hdigits _ h c hc
    · cases h

theorem chars_of_isFraction {t : Text} (h : isFraction t = true) :
    ∀ c ∈ t, isNumberChar c = true := by
  intro c hc
  unfold isFraction at h
  split at h
  · split at h
    · next hr =>
      rcases List.mem_cons.1 hc with rfl | hc
      · decide
      · rcases chars_of_someDigits? hr hc with hn | hn
        · exact hn
        · exact chars_of_isExponent h c hn
    · cases h
  · exact chars_of_isExponent h c hc

/-- A number consists of characters with `isNumberChar`, so that it is one token. -/
theorem chars_of_isNumber {t : Text} (h : isNumber t = true) : ∀ c ∈ t, isNumberChar c = true := by
  have hwhole : ∀ u, (match u with
      | '0' :: rest => isFraction rest
      | c :: rest => c.isDigit && isFraction (rest.dropWhile Char.isDigit)
      | [] => false) = true → ∀ c ∈ u, isNumberChar c = true := by
    intro u hu c hc
    split at hu
    · rcases List.mem_cons.1 hc with rfl | hc
      · decide
      · exact chars_of_isFraction hu c hc
    · rw [Bool.and_eq_true] at hu
      rcases List.mem_cons.1 hc with rfl | hc
      · exact isNumberChar_of_isDigit hu.1
      · rcases mem_dropWhile_or (p := Char.isDigit) hc with hd | hd
        · exact isNumberChar_of_isDigit hd
        · exact chars_of_isFraction hu.2 c hd
    · cases hu
  intro c hc
  unfold isNumber at h
  split at h
  · rcases List.mem_cons.1 hc with rfl | hc
    · decide
    · exact hwhole _ h c hc
  · exact hwhole _ h c hc

theorem tokens_number {digits rest : Text} (hd : isNumber digits = true)
    (hr : Ends rest) : tokens (digits ++ rest) = (tokens rest).map (.number digits :: ·) := by
  cases digits with
  | nil => cases hd
  | cons c digits =>
    have hc := chars_of_isNumber hd
    have hn := hc c List.mem_cons_self
    obtain ⟨hl, hs, hq⟩ := number_head hn
    obtain ⟨htake, hdrop⟩ := takeWhile_append_ends (fun d h => hc d (List.mem_cons_of_mem c h))
      fun d hd => (hr d hd).1
    rw [List.cons_append, tokens, if_neg (by simp [hl]), hs]
    dsimp only
    rw [if_neg hq, if_pos hn, htake, hdrop, if_pos hd]

end ClipLedger.Json
