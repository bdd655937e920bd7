import ClipLedger.Proofs.Toml.Digits

/-
  Whole numbers are read as what they stand for, with a sign or without (`SpellsWhole.readAs`),
  and in other bases (`SpellsDigits.readAs`). A minus belongs to the word behind it, and a plus is
  a token of its own; so a number is read from a word, in front of what may follow a value
  (`Follows`).
-/
namespace ClipLedger.Toml

variable {base : Nat} {zeros : Bool} {ds w rest suffix t : Text}

/-! ## Values and what follows them -/

/-- What may follow a value: the end of its line, a comma or a closing bracket. -/
def Follows (more : Rest) : Prop :=
  ∀ token ∈ (skipBlank more).head?,
    token ∈ [.newline, .comment, .comma, .closeBracket, .closeBrace]

/-- The token may begin a value. -/
def Token.BeginsValue : Token → Prop
  | .text _ _ | .word _ | .plus | .openBracket | .openBrace => True
  | _ => False

/-- `v`, written as `w` with the tokens `ts`, is read by `value?`, whatever follows. -/
structure ReadAs (v : Toml) (w : Text) (ts : List Token) : Prop where
  lexes : Lexes endsValue w ts
  starts : Starts endsBlank w
  begins : ∃ token more, ts = token :: more ∧ token.BeginsValue
  reads : ∀ n more, ts.length ≤ n → Follows more → value? n (ts ++ more) = some (v, more)

/-- A value that begins with a word. -/
theorem readAs_of_word {v : Toml} {t w : Text} {ts : List Token}
    (hlexes : Lexes endsValue (t ++ w) (.word t :: ts)) (hstarts : Starts endsBlank t)
    (hread : ∀ more, Follows more → word? t (ts ++ more) = some (v, more)) :
    ReadAs v (t ++ w) (.word t :: ts) := by
  refine ⟨hlexes, hstarts.append w, ⟨_, _, rfl, trivial⟩, fun n more hn hmore => ?_⟩
  cases n with
  | zero => exact absurd hn (Nat.not_succ_le_zero _)
  | succ n => exact hread more hmore

variable {more : Rest}

theorem Follows.ne (h : Follows more) {token : Token} (htoken : token ∈ [.period, .colon, .plus])
    (rest : Rest) : more ≠ token :: rest := by
  rintro rfl
  simp only [List.mem_cons, List.not_mem_nil, or_false] at htoken
  rcases htoken with rfl | rfl | rfl <;> exact absurd (h _ rfl) (by decide)

/-- What follows a value is no hour. -/
theorem Follows.skipHour (h : Follows more) : skipHour more = more := by
  unfold Toml.skipHour
  split
  · exact absurd (h _ rfl) (by simp)
  · rfl

theorem word?_number {d : Char} {w : Text} (hd : d.isDigit = true ∨ d = '-') (ts : Rest) :
    word? (d :: w) ts = numberOrDate? (d :: w) ts := by
  have hne : ∀ c, c.isDigit = false ∧ c ≠ '-' → d ≠ c := by
    rintro c ⟨hc, hminus⟩ rfl
    exact hd.elim (fun h => by simp [h] at hc) hminus
  have ht := hne 't' (by decide)
  have hf := hne 'f' (by decide)
  have hi := hne 'i' (by decide)
  have hn := hne 'n' (by decide)
  unfold word?
  rw [if_neg (by simp [ht]), if_neg (by simp [hf]), if_neg (by simp [hi, hn])]
  rcases hd with hd | rfl
  · split
    · rfl
    · next c w' hc =>
      cases hc
      rw [if_pos hd]
    · next h => cases h
  · rfl

theorem NumberWord.head (h : NumberWord suffix t) :
    ∃ d w, t = d :: w ∧ (d.isDigit = true ∨ d = '-') := by
  obtain ⟨isMinus, digit, digits, isSuffix⟩ := h
  rcases isMinus with rfl | rfl
  · exact ⟨_, _, rfl, .inl digit⟩
  · exact ⟨_, _, rfl, .inr rfl⟩

/-- A word that begins a number is no date. -/
theorem NumberWord.word? (h : NumberWord suffix t) {ts : Rest}
    (hcolon : ∀ rest, ts ≠ .colon :: rest) : word? t ts = number? t ts := by
  have hdate := h.not_date
  obtain ⟨d, w, rfl, hd⟩ := h.head
  rw [word?_number hd, numberOrDate?, hdate, if_neg Bool.false_ne_true]
  exact hcolon

/-- A decimal number is not taken for one in another base. -/
theorem NumberWord.number? (h : NumberWord suffix t) (ts : Rest) :
    number? t ts = if suffix ≠ [] then scaled? t ts
      else match ts with
        | .period :: .word after :: rest => fractional? t after rest
        | .period :: _ => none
        | ts => (integer? t).map (·, ts) := by
  have hx := h.notMem (c := 'x') (by decide)
  have ho := h.notMem (c := 'o') (by decide)
  have hb := h.notMem (c := 'b') (by decide)
  have hn := h.notMem (c := 'n') (by decide)
  have hexponent := h.exponent_iff
  have hnamed : namedNumber? t = none := by
    have hne : ∀ name : String, 'n' ∈ name.toList → t ≠ name.toList := by
      rintro name hmem rfl
      exact hn hmem
    unfold namedNumber?
    rw [if_neg (hne _ (by decide)), if_neg (hne _ (by decide)),
      if_neg (not_or.2 ⟨hne _ (by decide), hne _ (by decide)⟩)]
  unfold Toml.number?
  split
  · simp at hx
  · simp at ho
  · simp at hb
  · exact ite_congr (propext hexponent) (fun _ => rfl) fun _ => hnamed ▸ rfl

/-! ## Whole numbers -/

theorem signedValue_digits {ds : Text} (h : ∀ d ∈ ds, isDigitOf 10 d = true) :
    Decimal.signedValue ds = Decimal.digitsValue ds := by
  unfold Decimal.signedValue
  split
  · exact absurd (h '-' (by simp)) (by decide)
  · exact absurd (h '+' (by simp)) (by decide)
  · rfl

/-- A minus may stand in front of digits. -/
theorem signedDigits?_minus (h : SpellsDigits 10 ds w) {minus : Text} (hminus : IsMinus minus)
    (hread : digits? 10 zeros .first (w ++ rest) = some (ds, rest)) :
    signedDigits? zeros (minus ++ (w ++ rest)) = some (minus ++ ds, rest) := by
  rcases hminus with rfl | rfl
  · obtain ⟨d, ds', w', -, rfl, hd⟩ := h.cons_eq
    rw [List.nil_append]
    unfold signedDigits?
    split
    · next heq =>
      cases heq
      exact absurd hd (by decide)
    · exact hread
  · rw [List.singleton_append, signedDigits?, hread]
    rfl

/-- Whole numbers are read up to their end. -/
theorem SpellsWhole.signedDigits? (h : SpellsWhole ds w) {minus : Text} (hminus : IsMinus minus)
    (hrest : Meets (endsDigits 10) rest) :
    Toml.signedDigits? false (minus ++ (w ++ rest)) = some (minus ++ ds, rest) :=
  signedDigits?_minus h.digits hminus (h.digits? hrest)

theorem SpellsWhole.numberWord (h : SpellsWhole ds w) {minus : Text} (hminus : IsMinus minus)
    (hsuffix : Suffix suffix) : NumberWord suffix (minus ++ (w ++ suffix)) := by
  have hmem := h.digits.spaced_mem
  obtain ⟨d, ds', w', -, rfl, hd⟩ := h.digits.cons_eq
  exact .mk hminus (isDigitOf_ten.1 hd) (fun c hc => hmem c (List.mem_cons_of_mem d hc)) hsuffix

theorem inRange_eq {n : Int} (h : InRange n) : inRange n = some (.integer n) := if_pos h

theorem NumberWord.ne_nil (h : NumberWord suffix t) : t ≠ [] := by
  obtain ⟨d, w, rfl, -⟩ := h.head
  exact List.cons_ne_nil d w

theorem lexes_value_word {t : Text} (hne : t ≠ []) (ht : ∀ c ∈ t, isWordChar c = true) :
    Lexes endsValue t [.word t] :=
  (lexes_word hne ht).mono fun c hc => by
    simp only [endsValue, Bool.and_eq_true] at hc
    exact hc.1.1

theorem NumberWord.lexes (h : NumberWord suffix t) : Lexes endsValue t [.word t] :=
  lexes_value_word h.ne_nil fun c hc => isWordChar_of_decimal (h.decimal c hc)

theorem NumberWord.starts (h : NumberWord suffix t) : Starts endsBlank t :=
  starts_word h.ne_nil fun c hc => isWordChar_of_decimal (h.decimal c hc)

/-- The part of a sign that belongs to the word behind it: a plus is a token of its own. -/
def minusOf (sign : Text) : Text := if sign = ['-'] then ['-'] else []

theorem isMinus_minusOf (sign : Text) : IsMinus (minusOf sign) := by
  unfold minusOf IsMinus
  split
  · exact .inr rfl
  · exact .inl rfl

/-- A sign changes digits as `minusOf` does. -/
theorem signedValue_minusOf {sign : Text} (hsign : sign ∈ signs)
    (hds : ∀ d ∈ ds, isDigitOf 10 d = true) :
    Decimal.signedValue (minusOf sign ++ ds) = Decimal.signedValue (sign ++ ds) := by
  simp only [signs, List.mem_cons, List.not_mem_nil, or_false] at hsign
  rcases hsign with rfl | rfl | rfl
  · rfl
  · rfl
  · exact signedValue_digits hds

/-- A number that is a word with more tokens behind it, and with a plus in front if it has one. -/
theorem readAs_number {v : Toml} {sign t w : Text} {ts : List Token} (hsign : sign ∈ signs)
    (hlexes : Lexes endsValue (minusOf sign ++ t ++ w) (.word (minusOf sign ++ t) :: ts))
    (hstarts : Starts endsBlank (minusOf sign ++ t))
    (hword : ∀ more, Follows more →
      word? (minusOf sign ++ t) (ts ++ more) = number? (minusOf sign ++ t) (ts ++ more))
    (hread : ∀ more, Follows more → number? (minusOf sign ++ t) (ts ++ more) = some (v, more)) :
    ∃ ts, ReadAs v (sign ++ (t ++ w)) ts := by
  have hplain (hminus : minusOf sign = sign) : ∃ ts, ReadAs v (sign ++ (t ++ w)) ts := by
    rw [← List.append_assoc, ← hminus]
    exact ⟨_, readAs_of_word hlexes hstarts fun more hmore =>
      (hword more hmore).trans (hread more hmore)⟩
  simp only [signs, List.mem_cons, List.not_mem_nil, or_false] at hsign
  rcases hsign with rfl | rfl | rfl
  · exact hplain rfl
  · exact hplain rfl
  · have hplus : sign? '+' = some .plus := by decide
    refine ⟨_, hlexes.sign hplus, .cons (by decide) _, ⟨_, _, rfl, trivial⟩, ?_⟩
    intro n more hn hmore
    cases n with
    | zero => exact absurd hn (Nat.not_succ_le_zero _)
    | succ n => exact hread more hmore

/-- **Decimal integers are read as their values.** -/
theorem SpellsWhole.readAs (h : SpellsWhole ds w) {sign : Text} (hsign : sign ∈ signs)
    (hrange : InRange (Decimal.signedValue (sign ++ ds))) :
    ∃ ts, ReadAs (.integer (Decimal.signedValue (sign ++ ds))) (sign ++ w) ts := by
  have hword := h.numberWord (isMinus_minusOf sign) .none
  have hdigits := h.signedDigits? (isMinus_minusOf sign) .nil
  rw [List.append_nil] at hword hdigits
  have hlexes : Lexes endsValue (minusOf sign ++ w ++ []) [.word (minusOf sign ++ w)] := by
    rw [List.append_nil]
    exact hword.lexes
  rw [← signedValue_minusOf hsign h.digits.digit_mem] at hrange ⊢
  rw [← List.append_nil w]
  refine readAs_number hsign hlexes hword.starts
    (fun more hmore => hword.word? (hmore.ne (by simp))) fun more hmore => ?_
  rw [List.nil_append, hword.number?, if_neg (by simp)]
  split
  · exact absurd rfl (hmore.ne (by simp) _)
  · exact absurd rfl (hmore.ne (by simp) _)
  · rw [integer?, hdigits]
    dsimp only
    rw [inRange_eq hrange]
    rfl

/-- Digits of any base are characters of words, and none of them marks a date. -/
theorem hexDigit_char {c : Char} (h : (Hex.value? c).isSome = true) :
    isWordChar c = true ∧ c ≠ 'T' ∧ c ≠ 't' ∧ c ≠ '-' := by
  have hne : ∀ d, Hex.value? d = none → c ≠ d := by
    rintro d hd rfl
    simp [hd] at h
  refine ⟨?_, hne _ (by decide), hne _ (by decide), hne _ (by decide)⟩
  have hranges : (48 ≤ c.toNat ∧ c.toNat ≤ 57) ∨ (97 ≤ c.toNat ∧ c.toNat ≤ 102) ∨
      (65 ≤ c.toNat ∧ c.toNat ≤ 70) := by
    refine Decidable.byContradiction fun hnot => ?_
    simp only [not_or] at hnot
    simp [Hex.value?, hnot] at h
  have hall : ∀ n < 103, (48 ≤ n ∧ n ≤ 57) ∨ (97 ≤ n ∧ n ≤ 102) ∨ (65 ≤ n ∧ n ≤ 70) →
      isWordChar (Char.ofNat n) = true := by decide
  rw [← Char.ofNat_toNat c]
  exact hall c.toNat (by omega) hranges

/-- The reader adds digits up as integers. -/
theorem foldl_digits (base : Nat) (ds : Text) (n : Nat) :
    ds.foldl (fun n d => n * (base : Int) + ((Hex.value? d).getD 0 : Nat)) (n : Int) =
      (ds.foldl (fun n d => n * base + (Hex.value? d).getD 0) n : Nat) := by
  induction ds generalizing n with
  | nil => rfl
  | cons d ds ih =>
    rw [List.foldl_cons, List.foldl_cons, ← ih]
    simp

theorem SpellsDigits.wordChars (h : SpellsDigits base ds w) :
    ∀ c ∈ w, isWordChar c = true ∧ c ≠ 'T' ∧ c ≠ 't' ∧ c ≠ '-' := by
  intro c hc
  rcases h.digit_or_underscore c hc with hd | rfl
  · refine hexDigit_char ?_
    unfold isDigitOf at hd
    split at hd
    · next heq => simp [heq]
    · cases hd
  · decide

theorem base_letter {letter : Char} (h : (letter, base) ∈ bases) :
    isWordChar letter = true ∧ letter ≠ 'T' ∧ letter ≠ 't' ∧ letter ≠ '-' := by
  simp only [bases, List.mem_cons, Prod.mk.injEq, List.not_mem_nil, or_false] at h
  rcases h with ⟨rfl, -⟩ | ⟨rfl, -⟩ | ⟨rfl, -⟩ <;> decide

/-- Digits in another base do not look like a date. -/
theorem SpellsDigits.not_date {letter : Char} (h : SpellsDigits base ds w)
    (hbase : (letter, base) ∈ bases) : looksLikeDate ('0' :: letter :: w) = false := by
  obtain ⟨-, hlT, hlt, hlminus⟩ := base_letter hbase
  have hT : 'T' ∉ w := fun hmem => (h.wordChars _ hmem).2.1 rfl
  have ht : 't' ∉ w := fun hmem => (h.wordChars _ hmem).2.2.1 rfl
  have hminus : '-' ∉ w := fun hmem => (h.wordChars _ hmem).2.2.2 rfl
  simp [looksLikeDate, hT, ht, hminus, hlT.symm, hlt.symm, hlminus.symm]

theorem SpellsDigits.number? {letter : Char} (h : SpellsDigits base ds w)
    (hbase : (letter, base) ∈ bases) (hrange : InRange (digitsValue base ds)) (more : Rest) :
    number? ('0' :: letter :: w) more = some (.integer (digitsValue base ds), more) := by
  have hbased : based? base w = some (.integer (digitsValue base ds)) := by
    rw [based?, h.digits?_all]
    dsimp only
    rw [foldl_digits]
    exact inRange_eq hrange
  simp only [bases, List.mem_cons, Prod.mk.injEq, List.not_mem_nil, or_false] at hbase
  rcases hbase with ⟨rfl, rfl⟩ | ⟨rfl, rfl⟩ | ⟨rfl, rfl⟩ <;>
  · rw [Toml.number?, hbased]
    rfl

/-- **Integers in another base are read as their values.** -/
theorem SpellsDigits.readAs {letter : Char} (h : SpellsDigits base ds w)
    (hbase : (letter, base) ∈ bases) (hrange : InRange (digitsValue base ds)) :
    ReadAs (.integer (digitsValue base ds)) ('0' :: letter :: w) [.word ('0' :: letter :: w)] := by
  have hword : ∀ c ∈ '0' :: letter :: w, isWordChar c = true :=
    List.forall_mem_cons.2 ⟨by decide, List.forall_mem_cons.2
      ⟨(base_letter hbase).1, fun c hc => (h.wordChars c hc).1⟩⟩
  refine ⟨lexes_value_word (by simp) hword, .cons (by decide) _, ⟨_, _, rfl, trivial⟩, ?_⟩
  intro n more hn hmore
  cases n with
  | zero => exact absurd hn (Nat.not_succ_le_zero _)
  | succ n =>
    rw [List.singleton_append, value?, word?_number (.inl (by decide)), numberOrDate?,
      h.not_date hbase, if_neg Bool.false_ne_true]
    · exact h.number? hbase hrange more
    · exact hmore.ne (by simp)

end ClipLedger.Toml
