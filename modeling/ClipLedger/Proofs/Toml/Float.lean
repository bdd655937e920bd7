import ClipLedger.Proofs.Toml.Number

/-
  Numbers with a fraction or an exponent are read as what they stand for (`SpellsFloat.readAs`).
  Such a number is one word or several: a point is a token between two of them, and so is a plus
  in an exponent (`SpellsExponent.takenAs`). The parts are put together again before the number is
  rounded (`ofDigits_parts`).
-/
namespace ClipLedger.Toml

variable {w : Text}

/-- How the reader takes the exponent `e`: a suffix of the word in front of it, and more
tokens. -/
structure TakenAs (x : Int) (e suffix more : Text) (ts : List Token) (digits : Text) : Prop where
  split : e = suffix ++ more
  isSuffix : Suffix suffix
  nonempty : e ≠ [] → suffix ≠ []
  lexes : ∀ t, t ≠ [] → (∀ c ∈ t, isWordChar c = true) →
    Lexes endsValue (t ++ more) (.word t :: ts)
  first : ∀ token ∈ ts.head?, token = .plus
  value : Decimal.signedValue digits = x
  reads : ∀ rest, exponent? suffix (ts ++ rest) = some (digits, rest)

theorem SpellsExponent.takenAs {x : Int} {e : Text} (h : SpellsExponent x e) :
    ∃ suffix more ts digits, TakenAs x e suffix more ts digits := by
  cases h with
  | none =>
    refine ⟨[], [], [], ['0'], rfl, .none, fun h => absurd rfl h, fun t hne ht => ?_, by simp, rfl,
      fun rest => rfl⟩
    simpa using lexes_value_word hne ht
  | @digits letter sign ds w known signed digits =>
    have hword : ∀ c ∈ w, isWordChar c = true := fun c hc =>
      isWordChar_of_spacedDigit (digits.spaced_mem c hc)
    have hne : w ≠ [] := by
      obtain ⟨d, ds', w', -, rfl, -⟩ := digits.cons_eq
      exact List.cons_ne_nil _ _
    have hminus (hsign : IsMinus sign) : ∃ suffix more ts digits', TakenAs
        (Decimal.signedValue (sign ++ ds)) (letter :: (sign ++ w)) suffix more ts digits' := by
      refine ⟨letter :: (sign ++ w), [], [], sign ++ ds, by simp,
        .letter known hsign digits.spaced_mem, fun _ => by simp, fun t hne ht => ?_, by simp, rfl,
        fun rest => ?_⟩
      · simpa using lexes_value_word hne ht
      · have hread : signedDigits? true (sign ++ (w ++ [])) = some (sign ++ ds, []) :=
          signedDigits?_minus digits hsign (by simpa using digits.digits?_all)
        rw [List.append_nil] at hread
        have hnonempty : sign ++ w ≠ [] := by simp [hne]
        generalize sign ++ w = after at hread hnonempty ⊢
        cases after with
        | nil => exact absurd rfl hnonempty
        | cons c after => simp [exponent?, known, hread]
    simp only [signs, List.mem_cons, List.not_mem_nil, or_false] at signed
    rcases signed with rfl | rfl | rfl
    · exact hminus (.inl rfl)
    · exact hminus (.inr rfl)
    · refine ⟨[letter], '+' :: w, [.plus, .word w], ds, rfl, ?_, fun _ => by simp,
        fun t hne' ht => ?_, by simp, ?_, fun rest => ?_⟩
      · exact .letter (w := []) known (.inl rfl) (by simp)
      · have hplus : Lexes endsValue ('+' :: w) [.plus, .word w] :=
          (lexes_value_word hne hword).sign (by decide)
        exact (lexes_word hne' ht).append hplus (.cons (by decide) _)
      · exact signedValue_digits digits.digit_mem
      · simp [exponent?, known, digits.digits?_all]

/-- `Decimal.ofDigits` of a number is put together from its parts. -/
theorem ofDigits_parts {whole fraction digits : Text} (sign : Text)
    (hwhole : SpellsDigits 10 whole w) (hfraction : ∀ d ∈ fraction, isDigitOf 10 d = true) :
    Decimal.ofDigits (minusOf sign ++ whole ++ '.' :: fraction ++ 'e' :: digits) =
      ⟨sign = ['-'], Decimal.digitsValue (whole ++ fraction),
        Decimal.signedValue digits - fraction.length⟩ := by
  have hspan {ds after : Text} (hds : ∀ d ∈ ds, isDigitOf 10 d = true)
      (hafter : ∀ c ∈ after.head?, c.isDigit = false) :=
    takeWhile_append_ends (fun d hd => isDigitOf_ten.1 (hds d hd)) hafter
  have hpoint : ∀ c ∈ ('.' :: (fraction ++ 'e' :: digits)).head?, c.isDigit = false := by simp
  have hletter : ∀ c ∈ ('e' :: digits).head?, c.isDigit = false := by simp
  have hwhole' := hspan hwhole.digit_mem hpoint
  have hfraction' := hspan hfraction hletter
  have hbody : minusOf sign ++ whole ++ '.' :: fraction ++ 'e' :: digits =
      minusOf sign ++ (whole ++ '.' :: (fraction ++ 'e' :: digits)) := by simp
  rw [hbody]
  unfold minusOf
  split
  · next hsign =>
    simp [Decimal.ofDigits, hsign, hwhole', hfraction']
  · next hsign =>
    obtain ⟨d, ds', w', rfl, -, hd⟩ := hwhole.cons_eq
    have hminus : d ≠ '-' := by
      rintro rfl
      exact absurd hd (by decide)
    have hplus : d ≠ '+' := by
      rintro rfl
      exact absurd hd (by decide)
    rw [List.cons_append] at hwhole'
    simp [Decimal.ofDigits, hsign, hminus, hplus, hwhole', hfraction']

/-- `finite?` of the parts of a number is its value, where that is finite. -/
theorem finite?_parts {whole fraction digits : Text} (sign : Text)
    (hwhole : SpellsDigits 10 whole w) (hfraction : ∀ d ∈ fraction, isDigitOf 10 d = true)
    (hfinite : (Decimal.toFloat ⟨sign = ['-'], Decimal.digitsValue (whole ++ fraction),
      Decimal.signedValue digits - fraction.length⟩).isFinite = true) :
    finite? (minusOf sign ++ whole) fraction digits =
      some (.float (Decimal.toFloat ⟨sign = ['-'], Decimal.digitsValue (whole ++ fraction),
        Decimal.signedValue digits - fraction.length⟩)) := by
  rw [finite?, ofDigits_parts sign hwhole hfraction]
  exact if_pos hfinite

theorem Suffix.meets {suffix : Text} (h : Suffix suffix) : Meets (endsDigits 10) suffix := by
  cases h with
  | none => exact .nil
  | letter known =>
    intro c hc
    cases hc
    rcases known with rfl | rfl <;> decide

theorem TakenAs.ne {x : Int} {e suffix more digits : Text} {ts : List Token}
    (h : TakenAs x e suffix more ts digits) {more' : Rest} (hmore : Follows more') (rest : Rest) :
    ts ++ more' ≠ .colon :: rest := by
  cases ts with
  | nil => exact hmore.ne (by simp) rest
  | cons token ts =>
    have htoken := h.first token rfl
    rintro heq
    cases heq
    cases htoken

/-- Behind a point the digits of a fraction are a word, with the suffix of the exponent. -/
theorem TakenAs.lexes_fraction {x : Int} {e suffix more digits fraction wf : Text} {ts : List Token}
    (h : TakenAs x e suffix more ts digits) (hdigits : SpellsDigits 10 fraction wf) :
    Lexes endsValue ('.' :: (wf ++ suffix ++ more)) (.period :: .word (wf ++ suffix) :: ts) := by
  have hne : wf ++ suffix ≠ [] := by
    obtain ⟨d, ds', w', -, rfl, -⟩ := hdigits.cons_eq
    simp
  refine (h.lexes _ hne (List.forall_mem_append.2 ⟨fun c hc => ?_, fun c hc => ?_⟩)).sign
    (by decide)
  · exact isWordChar_of_spacedDigit (hdigits.spaced_mem c hc)
  · exact isWordChar_of_decimal (h.isSuffix.decimal c hc)

/-- The words of numbers without digits. -/
def namedNumbers : List Text :=
  ["inf".toList, "-inf".toList, "nan".toList, "-nan".toList]

theorem number?_named {t : Text} (ht : t ∈ namedNumbers) {more : Rest} (hmore : Follows more) :
    number? t more = (namedNumber? t).map (·, more) := by
  have hnone : ∀ t ∈ namedNumbers, integer? t = none ∧ t.head? ≠ some '0' ∧
      ¬(t.contains 'e' = true ∨ t.contains 'E' = true) := by decide
  obtain ⟨hinteger, hzero, hexponent⟩ := hnone t ht
  unfold number?
  split
  · exact absurd rfl hzero
  · exact absurd rfl hzero
  · exact absurd rfl hzero
  · rw [if_neg hexponent]
    split
    · exact absurd rfl (hmore.ne (by simp) _)
    · exact absurd rfl (hmore.ne (by simp) _)
    · rw [hinteger, Option.or_none]

/-- **Infinite numbers and those that are none are read from their words.** -/
theorem readAs_named {sign name : Text} {x : Float} (hsign : sign ∈ signs)
    (hname : minusOf sign ++ name ∈ namedNumbers)
    (hx : namedNumber? (minusOf sign ++ name) = some (.float x)) :
    ∃ ts, ReadAs (.float x) (sign ++ name) ts := by
  have hall : ∀ t ∈ namedNumbers, t ≠ [] ∧ (∀ c ∈ t, isWordChar c = true) ∧
      looksLikeDate t = false := by decide
  obtain ⟨hne, hchars, hdate⟩ := hall _ hname
  have hlexes : Lexes endsValue (minusOf sign ++ name ++ []) [.word (minusOf sign ++ name)] := by
    rw [List.append_nil]
    exact lexes_value_word hne hchars
  have hstarts := starts_word hne hchars
  have hword : ∀ more, word? (minusOf sign ++ name) more =
      numberOrDate? (minusOf sign ++ name) more := by
    intro more
    generalize minusOf sign ++ name = t at hname
    simp only [namedNumbers, List.mem_cons, List.not_mem_nil, or_false] at hname
    rcases hname with rfl | rfl | rfl | rfl <;> rfl
  rw [← List.append_nil name]
  refine readAs_number hsign hlexes hstarts (fun more hmore => ?_) fun more hmore => ?_
  · rw [List.nil_append, hword, numberOrDate?, hdate, if_neg Bool.false_ne_true]
    exact hmore.ne (by simp)
  · rw [List.nil_append, number?_named hname hmore, hx]
    rfl

/-- **Numbers with a fraction or an exponent are read as their values.** -/
theorem SpellsFloat.readAs {x : Float} (h : SpellsFloat x w) : ∃ ts, ReadAs (.float x) w ts := by
  cases h with
  | @digits sign whole fraction w f e exponent signed isWhole isFraction isExponent nonempty
      finite =>
    obtain ⟨suffix, more, ts, digits, htaken⟩ := isExponent.takenAs
    have hminus := isMinus_minusOf sign
    obtain rfl := htaken.split
    obtain rfl := htaken.value
    cases isFraction with
    | none =>
      have hsuffix := htaken.nonempty (nonempty.resolve_left fun h => h rfl)
      have hword := isWhole.numberWord hminus htaken.isSuffix
      have hvalue := finite?_parts sign isWhole.digits (by simp) finite
      rw [List.nil_append, ← List.append_assoc w]
      refine readAs_number signed (htaken.lexes _ hword.ne_nil fun c hc =>
        isWordChar_of_decimal (hword.decimal c hc)) hword.starts
        (fun more hmore => hword.word? (htaken.ne hmore)) fun more hmore => ?_
      rw [hword.number?, if_pos hsuffix, scaled?,
        isWhole.signedDigits? hminus htaken.isSuffix.meets]
      simp [htaken.reads, hvalue]
    | @digits fraction wf hdigits =>
      have hword := isWhole.numberWord hminus .none
      have hwhole := isWhole.signedDigits? hminus .nil
      have hvalue := finite?_parts sign isWhole.digits hdigits.digit_mem finite
      rw [List.append_nil] at hword hwhole
      have hlexes : Lexes endsValue (minusOf sign ++ w ++ '.' :: (wf ++ suffix ++ more))
          (.word (minusOf sign ++ w) :: .period :: .word (wf ++ suffix) :: ts) :=
        (lexes_word hword.ne_nil fun c hc =>
          isWordChar_of_decimal (hword.decimal c hc)).append (htaken.lexes_fraction hdigits)
          (.cons (by decide) _)
      rw [List.cons_append, ← List.append_assoc wf]
      refine readAs_number signed hlexes hword.starts
        (fun more _ => hword.word? (by simp)) fun more hmore => ?_
      have hopen : DigitMode.IsOpen true .first := rfl
      rw [hword.number?, if_neg (by simp), List.cons_append, List.cons_append]
      simp [fractional?, hwhole, hdigits.digits? hopen htaken.isSuffix.meets, htaken.reads, hvalue]
  | @infinite sign signed =>
    have hall : ∀ sign ∈ signs, minusOf sign ++ "inf".toList ∈ namedNumbers := by decide
    refine readAs_named signed (hall sign signed) ?_
    unfold minusOf
    split <;> rfl
  | @notANumber sign signed =>
    have hall : ∀ sign ∈ signs, minusOf sign ++ "nan".toList ∈ namedNumbers := by decide
    refine readAs_named signed (hall sign signed) ?_
    unfold minusOf
    split <;> rfl

end ClipLedger.Toml
