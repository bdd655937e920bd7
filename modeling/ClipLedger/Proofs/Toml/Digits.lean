import ClipLedger.Proofs.Toml.Lexing

/-
  Digits, and words that begin decimal numbers. Digits are read up to the first character that is
  neither a digit nor an underscore (`SpellsDigits.digits?`). A word of a number is made of digits
  with a minus and an exponent (`NumberWord`), and so it is not taken for a date, and its exponent
  is found by its letter.
-/
namespace ClipLedger.Toml

/-! ## Digits -/

/-- Whether digits of `base` end at `c`. -/
def endsDigits (base : Nat) (c : Char) : Bool := !isDigitOf base c && c != '_'

/-- In this mode any digit may come next. -/
def DigitMode.IsOpen (zeros : Bool) : DigitMode → Prop
  | .afterDigit => True
  | .afterUnderscore false => True
  | _ => zeros = true

/-- This mode comes behind a digit after which others may follow. -/
def DigitMode.IsBehind (zeros : Bool) : DigitMode → Prop
  | .afterDigit => True
  | .afterZero => zeros = true
  | .afterZeros => zeros = true
  | _ => False

variable {base : Nat} {zeros : Bool} {ds w rest : Text}

/-- A digit is taken. -/
theorem digits?_digit {mode : DigitMode} (hmode : mode.IsOpen zeros) {d : Char}
    (hd : isDigitOf base d = true) :
    ∃ next : DigitMode, next.IsBehind zeros ∧ ∀ rest, digits? base zeros mode (d :: rest) =
      (digits? base zeros next rest).map fun (ds, after) => (d :: ds, after) := by
  cases mode with
  | first =>
    refine ⟨if d = '0' then .afterZero else .afterDigit, ?_, fun rest => if_pos hd⟩
    split
    · exact hmode
    · trivial
  | afterZero =>
    exact ⟨.afterZeros, hmode, fun rest => (if_pos hd).trans (if_pos hmode)⟩
  | afterDigit => exact ⟨.afterDigit, trivial, fun rest => if_pos hd⟩
  | afterUnderscore leadingZero =>
    cases leadingZero with
    | false => exact ⟨.afterDigit, trivial, fun rest => if_pos hd⟩
    | true => exact ⟨.afterZeros, hmode, fun rest => (if_pos hd).trans (if_pos hmode)⟩
  | afterZeros => exact ⟨.afterZeros, hmode, fun rest => if_pos hd⟩

/-- An underscore behind a digit is passed over. -/
theorem digits?_underscore {mode : DigitMode} (hmode : mode.IsBehind zeros) :
    ∃ next : DigitMode, next.IsOpen zeros ∧ ∀ rest, digits? base zeros mode ('_' :: rest) =
      digits? base zeros next rest := by
  cases mode with
  | first => exact hmode.elim
  | afterZero => exact ⟨.afterUnderscore true, hmode, fun rest => rfl⟩
  | afterDigit =>
    exact ⟨.afterUnderscore false, trivial, fun rest => rfl⟩
  | afterUnderscore => exact hmode.elim
  | afterZeros => exact ⟨.afterUnderscore true, hmode, fun rest => rfl⟩

theorem DigitMode.IsBehind.isOpen {mode : DigitMode} (h : mode.IsBehind zeros) :
    mode.IsOpen zeros := by
  cases mode with
  | first => exact h.elim
  | afterUnderscore => exact h.elim
  | afterZero | afterDigit | afterZeros => exact h

/-- Behind a digit, digits end at anything else. -/
theorem digits?_end {mode : DigitMode} (hmode : mode = .afterZero ∨ mode.IsBehind zeros)
    (hrest : Meets (endsDigits base) rest) : digits? base zeros mode rest = some ([], rest) := by
  cases rest with
  | nil =>
    cases mode with
    | first | afterUnderscore => simp [DigitMode.IsBehind] at hmode
    | afterZero | afterDigit | afterZeros => rfl
  | cons c rest =>
    have hc : ¬ isDigitOf base c = true ∧ c ≠ '_' := by
      simpa [endsDigits] using hrest c rfl
    cases mode with
    | first | afterUnderscore => simp [DigitMode.IsBehind] at hmode
    | afterZero | afterDigit | afterZeros => exact (if_neg hc.1).trans (if_neg hc.2)

/-- **Digits are read up to their end.** -/
theorem SpellsDigits.digits? (h : SpellsDigits base ds w) {mode : DigitMode}
    (hmode : mode.IsOpen zeros) (hrest : Meets (endsDigits base) rest) :
    digits? base zeros mode (w ++ rest) = some (ds, rest) := by
  induction h generalizing mode with
  | last digit =>
    obtain ⟨next, hnext, hstep⟩ := digits?_digit hmode digit
    rw [List.singleton_append, hstep, digits?_end (.inr hnext) hrest]
    rfl
  | cons digit more ih =>
    obtain ⟨next, hnext, hstep⟩ := digits?_digit hmode digit
    rw [List.cons_append, hstep, ih hnext.isOpen]
    rfl
  | spaced digit more ih =>
    obtain ⟨next, hnext, hstep⟩ := digits?_digit hmode digit
    obtain ⟨next', hnext', hspace⟩ := digits?_underscore hnext
    rw [List.cons_append, List.cons_append, hstep, hspace, ih hnext']
    rfl

/-- Where zeros may come first, nothing but digits is read to its end. -/
theorem SpellsDigits.digits?_all (h : SpellsDigits base ds w) :
    Toml.digits? base true .first w = some (ds, []) := by
  have hopen : DigitMode.IsOpen true .first := rfl
  have hread := h.digits? hopen .nil
  rwa [List.append_nil] at hread

theorem SpellsDigits.cons_eq (h : SpellsDigits base ds w) :
    ∃ d ds' w', ds = d :: ds' ∧ w = d :: w' ∧ isDigitOf base d = true := by
  cases h with
  | last digit => exact ⟨_, _, _, rfl, rfl, digit⟩
  | cons digit rest => exact ⟨_, _, _, rfl, rfl, digit⟩
  | spaced digit rest => exact ⟨_, _, _, rfl, rfl, digit⟩

/-- Whole numbers are read up to their end. -/
theorem SpellsWhole.digits? (h : SpellsWhole ds w) (hrest : Meets (endsDigits 10) rest) :
    Toml.digits? 10 false .first (w ++ rest) = some (ds, rest) := by
  obtain ⟨digits, leading⟩ := h
  rcases leading with rfl | hleading
  · cases digits with
    | last digit =>
      have hzero : Toml.digits? 10 false .first ('0' :: rest) =
          (Toml.digits? 10 false .afterZero rest).map fun (ds, after) => ('0' :: ds, after) := rfl
      rw [List.singleton_append, hzero, digits?_end (.inl rfl) hrest]
      rfl
    | cons _ rest => cases rest
  · obtain ⟨d, ds', w', -, rfl, hd⟩ := digits.cons_eq
    have hzero : d ≠ '0' := fun h => hleading (by rw [h]; rfl)
    have hfirst : Toml.digits? 10 false .first (d :: w' ++ rest) =
        (Toml.digits? 10 false (if d = '0' then .afterZero else .afterDigit) (w' ++ rest)).map
          fun (ds, after) => (d :: ds, after) := if_pos hd
    have hafter : Toml.digits? 10 false .afterDigit (d :: w' ++ rest) =
        (Toml.digits? 10 false .afterDigit (w' ++ rest)).map
          fun (ds, after) => (d :: ds, after) := if_pos hd
    rw [hfirst, if_neg hzero, ← hafter]
    have hopen : DigitMode.IsOpen false .afterDigit := trivial
    exact digits.digits? hopen hrest

/-! ## Words of numbers -/

theorem isDigitOf_ten {c : Char} : isDigitOf 10 c = true ↔ c.isDigit = true := by
  have hc : c.isDigit = true ↔ 48 ≤ c.toNat ∧ c.toNat ≤ 57 := by
    simp only [Char.isDigit, Bool.and_eq_true, decide_eq_true_eq, ge_iff_le,
      UInt32.le_iff_toNat_le]
    exact Iff.rfl
  rw [hc]
  unfold isDigitOf Hex.value?
  dsimp only
  by_cases hdigit : 48 ≤ c.toNat ∧ c.toNat ≤ 57
  · simp [hdigit]
    omega
  · rw [if_neg hdigit]
    by_cases hlower : 97 ≤ c.toNat ∧ c.toNat ≤ 102
    · simp [hlower]
      omega
    · rw [if_neg hlower]
      by_cases hupper : 65 ≤ c.toNat ∧ c.toNat ≤ 70
      · simp [hupper]
        omega
      · simp [hupper]
        omega

/-- Whether `c` is a decimal digit or an underscore. -/
def isSpacedDigit (c : Char) : Bool := c.isDigit || c == '_'

theorem SpellsDigits.digit_or_underscore (h : SpellsDigits base ds w) :
    ∀ c ∈ w, isDigitOf base c = true ∨ c = '_' := by
  induction h with
  | last digit => simpa using .inl digit
  | cons digit rest ih => exact List.forall_mem_cons.2 ⟨.inl digit, ih⟩
  | spaced digit rest ih =>
    exact List.forall_mem_cons.2 ⟨.inl digit, List.forall_mem_cons.2 ⟨.inr rfl, ih⟩⟩

theorem SpellsDigits.digit_mem (h : SpellsDigits base ds w) :
    ∀ d ∈ ds, isDigitOf base d = true := by
  induction h with
  | last digit => simpa using digit
  | cons digit rest ih => exact List.forall_mem_cons.2 ⟨digit, ih⟩
  | spaced digit rest ih => exact List.forall_mem_cons.2 ⟨digit, ih⟩

theorem SpellsDigits.spaced_mem (h : SpellsDigits 10 ds w) :
    ∀ c ∈ w, isSpacedDigit c = true := by
  intro c hc
  rcases h.digit_or_underscore c hc with hd | rfl
  · simp [isSpacedDigit, isDigitOf_ten.1 hd]
  · rfl

theorem isWordChar_of_spacedDigit {c : Char} (h : isSpacedDigit c = true) :
    isWordChar c = true := by
  simp only [isSpacedDigit, Bool.or_eq_true, beq_iff_eq] at h
  rcases h with h | rfl
  · simp [isWordChar, Char.isAlphanum, h]
  · rfl

/-- `minus` is a minus, or nothing. -/
def IsMinus (minus : Text) : Prop := minus = [] ∨ minus = ['-']

/-- What may stand behind the digits of a word: nothing, or an exponent, of which digits behind a
plus are missing. -/
inductive Suffix : Text → Prop
  | none : Suffix []
  | letter {letter : Char} {minus w : Text} (known : letter = 'e' ∨ letter = 'E')
      (isMinus : IsMinus minus) (digits : ∀ c ∈ w, isSpacedDigit c = true) :
      Suffix (letter :: (minus ++ w))

/-- A word that begins a decimal number, with its suffix. -/
inductive NumberWord (suffix : Text) : Text → Prop
  | mk {minus w : Text} {d : Char} (isMinus : IsMinus minus) (digit : d.isDigit = true)
      (digits : ∀ c ∈ w, isSpacedDigit c = true) (isSuffix : Suffix suffix) :
      NumberWord suffix (minus ++ (d :: w ++ suffix))

/-- Whether `c` occurs in decimal numbers. -/
def isDecimalChar (c : Char) : Bool := isSpacedDigit c || c == '-' || c == 'e' || c == 'E'

theorem IsMinus.decimal {minus : Text} (h : IsMinus minus) :
    ∀ c ∈ minus, isDecimalChar c = true := by
  rcases h with rfl | rfl
  · simp
  · decide

theorem Suffix.decimal {suffix : Text} (h : Suffix suffix) :
    ∀ c ∈ suffix, isDecimalChar c = true := by
  cases h with
  | none => simp
  | letter known isMinus digits =>
    refine List.forall_mem_cons.2 ⟨?_, List.forall_mem_append.2 ⟨isMinus.decimal, fun c hc => ?_⟩⟩
    · rcases known with rfl | rfl <;> decide
    · simp [isDecimalChar, digits c hc]

variable {suffix t : Text}

theorem NumberWord.decimal (h : NumberWord suffix t) : ∀ c ∈ t, isDecimalChar c = true := by
  obtain ⟨isMinus, digit, digits, isSuffix⟩ := h
  refine List.forall_mem_append.2 ⟨isMinus.decimal, List.forall_mem_append.2
    ⟨List.forall_mem_cons.2 ⟨?_, fun c hc => ?_⟩, isSuffix.decimal⟩⟩
  · simp [isDecimalChar, isSpacedDigit, digit]
  · simp [isDecimalChar, digits c hc]

theorem isWordChar_of_decimal {c : Char} (h : isDecimalChar c = true) : isWordChar c = true := by
  simp only [isDecimalChar, Bool.or_eq_true, beq_iff_eq, or_assoc] at h
  rcases h with h | rfl | rfl | rfl
  · exact isWordChar_of_spacedDigit h
  · rfl
  · rfl
  · rfl

/-- A character that does not occur in decimal numbers is not in the word. -/
theorem NumberWord.notMem (h : NumberWord suffix t) {c : Char} (hc : isDecimalChar c = false) :
    c ∉ t := fun hmem => by simp [h.decimal c hmem] at hc

theorem containsPair_append (a b : Char) (before after : Text) :
    containsPair a b (before ++ a :: b :: after) = true := by
  induction before with
  | nil => simp [containsPair]
  | cons x before ih =>
    cases before with
    | nil => simp [containsPair]
    | cons y before =>
      rw [List.cons_append, List.cons_append, containsPair, ← List.cons_append, ih]
      simp

/-- A number does not look like a date: behind its first character, a minus stands behind the letter
of an exponent only. -/
theorem NumberWord.not_date (h : NumberWord suffix t) : looksLikeDate t = false := by
  have hupper := h.notMem (c := 'T') (by decide)
  have hlower := h.notMem (c := 't') (by decide)
  have hdash : ∀ c, isSpacedDigit c = true → c ≠ '-' := by
    rintro c hc rfl
    exact absurd hc (by decide)
  obtain ⟨isMinus, digit, digits, isSuffix⟩ := h
  rename_i minus w d
  have htail : '-' ∈ (minus ++ (d :: w ++ suffix)).tail → '-' ∈ suffix := by
    have hw : '-' ∉ w := fun hmem => hdash _ (digits _ hmem) rfl
    have hd : d ≠ '-' := hdash d (by simp [isSpacedDigit, digit])
    rcases isMinus with rfl | rfl
    · simp [hw]
    · simp [hw, Ne.symm hd]
  have hpair : '-' ∈ suffix → containsPair 'e' '-' (minus ++ (d :: w ++ suffix)) = true ∨
      containsPair 'E' '-' (minus ++ (d :: w ++ suffix)) = true := by
    intro hmem
    rw [← List.append_assoc]
    cases isSuffix with
    | none => cases hmem
    | @letter letter minus' w' known isMinus' digits' =>
      have hw' : '-' ∉ w' := fun hmem => hdash _ (digits' _ hmem) rfl
      rcases isMinus' with rfl | rfl
      · rcases known with rfl | rfl
        · simp [hw'] at hmem
        · simp [hw'] at hmem
      · rcases known with rfl | rfl
        · exact .inl (containsPair_append _ _ _ _)
        · exact .inr (containsPair_append _ _ _ _)
  generalize minus ++ (d :: w ++ suffix) = t at hupper hlower htail hpair ⊢
  by_cases hmem : '-' ∈ t.tail
  · rcases hpair (htail hmem) with h | h
    · simp [looksLikeDate, hupper, hlower, h]
    · simp [looksLikeDate, hupper, hlower, h]
  · simp [looksLikeDate, hupper, hlower, hmem]

/-- A word has an exponent exactly if its suffix is not empty. -/
theorem NumberWord.exponent_iff (h : NumberWord suffix t) :
    (t.contains 'e' = true ∨ t.contains 'E' = true) ↔ suffix ≠ [] := by
  obtain ⟨isMinus, digit, digits, isSuffix⟩ := h
  rename_i minus w d
  have hnot : ∀ c, isSpacedDigit c = true → c ≠ 'e' ∧ c ≠ 'E' := by
    intro c hc
    constructor
    · rintro rfl
      exact absurd hc (by decide)
    · rintro rfl
      exact absurd hc (by decide)
  have hw : 'e' ∉ d :: w ∧ 'E' ∉ d :: w := by
    have hall : ∀ c ∈ d :: w, isSpacedDigit c = true :=
      List.forall_mem_cons.2 ⟨by simp [isSpacedDigit, digit], digits⟩
    exact ⟨fun hmem => (hnot _ (hall _ hmem)).1 rfl, fun hmem => (hnot _ (hall _ hmem)).2 rfl⟩
  have hminus : 'e' ∉ minus ∧ 'E' ∉ minus := by
    rcases isMinus with rfl | rfl
    · simp
    · decide
  cases isSuffix with
  | none =>
    simp only [List.append_nil, List.contains_eq_mem, decide_eq_true_eq, List.mem_append, hminus,
      hw]
    simp
  | letter known => rcases known with rfl | rfl <;> simp

end ClipLedger.Toml
