import ClipLedger.Proofs.Toml.Number

/-
  Dates and times are taken as a whole (`SpellsDateTime.readAs`). Their tokens are words with colons
  and periods between them; an hour may stand behind its date and a blank, and a distance from
  universal time behind everything.
-/
namespace ClipLedger.Toml

theorem IsDigits.word {n : Nat} {w : Text} (h : IsDigits n w) : ∀ c ∈ w, isWordChar c = true :=
  fun c hc => isWordChar_of_spacedDigit (by simp [isSpacedDigit, isDigitOf_ten.1 (h.2 c hc)])

theorem IsDigits.ne_nil {n : Nat} {w : Text} (h : IsDigits (n + 1) w) : w ≠ [] := by
  rintro rfl
  cases h.1

/-- A mark that is missing is passed over. -/
theorem Follows.skipMarked? {more : Rest} (h : Follows more) {mark : Token}
    (hmark : mark ∈ [.period, .colon, .plus]) : skipMarked? mark more = some more := by
  cases more with
  | nil => rfl
  | cons token more =>
    have hne : token ≠ mark := fun heq => h.ne hmark more (by rw [heq])
    simp [Toml.skipMarked?, hne]

/-- How the reader takes the offset `o`: a suffix of the word in front of it, and more tokens. -/
structure OffsetTaken (o suffix more : Text) (ts : List Token) : Prop where
  split : o = suffix ++ more
  word : ∀ c ∈ suffix, isWordChar c = true
  lexes : ∀ t, t ≠ [] → (∀ c ∈ t, isWordChar c = true) → Lexes endsValue (t ++ more) (.word t :: ts)
  first : ∀ token ∈ ts.head?, token ≠ .period
  reads : ∀ rest, Follows rest →
    ((skipMarked? .plus (ts ++ rest)).bind (skipMarked? .colon)) = some rest

theorem SpellsOffset.taken {o : Text} (h : SpellsOffset o) :
    ∃ suffix more ts, OffsetTaken o suffix more ts := by
  have hnone : ∀ rest, Follows rest →
      ((skipMarked? .plus rest).bind (skipMarked? .colon)) = some rest := by
    intro rest hrest
    rw [hrest.skipMarked? (by simp), Option.bind_some, hrest.skipMarked? (by simp)]
  cases h with
  | none =>
    refine ⟨[], [], [], rfl, by simp, fun t hne ht => ?_, by simp, hnone⟩
    simpa using lexes_value_word hne ht
  | @universal letter known =>
    refine ⟨[letter], [], [], rfl, ?_, fun t hne ht => ?_, by simp, hnone⟩
    · rcases known with rfl | rfl <;> decide
    · simpa using lexes_value_word hne ht
  | @distance sign h m known hour minute =>
    have hcolon : Lexes endsValue (':' :: m) [.colon, .word m] :=
      (lexes_value_word minute.ne_nil minute.word).sign (by decide)
    rcases known with rfl | rfl
    · have hplus : Lexes endsValue ('+' :: (h ++ ':' :: m)) [.plus, .word h, .colon, .word m] :=
        ((lexes_word hour.ne_nil hour.word).append hcolon (.cons (by decide) _)).sign (by decide)
      refine ⟨[], _, [.plus, .word h, .colon, .word m], rfl, by simp, fun t hne ht => ?_, by simp,
        fun rest _ => rfl⟩
      exact (lexes_word hne ht).append hplus (.cons (by decide) _)
    · refine ⟨'-' :: h, ':' :: m, [.colon, .word m], rfl, ?_, fun t hne ht => ?_, by simp,
        fun rest _ => rfl⟩
      · exact List.forall_mem_cons.2 ⟨by decide, hour.word⟩
      · exact (lexes_word hne ht).append hcolon (.cons (by decide) _)

/-- The tokens of a time behind its hour. -/
theorem timeEnd?_spelled {m s f o : Text} (minute : IsDigits 2 m) (second : IsDigits 2 s)
    (fraction : SecondsFraction f) (offset : SpellsOffset o) :
    ∃ ts, (∀ h, h ≠ [] → (∀ c ∈ h, isWordChar c = true) →
        Lexes endsValue (h ++ ':' :: (m ++ ':' :: (s ++ (f ++ o))))
          (.word h :: .colon :: .word m :: .colon :: ts)) ∧
      ∀ rest, Follows rest → timeEnd? (.word m :: .colon :: (ts ++ rest)) = some rest := by
  obtain ⟨suffix, more, ts, htaken⟩ := offset.taken
  obtain rfl := htaken.split
  have hseconds : ∃ ts', Lexes endsValue (s ++ (f ++ (suffix ++ more))) ts' ∧
      ∀ rest, Follows rest →
        ((skipWord? (ts' ++ rest)).bind (skipMarked? .period)) = some (ts ++ rest) := by
    obtain rfl | ⟨ds, rfl, hne, hds⟩ := fraction
    · refine ⟨.word (s ++ suffix) :: ts, ?_, fun rest hrest => ?_⟩
      · rw [List.nil_append, ← List.append_assoc]
        exact htaken.lexes _ (by simp [second.ne_nil])
          (List.forall_mem_append.2 ⟨second.word, htaken.word⟩)
      · show skipMarked? .period (ts ++ rest) = some (ts ++ rest)
        have hfirst := htaken.first
        cases ts with
        | nil => exact hrest.skipMarked? (by simp)
        | cons token ts => simp [skipMarked?, hfirst token rfl]
    · have hpoint : Lexes endsValue ('.' :: (ds ++ suffix ++ more))
          (.period :: .word (ds ++ suffix) :: ts) := by
        refine (htaken.lexes _ (by simp [hne]) ?_).sign (by decide)
        refine List.forall_mem_append.2 ⟨fun c hc => ?_, htaken.word⟩
        exact isWordChar_of_spacedDigit (by simp [isSpacedDigit, isDigitOf_ten.1 (hds c hc)])
      refine ⟨.word s :: .period :: .word (ds ++ suffix) :: ts, ?_, fun rest _ => rfl⟩
      rw [List.cons_append, ← List.append_assoc ds]
      exact (lexes_word second.ne_nil second.word).append hpoint (.cons (by decide) _)
  obtain ⟨ts', hlexes, hreads⟩ := hseconds
  refine ⟨ts', fun h hne hword => ?_, fun rest hrest => ?_⟩
  · have hminute : Lexes endsValue (m ++ ':' :: (s ++ (f ++ (suffix ++ more))))
        (.word m :: .colon :: ts') :=
      (lexes_word minute.ne_nil minute.word).append (hlexes.sign (by decide)) (.cons (by decide) _)
    exact (lexes_word hne hword).append (hminute.sign (by decide)) (.cons (by decide) _)
  · have hread := hreads rest hrest
    obtain ⟨after, hafter, hmarked⟩ := Option.bind_eq_some_iff.1 hread
    show ((skipWord? (ts' ++ rest)).bind fun ts => (skipMarked? .period ts).bind fun ts =>
      (skipMarked? .plus ts).bind (skipMarked? .colon)) = some rest
    rw [hafter, Option.bind_some, hmarked, Option.bind_some]
    exact htaken.reads rest hrest

theorem mem_of_containsPair {a b : Char} {t : Text} (h : containsPair a b t = true) : a ∈ t := by
  induction t with
  | nil => cases h
  | cons x t ih =>
    cases t with
    | nil => cases h
    | cons y t =>
      simp only [containsPair, Bool.or_eq_true, Bool.and_eq_true, beq_iff_eq] at h
      rcases h with ⟨rfl, -⟩ | h
      · exact List.mem_cons_self
      · exact List.mem_cons_of_mem x (ih h)

/-- `t` begins with a digit and can only be a date or a time. -/
structure DateWord (t : Text) : Prop where
  head : ∃ d w, t = d :: w ∧ d.isDigit = true
  word : ∀ c ∈ t, isWordChar c = true
  looks : looksLikeDate t = true

theorem DateWord.ne_nil {t : Text} (h : DateWord t) : t ≠ [] := by
  obtain ⟨d, w, rfl, -⟩ := h.head
  exact List.cons_ne_nil d w

theorem DateWord.word? {t : Text} (h : DateWord t) (ts : Rest) :
    word? t ts = (dateEnd? false ts).map (.datetime, ·) := by
  have hlooks := h.looks
  obtain ⟨d, w, rfl, hd⟩ := h.head
  rw [word?_number (.inl hd)]
  unfold numberOrDate?
  rw [if_pos hlooks]

theorem SpellsDate.dateWord {d : Text} (h : SpellsDate d) : DateWord d := by
  obtain ⟨year, month, day⟩ := h
  rename_i y m d
  have hmem : ∀ c ∈ y ++ '-' :: (m ++ '-' :: d), isDigitOf 10 c = true ∨ c = '-' := by
    have hleft {n : Nat} {w : Text} (h : IsDigits n w) :
        ∀ c ∈ w, isDigitOf 10 c = true ∨ c = '-' := fun c hc => .inl (h.2 c hc)
    exact List.forall_mem_append.2 ⟨hleft year, List.forall_mem_cons.2 ⟨.inr rfl,
      List.forall_mem_append.2 ⟨hleft month, List.forall_mem_cons.2 ⟨.inr rfl, hleft day⟩⟩⟩⟩
  have hpair : ∀ a b, isDigitOf 10 a = false → a ≠ '-' →
      containsPair a b (y ++ '-' :: (m ++ '-' :: d)) = false := by
    intro a b hdigit hminus
    rw [Bool.eq_false_iff]
    intro hcontains
    rcases hmem a (mem_of_containsPair hcontains) with h | h
    · rw [h] at hdigit
      cases hdigit
    · exact hminus h
  have hlower := hpair 'e' '-' (by decide) (by decide)
  have hupper := hpair 'E' '-' (by decide) (by decide)
  cases y with
  | nil => cases year.1
  | cons c y =>
    refine ⟨⟨c, _, rfl, isDigitOf_ten.1 (year.2 c List.mem_cons_self)⟩, fun x hx => ?_, ?_⟩
    · rcases hmem x hx with h | rfl
      · exact isWordChar_of_spacedDigit (by simp [isSpacedDigit, isDigitOf_ten.1 h])
      · decide
    · rw [List.cons_append] at hlower hupper ⊢
      simp [looksLikeDate, hlower, hupper]

/-- A date may have its hour behind a letter. -/
theorem DateWord.append {d h : Text} (hd : DateWord d) {mark : Char}
    (hmark : mark = 'T' ∨ mark = 't') (hh : ∀ c ∈ h, isWordChar c = true) :
    DateWord (d ++ mark :: h) := by
  obtain ⟨c, w, rfl, hc⟩ := hd.head
  refine ⟨⟨c, _, rfl, hc⟩, List.forall_mem_append.2 ⟨hd.word, List.forall_mem_cons.2 ⟨?_, hh⟩⟩, ?_⟩
  · rcases hmark with rfl | rfl <;> decide
  · rcases hmark with rfl | rfl <;> simp [looksLikeDate]

theorem DateWord.starts {d : Text} (h : DateWord d) : Starts endsBlank d :=
  starts_word h.ne_nil h.word

theorem IsDigits.not_date {n : Nat} {w : Text} (h : IsDigits n w) : looksLikeDate w = false := by
  have hnot : ∀ c, isDigitOf 10 c = false → c ∉ w := by
    intro c hc hmem
    rw [h.2 c hmem] at hc
    cases hc
  have hT := hnot 'T' (by decide)
  have ht := hnot 't' (by decide)
  have hminus : '-' ∉ w.tail := fun hmem => hnot '-' (by decide) (List.mem_of_mem_tail hmem)
  simp [looksLikeDate, hT, ht, hminus]

/-- What follows a value does not go on with a time. -/
theorem Follows.dateEnd? {more : Rest} (h : Follows more) : dateEnd? false more = some more := by
  unfold Toml.dateEnd?
  rw [h.skipHour, if_neg Bool.false_ne_true]
  split
  · exact absurd rfl (h.ne (by simp) _)
  · rfl

theorem SpellsDate.readAs {d : Text} (h : SpellsDate d) : ∃ ts, ReadAs .datetime d ts := by
  have hd := h.dateWord
  have hlexes : Lexes endsValue (d ++ []) [.word d] := by
    rw [List.append_nil]
    exact lexes_value_word hd.ne_nil hd.word
  rw [← List.append_nil d]
  refine ⟨_, readAs_of_word hlexes hd.starts fun more hmore => ?_⟩
  rw [hd.word?, List.nil_append, hmore.dateEnd?]
  rfl

theorem SpellsTime.readAs {t : Text} (h : SpellsTime t) : ∃ ts, ReadAs .datetime t ts := by
  obtain ⟨hour, minute, second, fraction⟩ := h
  rename_i h m s f
  obtain ⟨ts, hlexes, hread⟩ := timeEnd?_spelled minute second fraction .none
  rw [List.append_nil] at hlexes
  have hstarts := starts_word hour.ne_nil hour.word
  refine ⟨_, readAs_of_word (hlexes h hour.ne_nil hour.word) hstarts fun more hmore => ?_⟩
  have hnot := hour.not_date
  obtain ⟨c, h, rfl, hc⟩ : ∃ c h', h = c :: h' ∧ c.isDigit = true := by
    cases h with
    | nil => cases hour.1
    | cons c h => exact ⟨c, h, rfl, isDigitOf_ten.1 (hour.2 c List.mem_cons_self)⟩
  rw [word?_number (.inl hc)]
  unfold numberOrDate?
  rw [hnot, if_neg Bool.false_ne_true]
  show (timeEnd? (.word m :: .colon :: (ts ++ more))).map _ = _
  rw [hread more hmore]
  rfl

/-- Behind a letter the hour belongs to the word of the date, and behind a blank it is a word of its
own. -/
theorem SpellsDate.readAs_time {d t o : Text} {mark : Char} (date : SpellsDate d)
    (known : mark = 'T' ∨ mark = 't' ∨ mark = ' ') (time : SpellsTime t)
    (offset : SpellsOffset o) : ∃ ts, ReadAs .datetime (d ++ mark :: (t ++ o)) ts := by
  have hd := date.dateWord
  obtain ⟨hour, minute, second, fraction⟩ := time
  rename_i h m s f
  obtain ⟨ts, hlexes, hread⟩ := timeEnd?_spelled minute second fraction offset
  have hsplit : d ++ mark :: (h ++ ':' :: (m ++ ':' :: (s ++ f)) ++ o) =
      d ++ mark :: (h ++ ':' :: (m ++ ':' :: (s ++ (f ++ o)))) := by simp
  rw [hsplit]
  have hletter (hmark : mark = 'T' ∨ mark = 't') : ∃ ts, ReadAs .datetime
      (d ++ mark :: (h ++ ':' :: (m ++ ':' :: (s ++ (f ++ o))))) ts := by
    have hword := hd.append hmark hour.word
    have hlexes' := hlexes (d ++ mark :: h) hword.ne_nil hword.word
    rw [← List.cons_append, ← List.append_assoc]
    refine ⟨_, readAs_of_word hlexes' hword.starts fun more hmore => ?_⟩
    rw [hword.word?]
    show (timeEnd? (.word m :: .colon :: (ts ++ more))).map _ = _
    rw [hread more hmore]
    rfl
  rcases known with rfl | rfl | rfl
  · exact hletter (.inl rfl)
  · exact hletter (.inr rfl)
  · have hblank : Blank [' '] := by simp [Blank, isBlankChar]
    have hgap := hblank.lexes.append (hlexes h hour.ne_nil hour.word)
      ((starts_word hour.ne_nil hour.word).append _)
    have hlexes' := (lexes_word hd.ne_nil hd.word).append hgap (.cons (by decide) _)
    refine ⟨_, readAs_of_word hlexes' hd.starts fun more hmore => ?_⟩
    rw [hd.word?]
    show (timeEnd? (.word m :: .colon :: (ts ++ more))).map _ = _
    rw [hread more hmore]
    rfl


/-- **Dates and times are taken as a whole.** -/
theorem SpellsDateTime.readAs {w : Text} (h : SpellsDateTime w) :
    ∃ ts, ReadAs .datetime w ts := by
  cases h with
  | date date => exact date.readAs
  | time time => exact time.readAs
  | both date known time offset => exact date.readAs_time known time offset

end ClipLedger.Toml
