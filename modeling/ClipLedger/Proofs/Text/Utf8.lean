import ClipLedger.Text.Utf8

/-
  UTF-8: strict reading is the inverse of writing (`decode?_eq_some_iff`), it agrees with lenient
  reading where it succeeds (`decodeLossy_of_decode?`), and a byte below 80 is a character of its
  own wherever it stands (`decodeLossy_append_ascii`, `mem_encode_ascii`), also after a sequence
  that was never finished.
-/
namespace ClipLedger.Utf8

theorem toNat_byte {n : Nat} (h : n < 256) : (UInt8.ofNat n).toNat = n := by
  rw [UInt8.toNat_ofNat']
  omega

theorem toNat_char {n : Nat} (h : n.isValidChar) : (Char.ofNat n).toNat = n := by
  rw [Char.ofNat, dif_pos h]
  rfl

theorem encode_append (s t : Text) : encode (s ++ t) = encode s ++ encode t :=
  List.flatMap_append

theorem encode_cons (c : Char) (t : Text) : encode (c :: t) = encodeChar c ++ encode t :=
  List.flatMap_cons

/-! ## One byte at a time -/

/-- The least byte that may follow the leading byte `lead`. -/
def secondLow (lead : Nat) : Nat := if lead = 0xE0 then 0xA0 else if lead = 0xF0 then 0x90 else 0x80

/-- The greatest byte that may follow the leading byte `lead`. -/
def secondHigh (lead : Nat) : Nat :=
  if lead = 0xED then 0x9F else if lead = 0xF4 then 0x8F else 0xBF

theorem secondLow_ge (lead : Nat) : 0x80 ≤ secondLow lead := by
  unfold secondLow
  grind

theorem second_iff (lead n : Nat) :
    secondLow lead ≤ n ∧ n ≤ secondHigh lead ↔ 0x80 ≤ n ∧ n ≤ 0xBF ∧ (lead = 0xE0 → 0xA0 ≤ n) ∧
      (lead = 0xED → n ≤ 0x9F) ∧ (lead = 0xF0 → 0x90 ≤ n) ∧ (lead = 0xF4 → n ≤ 0x8F) := by
  unfold secondLow secondHigh
  grind

theorem begin_ascii {b : UInt8} (h : b.toNat < 0x80) :
    begin b = ([.char (Char.ofNat b.toNat)], .start) := if_pos h

/-- How many values `begin` tells apart in a leading byte with `n` tail bytes behind it. -/
def leadSize : Nat → Nat
  | 1 => 32
  | 2 => 16
  | _ => 8

/-- A leading byte of a sequence with `n` tail bytes: the reader keeps its low bits and waits for a
byte from `secondLow` to `secondHigh`. -/
theorem begin_lead {b : UInt8} {n : Nat}
    (h : n = 1 ∧ (0xC2 ≤ b.toNat ∧ b.toNat ≤ 0xDF) ∨ n = 2 ∧ (0xE0 ≤ b.toNat ∧ b.toNat ≤ 0xEF) ∨
      n = 3 ∧ (0xF0 ≤ b.toNat ∧ b.toNat ≤ 0xF4)) :
    begin b =
      ([], .inside (b.toNat % leadSize n) n (secondLow b.toNat) (secondHigh b.toNat)) := by
  have hl : lead? b = some ⟨n, secondLow b.toNat, secondHigh b.toNat⟩ := by
    simp only [lead?, secondLow, secondHigh]
    grind
  rw [begin, if_neg (by omega), hl]
  rcases h with ⟨rfl, -⟩ | ⟨rfl, -⟩ | ⟨rfl, -⟩ <;> rfl

theorem begin_none {b : UInt8} (h : (0x80 ≤ b.toNat ∧ b.toNat < 0xC2) ∨ 0xF4 < b.toNat) :
    begin b = ([.invalid], .start) := by
  have hl : lead? b = none := by
    simp only [lead?]
    grind
  rw [begin, if_neg (by omega), hl]

theorem step_last {v lo hi : Nat} {b : UInt8} (h : lo ≤ b.toNat ∧ b.toNat ≤ hi) :
    step (.inside v 1 lo hi) b = ([.char (Char.ofNat (v * 64 + tailBits b))], .start) := by
  rw [step, if_pos (by simpa [within] using h)]
  rfl

theorem step_more {v w lo hi : Nat} {b : UInt8} (h : lo ≤ b.toNat ∧ b.toNat ≤ hi) :
    step (.inside v (w + 2) lo hi) b =
      ([], .inside (v * 64 + tailBits b) (w + 1) 0x80 0xBF) := by
  rw [step, if_pos (by simpa [within] using h)]
  rfl

theorem step_outside {v w lo hi : Nat} {b : UInt8} (h : ¬(lo ≤ b.toNat ∧ b.toNat ≤ hi)) :
    step (.inside v w lo hi) b = (.invalid :: (begin b).1, (begin b).2) := by
  rw [step, if_neg (by simpa [within] using h)]

theorem partsFrom_cons (m : Mode) (b : UInt8) (rest : Bytes) :
    partsFrom m (b :: rest) = (step m b).1 ++ partsFrom (step m b).2 rest := by
  cases m <;> rfl

/-! ## Reading what was written -/

theorem partsFrom_encodeChar (c : Char) (rest : Bytes) :
    partsFrom .start (encodeChar c ++ rest) = .char c :: partsFrom .start rest := by
  have hv : c.toNat.isValidChar := c.valid
  have hc : ∀ n, n = c.toNat → Char.ofNat n = c := by
    rintro n rfl
    exact Char.ofNat_toNat c
  unfold encodeChar
  dsimp only
  split
  · next h =>
    have h0 : (UInt8.ofNat c.toNat).toNat = c.toNat := toNat_byte (by omega)
    simp only [List.cons_append, List.nil_append, partsFrom_cons, step]
    rw [begin_ascii (by omega), h0, Char.ofNat_toNat]
    rfl
  split
  · next h1 h2 =>
    have h0 := toNat_byte (n := 0xC0 + c.toNat / 64) (by omega)
    have h1 := toNat_byte (n := 0x80 + c.toNat % 64) (by omega)
    simp only [List.cons_append, List.nil_append, partsFrom_cons, step.eq_1]
    rw [begin_lead (.inl ⟨rfl, by omega⟩), h0]
    simp only [leadSize]
    rw [step_last ((second_iff _ _).2 (by omega)), tailBits, h1, hc _ (by omega)]
    rfl
  split
  · next h1 h2 h3 =>
    have h0 := toNat_byte (n := 0xE0 + c.toNat / 4096) (by omega)
    have h1 := toNat_byte (n := 0x80 + c.toNat / 64 % 64) (by omega)
    have h2 := toNat_byte (n := 0x80 + c.toNat % 64) (by omega)
    simp only [List.cons_append, List.nil_append, partsFrom_cons, step.eq_1]
    rw [begin_lead (.inr (.inl ⟨rfl, by omega⟩)), h0]
    simp only [leadSize]
    rw [step_more ((second_iff _ _).2 (by omega))]
    dsimp only
    rw [step_last (by omega), tailBits, tailBits, h1, h2, hc _ (by omega)]
    rfl
  · next h1 h2 h3 =>
    have h0 := toNat_byte (n := 0xF0 + c.toNat / 262144) (by omega)
    have h1 := toNat_byte (n := 0x80 + c.toNat / 4096 % 64) (by omega)
    have h2 := toNat_byte (n := 0x80 + c.toNat / 64 % 64) (by omega)
    have h3 := toNat_byte (n := 0x80 + c.toNat % 64) (by omega)
    simp only [List.cons_append, List.nil_append, partsFrom_cons, step.eq_1]
    rw [begin_lead (.inr (.inr ⟨rfl, by omega⟩)), h0]
    simp only [leadSize]
    rw [step_more ((second_iff _ _).2 (by omega))]
    dsimp only
    rw [step_more (by omega)]
    dsimp only
    rw [step_last (by omega), tailBits, tailBits, tailBits, h1, h2, h3, hc _ (by omega)]
    rfl

theorem parts_encode (t : Text) : parts (encode t) = t.map .char := by
  unfold parts
  induction t with
  | nil => rfl
  | cons c t ih => rw [encode_cons, partsFrom_encodeChar, ih, List.map_cons]

theorem textOf?_map_char (t : Text) : textOf? (t.map .char) = some t := by
  induction t with
  | nil => rfl
  | cons c t ih => rw [List.map_cons, textOf?, ih]; rfl

theorem decode?_encode (t : Text) : decode? (encode t) = some t := by
  rw [decode?, parts_encode, textOf?_map_char]

/-! ## Writing what was read -/

theorem encodeChar_one {b : UInt8} (h : b.toNat < 0x80) :
    encodeChar (Char.ofNat b.toNat) = [b] := by
  have hn := toNat_char (n := b.toNat) (Or.inl (by omega))
  rw [encodeChar, hn]
  simp [h]

theorem encodeChar_two {b b1 : UInt8} (h : 0xC2 ≤ b.toNat ∧ b.toNat ≤ 0xDF)
    (h1 : 0x80 ≤ b1.toNat ∧ b1.toNat ≤ 0xBF) :
    encodeChar (Char.ofNat (b.toNat % leadSize 1 * 64 + tailBits b1)) = [b, b1] := by
  simp only [leadSize, tailBits]
  have hn := toNat_char (n := b.toNat % 32 * 64 + b1.toNat % 64) (Or.inl (by omega))
  rw [encodeChar, hn, if_neg (by omega), if_pos (by omega),
    show 0xC0 + (b.toNat % 32 * 64 + b1.toNat % 64) / 64 = b.toNat by omega,
    show 0x80 + (b.toNat % 32 * 64 + b1.toNat % 64) % 64 = b1.toNat by omega,
    UInt8.ofNat_toNat, UInt8.ofNat_toNat]

theorem encodeChar_three {b b1 b2 : UInt8} (h : 0xE0 ≤ b.toNat ∧ b.toNat ≤ 0xEF)
    (h1 : secondLow b.toNat ≤ b1.toNat ∧ b1.toNat ≤ secondHigh b.toNat)
    (h2 : 0x80 ≤ b2.toNat ∧ b2.toNat ≤ 0xBF) :
    encodeChar (Char.ofNat ((b.toNat % leadSize 2 * 64 + tailBits b1) * 64 + tailBits b2)) =
      [b, b1, b2] := by
  have h1 := (second_iff _ _).1 h1
  simp only [leadSize, tailBits]
  generalize hn : (b.toNat % 16 * 64 + b1.toNat % 64) * 64 + b2.toNat % 64 = n
  have hv : n.isValidChar := by
    unfold Nat.isValidChar
    omega
  rw [encodeChar, toNat_char hv, if_neg (by omega), if_neg (by omega), if_pos (by omega),
    show 0xE0 + n / 4096 = b.toNat by omega,
    show 0x80 + n / 64 % 64 = b1.toNat by omega,
    show 0x80 + n % 64 = b2.toNat by omega,
    UInt8.ofNat_toNat, UInt8.ofNat_toNat, UInt8.ofNat_toNat]

theorem encodeChar_four {b b1 b2 b3 : UInt8} (h : 0xF0 ≤ b.toNat ∧ b.toNat ≤ 0xF4)
    (h1 : secondLow b.toNat ≤ b1.toNat ∧ b1.toNat ≤ secondHigh b.toNat)
    (h2 : 0x80 ≤ b2.toNat ∧ b2.toNat ≤ 0xBF) (h3 : 0x80 ≤ b3.toNat ∧ b3.toNat ≤ 0xBF) :
    encodeChar (Char.ofNat
      (((b.toNat % leadSize 3 * 64 + tailBits b1) * 64 + tailBits b2) * 64 + tailBits b3)) =
        [b, b1, b2, b3] := by
  have h1 := (second_iff _ _).1 h1
  simp only [leadSize, tailBits]
  generalize hn : ((b.toNat % 8 * 64 + b1.toNat % 64) * 64 + b2.toNat % 64) * 64 + b3.toNat % 64 = n
  have hv : n.isValidChar := by
    unfold Nat.isValidChar
    omega
  rw [encodeChar, toNat_char hv, if_neg (by omega), if_neg (by omega), if_neg (by omega),
    show 0xF0 + n / 262144 = b.toNat by omega,
    show 0x80 + n / 4096 % 64 = b1.toNat by omega,
    show 0x80 + n / 64 % 64 = b2.toNat by omega,
    show 0x80 + n % 64 = b3.toNat by omega,
    UInt8.ofNat_toNat, UInt8.ofNat_toNat, UInt8.ofNat_toNat, UInt8.ofNat_toNat]

theorem textOf?_inside {v w lo hi : Nat} {bs : Bytes} {t : Text}
    (h : textOf? (partsFrom (.inside v w lo hi) bs) = some t) :
    ∃ b rest, bs = b :: rest ∧ (lo ≤ b.toNat ∧ b.toNat ≤ hi) ∧
      textOf? ((step (.inside v w lo hi) b).1 ++ partsFrom (step (.inside v w lo hi) b).2 rest) =
        some t := by
  cases bs with
  | nil => cases h
  | cons b rest =>
    rw [partsFrom_cons] at h
    refine ⟨b, rest, rfl, ?_, h⟩
    apply Decidable.byContradiction
    intro hb
    rw [step_outside hb] at h
    cases h

theorem textOf?_char {c : Char} {ps : List Part} {t : Text}
    (h : textOf? (.char c :: ps) = some t) : ∃ t', t = c :: t' ∧ textOf? ps = some t' := by
  obtain ⟨t', ht, rfl⟩ := Option.map_eq_some_iff.1 h
  exact ⟨t', rfl, ht⟩

/-- Bytes that read as a text begin with the bytes of its first character. -/
theorem textOf?_first {b : UInt8} {rest : Bytes} {t : Text}
    (h : textOf? (partsFrom .start (b :: rest)) = some t) :
    ∃ c r t', b :: rest = encodeChar c ++ r ∧ t = c :: t' ∧
      textOf? (partsFrom .start r) = some t' := by
  rw [partsFrom_cons, step] at h
  rcases (by omega : b.toNat < 0x80 ∨ (0xC2 ≤ b.toNat ∧ b.toNat ≤ 0xDF) ∨
    (0xE0 ≤ b.toNat ∧ b.toNat ≤ 0xEF) ∨ (0xF0 ≤ b.toNat ∧ b.toNat ≤ 0xF4) ∨
    ((0x80 ≤ b.toNat ∧ b.toNat < 0xC2) ∨ 0xF4 < b.toNat)) with hb | hb | hb | hb | hb
  · rw [begin_ascii hb] at h
    obtain ⟨t', rfl, ht⟩ := textOf?_char h
    exact ⟨_, rest, t', by rw [encodeChar_one hb]; rfl, rfl, ht⟩
  · rw [begin_lead (.inl ⟨rfl, hb⟩)] at h
    obtain ⟨b1, r1, rfl, h1, h⟩ := textOf?_inside h
    rw [step_last h1] at h
    obtain ⟨t', rfl, ht⟩ := textOf?_char h
    have h1 := (second_iff _ _).1 h1
    exact ⟨_, r1, t', by rw [encodeChar_two hb (by omega)]; rfl, rfl, ht⟩
  · rw [begin_lead (.inr (.inl ⟨rfl, hb⟩))] at h
    obtain ⟨b1, r1, rfl, h1, h⟩ := textOf?_inside h
    rw [step_more h1] at h
    obtain ⟨b2, r2, rfl, h2, h⟩ := textOf?_inside h
    rw [step_last h2] at h
    obtain ⟨t', rfl, ht⟩ := textOf?_char h
    exact ⟨_, r2, t', by rw [encodeChar_three hb h1 h2]; rfl, rfl, ht⟩
  · rw [begin_lead (.inr (.inr ⟨rfl, hb⟩))] at h
    obtain ⟨b1, r1, rfl, h1, h⟩ := textOf?_inside h
    rw [step_more h1] at h
    obtain ⟨b2, r2, rfl, h2, h⟩ := textOf?_inside h
    rw [step_more h2] at h
    obtain ⟨b3, r3, rfl, h3, h⟩ := textOf?_inside h
    rw [step_last h3] at h
    obtain ⟨t', rfl, ht⟩ := textOf?_char h
    exact ⟨_, r3, t', by rw [encodeChar_four hb h1 h2 h3]; rfl, rfl, ht⟩
  · rw [begin_none hb] at h
    cases h

theorem encodeChar_ne_nil (c : Char) : encodeChar c ≠ [] := by
  unfold encodeChar
  dsimp only
  split
  · simp
  split
  · simp
  split <;> simp

theorem encode_of_textOf? (n : Nat) (bs : Bytes) (t : Text) (hn : bs.length ≤ n)
    (h : textOf? (partsFrom .start bs) = some t) : encode t = bs := by
  induction n generalizing bs t with
  | zero =>
    cases List.length_eq_zero_iff.1 (Nat.le_zero.1 hn)
    cases h
    rfl
  | succ n ih =>
    cases bs with
    | nil => cases h; rfl
    | cons b rest =>
      obtain ⟨c, r, t', hbs, rfl, ht⟩ := textOf?_first h
      have hc := List.length_pos_iff.2 (encodeChar_ne_nil c)
      have hlen := congrArg List.length hbs
      rw [List.length_append] at hlen
      rw [encode_cons, ih r t' (by omega) ht, hbs]

/-- `decode?` is the inverse of `encode`. -/
theorem decode?_eq_some_iff (bs : Bytes) (t : Text) : decode? bs = some t ↔ encode t = bs := by
  constructor
  · exact encode_of_textOf? bs.length bs t (Nat.le_refl _)
  · rintro rfl
    exact decode?_encode t

/-! ## Bytes that stand for themselves -/

/-- In this mode a byte below 80 ends what was begun. -/
def Mode.RefusesAscii : Mode → Prop
  | .start => True
  | .inside _ _ low _ => 0x80 ≤ low

theorem refusesAscii_begin (b : UInt8) : (begin b).2.RefusesAscii := by
  rcases (by omega : b.toNat < 0x80 ∨ (0xC2 ≤ b.toNat ∧ b.toNat ≤ 0xDF) ∨
    (0xE0 ≤ b.toNat ∧ b.toNat ≤ 0xEF) ∨ (0xF0 ≤ b.toNat ∧ b.toNat ≤ 0xF4) ∨
    ((0x80 ≤ b.toNat ∧ b.toNat < 0xC2) ∨ 0xF4 < b.toNat)) with h | h | h | h | h
  · rw [begin_ascii h]; trivial
  · rw [begin_lead (.inl ⟨rfl, h⟩)]; exact secondLow_ge _
  · rw [begin_lead (.inr (.inl ⟨rfl, h⟩))]; exact secondLow_ge _
  · rw [begin_lead (.inr (.inr ⟨rfl, h⟩))]; exact secondLow_ge _
  · rw [begin_none h]; trivial

theorem refusesAscii_step (m : Mode) (b : UInt8) : (step m b).2.RefusesAscii := by
  cases m with
  | start => exact refusesAscii_begin b
  | inside v w lo hi =>
    rw [step]
    split
    · dsimp only
      split
      · trivial
      · exact Nat.le_refl _
    · exact refusesAscii_begin b

theorem partsFrom_append_ascii (m : Mode) (hm : m.RefusesAscii) (bs rest : Bytes) {b : UInt8}
    (hb : b.toNat < 0x80) :
    partsFrom m (bs ++ b :: rest) =
      partsFrom m bs ++ .char (Char.ofNat b.toNat) :: partsFrom .start rest := by
  induction bs generalizing m with
  | nil =>
    rw [List.nil_append, partsFrom_cons]
    cases m with
    | start => rw [step, begin_ascii hb]; rfl
    | inside v w lo hi =>
      have : 0x80 ≤ lo := hm
      rw [step_outside (by omega), begin_ascii hb]
      rfl
  | cons a bs ih =>
    rw [List.cons_append, partsFrom_cons, partsFrom_cons m a, ih _ (refusesAscii_step m a),
      List.append_assoc]

/-- A byte below 80 is a character wherever it stands. -/
theorem decodeLossy_append_ascii (bs rest : Bytes) {b : UInt8} (hb : b.toNat < 0x80) :
    decodeLossy (bs ++ b :: rest) =
      decodeLossy bs ++ Char.ofNat b.toNat :: decodeLossy rest := by
  rw [decodeLossy, parts, partsFrom_append_ascii .start trivial bs rest hb, List.map_append,
    List.map_cons]
  rfl

theorem decodeLossy_of_decode? {bs : Bytes} {t : Text} (h : decode? bs = some t) :
    decodeLossy bs = t := by
  unfold decode? at h
  unfold decodeLossy
  generalize parts bs = ps at h
  induction ps generalizing t with
  | nil => cases h; rfl
  | cons p ps ih =>
    cases p with
    | invalid => cases h
    | char c =>
      obtain ⟨t', rfl, h'⟩ := textOf?_char h
      rw [List.map_cons, ih h']

theorem encodeChar_ascii {c : Char} {b : UInt8} (hb : b.toNat < 0x80) (h : b ∈ encodeChar c) :
    c = Char.ofNat b.toNat := by
  have hv : c.toNat.isValidChar := c.valid
  unfold encodeChar at h
  dsimp only at h
  split at h
  · rw [List.mem_singleton] at h
    rw [h, toNat_byte (by omega), Char.ofNat_toNat]
  split at h
  · simp only [List.mem_cons, List.not_mem_nil, or_false] at h
    rcases h with rfl | rfl <;> rw [toNat_byte (by omega)] at hb <;> omega
  split at h
  · simp only [List.mem_cons, List.not_mem_nil, or_false] at h
    rcases h with rfl | rfl | rfl <;> rw [toNat_byte (by omega)] at hb <;> omega
  · simp only [List.mem_cons, List.not_mem_nil, or_false] at h
    rcases h with rfl | rfl | rfl | rfl <;> rw [toNat_byte (by omega)] at hb <;> omega

/-- A byte below 80 comes from its own character only. -/
theorem mem_encode_ascii {b : UInt8} (hb : b.toNat < 0x80) {t : Text} (h : b ∈ encode t) :
    Char.ofNat b.toNat ∈ t := by
  obtain ⟨c, hc, hbc⟩ := List.mem_flatMap.1 h
  rwa [← encodeChar_ascii hb hbc]

end ClipLedger.Utf8
