import Mathlib

/-
  Binary64 arithmetic on numbers that are zero or positive: how large what comes out can be. No sum,
  product or quotient is followed to its last place. It is enough to know the power of two that a
  number stays below (`Below`), that rounding carries it over at most one more, and that a large
  number does not grow by a small one (`add_absorbs`); divisors are numbers from one on
  (`FromOne`), which whole numbers are (`ofNat_fromOne`).
-/
namespace ClipLedger.Binary64

open Float.Model (UnpackedFloat totalExponent Format)
open Float.Model.UnpackedFloat

/-! ## Powers of two -/

theorem log2_mono {m n : ℕ} (h : m ≤ n) : m.log2 ≤ n.log2 := by
  rw [Nat.log2_eq_log_two, Nat.log2_eq_log_two]
  exact Nat.log_mono_right h

theorem log2_div_two_pow (m n : ℕ) : (m / 2 ^ n).log2 = m.log2 - n := by
  rw [Nat.log2_eq_log_two, Nat.log2_eq_log_two]
  exact Nat.log_div_base_pow 2 m n

theorem log2_mul_two_pow {m : ℕ} (h : m ≠ 0) (n : ℕ) : (m * 2 ^ n).log2 = m.log2 + n := by
  induction n with
  | zero => rw [pow_zero, mul_one, add_zero]
  | succ n ih =>
    rw [pow_succ, ← mul_assoc, Nat.log2_eq_log_two, Nat.log_mul_base one_lt_two (by positivity),
      ← Nat.log2_eq_log_two, ih, add_assoc]

theorem log2_add_one_le {m : ℕ} (h : m ≠ 0) : (m + 1).log2 ≤ m.log2 + 1 := by
  calc (m + 1).log2 ≤ (m * 2 ^ 1).log2 := log2_mono (by omega)
    _ = m.log2 + 1 := log2_mul_two_pow h 1

theorem log2_add_le {m n : ℕ} (hm : m ≠ 0) (hn : n ≠ 0) :
    (m + n).log2 ≤ max m.log2 n.log2 + 1 := by
  rcases le_total m n with hle | hle
  · have h := log2_mono (show m + n ≤ n * 2 ^ 1 by omega)
    rw [log2_mul_two_pow hn] at h
    omega
  · have h := log2_mono (show m + n ≤ m * 2 ^ 1 by omega)
    rw [log2_mul_two_pow hm] at h
    omega

/-! ## Shifting -/

theorem shiftRight_succ (em : ExtendedMantissa) (n : ℕ) :
    em >>> (n + 1) = (em >>> n).shiftRightOne := rfl

theorem mantissa_shiftRight (em : ExtendedMantissa) (n : ℕ) :
    (em >>> n).mantissa = em.mantissa / 2 ^ n := by
  induction n with
  | zero => exact (Nat.div_one _).symm
  | succ n ih =>
    rw [shiftRight_succ]
    show (em >>> n).mantissa / 2 = _
    rw [ih, Nat.div_div_eq_div_mul, pow_succ]

theorem roundBit_shiftRight_succ (em : ExtendedMantissa) (n : ℕ) :
    (em >>> (n + 1)).roundBit = (em.mantissa / 2 ^ n % 2 != 0) := by
  rw [shiftRight_succ]
  show ((em >>> n).mantissa % 2 != 0) = _
  rw [mantissa_shiftRight]

theorem roundedMantissa_bounds (em : ExtendedMantissa) :
    em.mantissa ≤ em.roundedMantissa ∧ em.roundedMantissa ≤ em.mantissa + 1 := by
  obtain ⟨m, _ | _, _ | _⟩ := em <;>
    simp only [ExtendedMantissa.roundedMantissa, ExtendedMantissa.accuracy,
      Accuracy.roundToNearestEven] <;> omega

theorem roundedMantissa_of_roundBit {em : ExtendedMantissa} (h : em.roundBit = false) :
    em.roundedMantissa = em.mantissa := by
  obtain ⟨m, r, _ | _⟩ := em <;> cases h <;> rfl

theorem mantissa_ofMantissaAndAccuracy (m : ℕ) (acc : Accuracy) :
    (ExtendedMantissa.ofMantissaAndAccuracy m acc).mantissa = m := by
  rcases acc with _ | (_ | _ | _) <;> rfl

/-! ## Rounding -/

theorem targetExponent_eq (k : ℤ) : Format.binary64.targetExponent k = max (k - 53) (-1074) := rfl

/-- By how many places rounding shifts a mantissa. -/
def places (m : ℕ) (e : ℤ) : ℕ := (Format.binary64.targetExponent (totalExponent m e) - e).toNat

/-- A mantissa rounded to the places that there are. -/
def rounded (m : ℕ) (e : ℤ) (acc : Accuracy) : ℕ :=
  (ExtendedMantissa.ofMantissaAndAccuracy m acc >>> places m e).roundedMantissa

theorem rounded_bounds (m : ℕ) (e : ℤ) (acc : Accuracy) :
    m / 2 ^ places m e ≤ rounded m e acc ∧ rounded m e acc ≤ m / 2 ^ places m e + 1 := by
  have h := roundedMantissa_bounds (ExtendedMantissa.ofMantissaAndAccuracy m acc >>> places m e)
  rw [mantissa_shiftRight, mantissa_ofMantissaAndAccuracy] at h
  exact h

/-- What is rounded is shifted once more, should it have become too long. -/
theorem roundWithAccuracy_cases (s : Sign) (m : ℕ) (e : ℤ) (acc : Accuracy) :
    ∃ k, k = places (rounded m e acc) (e + places m e) ∧
      (rounded m e acc / 2 ^ k = 0 ∧ roundWithAccuracy .binary64 s m e acc = .zero s ∨
        ∃ hpos, roundWithAccuracy .binary64 s m e acc =
          .finite s (rounded m e acc / 2 ^ k) (e + places m e + k) hpos) := by
  refine ⟨_, rfl, ?_⟩
  have hmantissa : (shiftToTargetExponent .binary64 (rounded m e acc) (e + places m e)
      .exact).1.mantissa =
      rounded m e acc / 2 ^ places (rounded m e acc) (e + places m e) :=
    mantissa_shiftRight (.ofMantissaAndAccuracy (rounded m e acc) .exact) _
  rw [← hmantissa]
  by_cases hzero : (shiftToTargetExponent .binary64 (rounded m e acc) (e + places m e)
      .exact).1.mantissa = 0
  · exact .inl ⟨hzero, dif_pos hzero⟩
  · exact .inr ⟨Nat.pos_of_ne_zero hzero, dif_neg hzero⟩

theorem totalExponent_div {m n : ℕ} (h : m / 2 ^ n ≠ 0) (e : ℤ) :
    totalExponent (m / 2 ^ n) (e + n) = totalExponent m e := by
  have hn : n ≤ m.log2 := by
    have hle : 2 ^ n ≤ m := (Nat.div_ne_zero_iff.1 h).2
    exact (Nat.le_log2 ((Nat.two_pow_pos n).trans_le hle).ne').2 hle
  unfold totalExponent
  rw [log2_div_two_pow]
  omega

/-- Zero, or a number of a sign below a power of two. -/
inductive Below (k : ℤ) (s : Sign) : UnpackedFloat → Prop where
  | zero (z : Sign) : Below k s (.zero z)
  | finite {m : ℕ} {e : ℤ} (hpos : 0 < m) (h : totalExponent m e ≤ k) :
      Below k s (.finite s m e hpos)

theorem Below.mono {j k : ℤ} {s : Sign} {f : UnpackedFloat} (h : Below j s f) (hle : j ≤ k) :
    Below k s f := by
  cases h with
  | zero z => exact .zero z
  | finite hpos h => exact .finite hpos (h.trans hle)

theorem Below.isNaN {k : ℤ} {s : Sign} {f : UnpackedFloat} (h : Below k s f) : f.isNaN = false := by
  cases h <;> rfl

theorem totalExponent_rounded_le (m : ℕ) (e : ℤ) (acc : Accuracy) :
    totalExponent (rounded m e acc) (e + places m e) ≤ max (totalExponent m e + 1) (-1073) := by
  obtain ⟨-, hle⟩ := rounded_bounds m e acc
  have hlog := log2_mono hle
  by_cases hzero : m / 2 ^ places m e = 0
  · have hplaces : places m e = (max (totalExponent m e - 53) (-1074) - e).toNat := rfl
    rw [hzero, show Nat.log2 (0 + 1) = 0 from rfl] at hlog
    unfold totalExponent at hplaces ⊢
    omega
  · have hexact := totalExponent_div hzero e
    have hcarry := log2_add_one_le hzero
    unfold totalExponent at hexact ⊢
    omega

theorem roundWithAccuracy_below (s : Sign) (m : ℕ) (e : ℤ) (acc : Accuracy) :
    Below (max (totalExponent m e + 1) (-1073)) s (roundWithAccuracy .binary64 s m e acc) := by
  obtain ⟨k, -, ⟨-, heq⟩ | ⟨hpos, heq⟩⟩ := roundWithAccuracy_cases s m e acc
  · rw [heq]
    exact .zero s
  · rw [heq]
    refine .finite hpos ?_
    rw [totalExponent_div hpos.ne']
    exact totalExponent_rounded_le m e acc

/-- Infinity, or a number from one on, with all its places taken. -/
inductive FromOne : UnpackedFloat → Prop where
  | infinity : FromOne (.infinity .positive)
  | finite {m : ℕ} {e : ℤ} (hpos : 0 < m) (hfull : m.log2 = 52) (hone : -52 ≤ e) :
      FromOne (.finite .positive m e hpos)

theorem roundWithAccuracy_fromOne {m : ℕ} {e : ℤ} (hlong : 52 ≤ m.log2)
    (hone : 1 ≤ totalExponent m e) (acc : Accuracy) :
    FromOne (roundWithAccuracy .binary64 .positive m e acc) := by
  have hplaces : (places m e : ℤ) = m.log2 - 52 := by
    have h : places m e = (max (totalExponent m e - 53) (-1074) - e).toNat := rfl
    unfold totalExponent at h hone
    omega
  have hfull : (m / 2 ^ places m e).log2 = 52 := by
    rw [log2_div_two_pow]
    omega
  have hne : m / 2 ^ places m e ≠ 0 := fun hzero => by
    rw [hzero] at hfull
    exact absurd hfull (by decide)
  have hexact := totalExponent_div hne e
  obtain ⟨hge, hle⟩ := rounded_bounds m e acc
  -- the rounded mantissa has 53 places, or one more if it was carried over
  have hge' := log2_mono hge
  have hle' := (log2_mono hle).trans (log2_add_one_le hne)
  obtain ⟨k, hk, hcases⟩ := roundWithAccuracy_cases .positive m e acc
  have hk' : (k : ℤ) = (rounded m e acc).log2 - 52 := by
    have h : k = (max (totalExponent (rounded m e acc) (e + places m e) - 53) (-1074) -
        (e + places m e)).toNat := hk
    unfold totalExponent at h hexact hone
    omega
  have hfull' : (rounded m e acc / 2 ^ k).log2 = 52 := by
    rw [log2_div_two_pow]
    omega
  obtain ⟨hzero, -⟩ | ⟨hpos, heq⟩ := hcases
  · rw [hzero] at hfull'
    exact absurd hfull' (by decide)
  · rw [heq]
    refine .finite hpos hfull' ?_
    unfold totalExponent at hexact hone
    omega

/-! ## Packing -/

/-- What is unpacked with some exponent below the highest one is a number: zero or a small one for
the lowest exponent, and one that takes all its places for the others. -/
theorem unpack_cases (b : BitVec Format.binary64.numBits) (hmax : unpackExponent b ≠ -1#11) :
    unpackExponent b = 0#11 ∧
      Below (-1022) (.ofBitVec (unpackSign b)) (unpack .binary64 b) ∨
    unpackExponent b ≠ 0#11 ∧ ∃ m hpos, m.log2 = 52 ∧ unpack .binary64 b =
      .finite (.ofBitVec (unpackSign b)) m ((unpackExponent b).toNat - 1075 : ℤ) hpos := by
  have hmantissa : (unpackMantissa b).toNat < 2 ^ 52 := (unpackMantissa b).isLt
  by_cases hmin : unpackExponent b = 0#11
  · refine .inl ⟨hmin, ?_⟩
    unfold unpack
    dsimp only
    rw [if_neg hmax, if_pos hmin]
    split
    · exact .zero _
    · next hne =>
      refine .finite _ ?_
      have hpos : (unpackMantissa b).toNat ≠ 0 := fun h => hne (BitVec.eq_of_toNat_eq h)
      have hlog := (Nat.log2_lt hpos).2 hmantissa
      rw [hmin]
      show _ + 1 + (((0#11).toNat : ℤ) - (1023 + 52) + 1) ≤ (-1022 : ℤ)
      simp only [BitVec.toNat_zero] at hlog ⊢
      omega
  · have hleading : (1#1 ++ unpackMantissa b).toNat = 2 ^ 52 + (unpackMantissa b).toNat := by
      rw [BitVec.toNat_append, ← Nat.shiftLeft_add_eq_or_of_lt hmantissa]
      rfl
    refine .inr ⟨hmin, (1#1 ++ unpackMantissa b).toNat, by omega, ?_, ?_⟩
    · rw [hleading, Nat.log2_eq_iff (by omega)]
      exact ⟨by omega, by omega⟩
    · unfold unpack
      dsimp only
      rw [if_neg hmax, if_neg hmin]
      rfl

theorem unpack_packComponents (s : Sign) {E : BitVec 11} (M : BitVec 52) (hmax : E ≠ -1#11) :
    E = 0#11 ∧ Below (-1022) s (unpack .binary64 (packComponents .binary64 s E M)) ∨
    E ≠ 0#11 ∧ ∃ m hpos, m.log2 = 52 ∧ unpack .binary64 (packComponents .binary64 s E M) =
      .finite s m (E.toNat - 1075 : ℤ) hpos := by
  have hcases := unpack_cases (packComponents .binary64 s E M)
    (by rw [unpackExponent_packComponents]; exact hmax)
  rw [unpackExponent_packComponents, unpackSign_packComponents, Sign.ofBitVec_toBitVec] at hcases
  exact hcases

/-- A number that does not overflow is packed with its exponent if it takes all its places, and with
the lowest one else. -/
theorem pack_finite (s : Sign) {m : ℕ} {e : ℤ} (hpos : 0 < m) (hfits : e ≤ 971) :
    ∃ E : BitVec 11, E ≠ -1#11 ∧ E.toNat = (if m.log2 = 52 then (e + 1075).toNat else 0) ∧
      pack .binary64 (.finite s m e hpos) = packComponents .binary64 s E (BitVec.ofNat 52 m) := by
  have hbiased : (e + 1023 + 52).toNat = (e + 1075).toNat := by omega
  have hpack : pack .binary64 (.finite s m e hpos) =
      if 2 ^ 11 ≤ (e + 1023 + 52).toNat + 1 then packedInfinity .binary64 s
      else if m.log2 + 1 = 53 then packComponents .binary64 s
        (BitVec.ofNat 11 (e + 1023 + 52).toNat) (BitVec.ofNat 52 m)
      else packComponents .binary64 s 0#11 (BitVec.ofNat 52 m) := rfl
  rw [hpack, hbiased, if_neg (show ¬ 2 ^ 11 ≤ (e + 1075).toNat + 1 by omega)]
  by_cases hfull : m.log2 = 52
  · have hvalue : (BitVec.ofNat 11 (e + 1075).toNat).toNat = (e + 1075).toNat := by
      rw [BitVec.toNat_ofNat, Nat.mod_eq_of_lt (by omega)]
    rw [if_pos hfull, if_pos (by omega)]
    refine ⟨_, fun hmax => ?_, hvalue, rfl⟩
    rw [hmax] at hvalue
    have htop : (-1#11).toNat = 2047 := rfl
    omega
  · rw [if_neg hfull, if_neg (by omega)]
    exact ⟨0#11, by decide, rfl, rfl⟩

/-- Packing and unpacking keeps a number below a power of two that is far from overflow. -/
theorem Below.packed {k : ℤ} {s : Sign} {f : UnpackedFloat} (h : Below k s f) (hmin : -1022 ≤ k)
    (hmax : k ≤ 900) : Below k s (unpack .binary64 (pack .binary64 f)) := by
  cases h with
  | zero z =>
    rw [show pack .binary64 (.zero z) = packedZero .binary64 z from rfl, unpack_packedZero]
    exact .zero z
  | @finite m e hpos h =>
    unfold totalExponent at h
    obtain ⟨E, hE, hvalue, hpack⟩ := pack_finite s hpos (e := e) (by omega)
    rw [hpack]
    obtain ⟨-, hsmall⟩ | ⟨-, m', hpos', hfull, heq⟩ := unpack_packComponents s _ hE
    · exact hsmall.mono hmin
    · rw [heq]
      refine .finite hpos' ?_
      unfold totalExponent
      split at hvalue <;> omega

theorem pack_overflow (s : Sign) {m : ℕ} {e : ℤ} (hpos : 0 < m) (hlarge : 971 < e) :
    pack .binary64 (.finite s m e hpos) = packedInfinity .binary64 s :=
  if_pos (show 2 ^ 11 ≤ (e + 1023 + 52).toNat + 1 by omega)

theorem unpack_packedInfinity (s : Sign) :
    unpack .binary64 (packedInfinity .binary64 s) = .infinity s := by
  cases s <;> rfl

/-- Packing and unpacking keeps what is infinity or a number from one on; what is too large becomes
infinity. -/
theorem FromOne.packed {f : UnpackedFloat} (h : FromOne f) :
    FromOne (unpack .binary64 (pack .binary64 f)) := by
  cases h with
  | infinity =>
    show FromOne (unpack .binary64 (packedInfinity .binary64 .positive))
    rw [unpack_packedInfinity]
    exact .infinity
  | @finite m e hpos hfull hone =>
    by_cases hfits : e ≤ 971
    · obtain ⟨E, hE, hvalue, hpack⟩ := pack_finite .positive hpos hfits
      rw [if_pos hfull] at hvalue
      rw [hpack]
      obtain ⟨hzero, -⟩ | ⟨-, m', hpos', hfull', heq⟩ := unpack_packComponents .positive _ hE
      · rw [hzero, BitVec.toNat_zero] at hvalue
        omega
      · rw [heq]
        exact .finite hpos' hfull' (by omega)
    · rw [pack_overflow .positive hpos (not_le.1 hfits), unpack_packedInfinity]
      exact .infinity

/-- What is unpacked takes all its places, or is tiny. -/
theorem log2_unpack {b : BitVec Format.binary64.numBits} {s : Sign} {m : ℕ} {e : ℤ} {hpos : 0 < m}
    (h : unpack .binary64 b = .finite s m e hpos) : m.log2 = 52 ∨ totalExponent m e ≤ -1022 := by
  by_cases hmax : unpackExponent b = -1#11
  · unfold unpack at h
    dsimp only at h
    rw [if_pos hmax] at h
    split at h <;> cases h
  · obtain ⟨-, hsmall⟩ | ⟨-, m', hpos', hfull, heq⟩ := unpack_cases b hmax
    · rw [h] at hsmall
      cases hsmall with
      | finite _ hle => exact .inr hle
    · rw [h] at heq
      cases heq
      exact .inl hfull

theorem isNaN_packed {f : UnpackedFloat} (h : f.isNaN = false) :
    (unpack .binary64 (pack .binary64 f)).isNaN = false := by
  cases f with
  | notANumber => cases h
  | infinity s =>
    show (unpack .binary64 (packedInfinity .binary64 s)).isNaN = false
    rw [unpack_packedInfinity]
    rfl
  | zero z =>
    show (unpack .binary64 (packedZero .binary64 z)).isNaN = false
    rw [unpack_packedZero]
    rfl
  | finite s m e hpos =>
    by_cases hfits : e ≤ 971
    · obtain ⟨E, hE, -, hpack⟩ := pack_finite s hpos hfits
      rw [hpack]
      obtain ⟨-, hsmall⟩ | ⟨-, m', hpos', -, heq⟩ := unpack_packComponents s _ hE
      · exact hsmall.isNaN
      · rw [heq]
        rfl
    · rw [pack_overflow s hpos (not_le.1 hfits), unpack_packedInfinity]
      rfl

/-! ## The operations -/

/-- A mantissa brought to a lower exponent. -/
def aligned (m : ℕ) (e t : ℤ) : ℕ := m * 2 ^ (e - t).toNat

theorem decreaseExponent_eq (m : ℕ) (e t : ℤ) :
    decreaseExponent m e t = (aligned m e t, min e t) := by
  refine Prod.ext (Nat.shiftLeft_eq ..) ?_
  show e - (e - t).toNat = min e t
  omega

theorem aligned_ne_zero {m : ℕ} (h : m ≠ 0) (e t : ℤ) : aligned m e t ≠ 0 := by
  unfold aligned
  positivity

theorem aligned_of_le {m : ℕ} {e t : ℤ} (h : e ≤ t) : aligned m e t = m := by
  rw [aligned, Int.toNat_of_nonpos (by omega), pow_zero, mul_one]

theorem totalExponent_aligned {m : ℕ} (h : m ≠ 0) (e t : ℤ) :
    totalExponent (aligned m e t) (min e t) = totalExponent m e := by
  unfold totalExponent aligned
  rw [log2_mul_two_pow h]
  omega

theorem round_eq (s : Sign) (m : ℕ) (e : ℤ) :
    UnpackedFloat.round .binary64 s m e =
      roundWithAccuracy .binary64 s
        (aligned m e (Format.binary64.targetExponent (totalExponent m e)))
        (min e (Format.binary64.targetExponent (totalExponent m e))) .exact := by
  unfold UnpackedFloat.round
  dsimp only
  rw [decreaseExponent_eq]

theorem round_below (s : Sign) {m : ℕ} (h : m ≠ 0) (e : ℤ) :
    Below (max (totalExponent m e + 1) (-1073)) s (UnpackedFloat.round .binary64 s m e) := by
  have hbelow := roundWithAccuracy_below s
    (aligned m e (Format.binary64.targetExponent (totalExponent m e)))
    (min e (Format.binary64.targetExponent (totalExponent m e))) .exact
  rw [totalExponent_aligned h] at hbelow
  rw [round_eq]
  exact hbelow

theorem round_fromOne {m : ℕ} (h : m ≠ 0) {e : ℤ} (hone : 1 ≤ totalExponent m e) :
    FromOne (UnpackedFloat.round .binary64 .positive m e) := by
  rw [round_eq]
  refine roundWithAccuracy_fromOne ?_ (hone.trans_eq (totalExponent_aligned h e _).symm) .exact
  rw [aligned, log2_mul_two_pow h, targetExponent_eq]
  unfold totalExponent at hone ⊢
  omega

theorem normalize_of_pos {n : ℕ} (h : n ≠ 0) (e : ℤ) :
    UnpackedFloat.normalize .binary64 n e .positive =
      UnpackedFloat.round .binary64 .positive n e := by
  have hgt : compare (n : ℤ) 0 = .gt := Int.compare_eq_gt.2 (by omega)
  unfold UnpackedFloat.normalize
  rw [hgt]
  rfl

theorem normalize_below (n e : ℤ) : ∃ s, Below (max (totalExponent n.natAbs e + 1) (-1073)) s
    (UnpackedFloat.normalize .binary64 n e .positive) := by
  unfold UnpackedFloat.normalize
  split
  · next hlt =>
    have hneg := Int.compare_eq_lt.1 hlt
    rw [show (-n).toNat = n.natAbs by omega]
    exact ⟨.negative, round_below .negative (by omega) e⟩
  · exact ⟨.positive, .zero _⟩
  · next hgt =>
    have hpos := Int.compare_eq_gt.1 hgt
    rw [show n.toNat = n.natAbs by omega]
    exact ⟨.positive, round_below .positive (by omega) e⟩

/-! ## Sums and differences -/

theorem add_finite {m₁ m₂ : ℕ} (h₁ : 0 < m₁) (h₂ : 0 < m₂) (e₁ e₂ : ℤ) :
    add .binary64 (.finite .positive m₁ e₁ h₁) (.finite .positive m₂ e₂ h₂) =
      UnpackedFloat.round .binary64 .positive
        (aligned m₁ e₁ (min e₁ e₂) + aligned m₂ e₂ (min e₁ e₂)) (min e₁ e₂) := by
  have hne := aligned_ne_zero h₁.ne' e₁ (min e₁ e₂)
  rw [← normalize_of_pos (by omega), Nat.cast_add]
  unfold add
  dsimp only
  rw [decreaseExponent_eq, decreaseExponent_eq]
  rfl

theorem sub_finite {m₁ m₂ : ℕ} (h₁ : 0 < m₁) (h₂ : 0 < m₂) (e₁ e₂ : ℤ) :
    sub .binary64 (.finite .positive m₁ e₁ h₁) (.finite .positive m₂ e₂ h₂) =
      UnpackedFloat.normalize .binary64
        (aligned m₁ e₁ (min e₁ e₂) - aligned m₂ e₂ (min e₁ e₂)) (min e₁ e₂) .positive := by
  unfold sub
  dsimp only
  rw [decreaseExponent_eq, decreaseExponent_eq]
  rfl

theorem totalExponent_aligned_left {m : ℕ} (e₁ e₂ : ℤ) (h : 0 < m) :
    totalExponent (aligned m e₁ (min e₁ e₂)) (min e₁ e₂) = totalExponent m e₁ := by
  have htotal := totalExponent_aligned h.ne' e₁ (min e₁ e₂)
  rwa [← min_assoc, min_self] at htotal

theorem totalExponent_aligned_right {m : ℕ} (e₁ e₂ : ℤ) (h : 0 < m) :
    totalExponent (aligned m e₂ (min e₁ e₂)) (min e₁ e₂) = totalExponent m e₂ := by
  rw [min_comm]
  exact totalExponent_aligned_left e₂ e₁ h

theorem add_below {j k : ℤ} {f g : UnpackedFloat} (hf : Below j .positive f)
    (hg : Below k .positive g) :
    Below (max (max j k + 2) (-1073)) .positive (add .binary64 f g) := by
  cases hf with
  | zero z =>
    cases hg with
    | zero z' => cases z <;> cases z' <;> exact .zero _
    | finite hpos h => exact .finite hpos (by omega)
  | @finite m₁ e₁ hpos₁ h₁ =>
    cases hg with
    | zero z => exact .finite hpos₁ (by omega)
    | @finite m₂ e₂ hpos₂ h₂ =>
      have hne₁ := aligned_ne_zero hpos₁.ne' e₁ (min e₁ e₂)
      have hne₂ := aligned_ne_zero hpos₂.ne' e₂ (min e₁ e₂)
      have ht₁ := totalExponent_aligned_left e₁ e₂ hpos₁
      have ht₂ := totalExponent_aligned_right e₁ e₂ hpos₂
      have hlog := log2_add_le hne₁ hne₂
      rw [add_finite]
      refine (round_below .positive (by omega) _).mono ?_
      unfold totalExponent at *
      omega

theorem sub_below {k : ℤ} {f g : UnpackedFloat} (hf : Below k .positive f)
    (hg : Below k .positive g) : ∃ s, Below (max (k + 1) (-1073)) s (sub .binary64 f g) := by
  cases hf with
  | zero z =>
    cases hg with
    | zero z' => cases z <;> cases z' <;> exact ⟨.positive, .zero _⟩
    | finite hpos h => exact ⟨.negative, .finite hpos (by omega)⟩
  | @finite m₁ e₁ hpos₁ h₁ =>
    cases hg with
    | zero z => exact ⟨.positive, .finite hpos₁ (by omega)⟩
    | @finite m₂ e₂ hpos₂ h₂ =>
      have ht₁ := totalExponent_aligned_left e₁ e₂ hpos₁
      have ht₂ := totalExponent_aligned_right e₁ e₂ hpos₂
      obtain ⟨s, hbelow⟩ := normalize_below
        (aligned m₁ e₁ (min e₁ e₂) - aligned m₂ e₂ (min e₁ e₂)) (min e₁ e₂)
      rw [sub_finite]
      refine ⟨s, hbelow.mono ?_⟩
      have hlog := log2_mono (show ((aligned m₁ e₁ (min e₁ e₂) : ℤ) -
        aligned m₂ e₂ (min e₁ e₂)).natAbs ≤
          max (aligned m₁ e₁ (min e₁ e₂)) (aligned m₂ e₂ (min e₁ e₂)) by omega)
      rcases max_choice (aligned m₁ e₁ (min e₁ e₂)) (aligned m₂ e₂ (min e₁ e₂)) with hmax | hmax <;>
        rw [hmax] at hlog <;> unfold totalExponent at * <;> omega

theorem add_fromOne {f g : UnpackedFloat} (hf : FromOne f) (hg : g = .zero .positive ∨ FromOne g) :
    FromOne (add .binary64 f g) := by
  cases hf with
  | infinity => obtain rfl | ⟨_ | _⟩ := hg <;> exact .infinity
  | @finite m₁ e₁ hpos₁ hfull₁ hone₁ =>
    obtain rfl | hg := hg
    · exact .finite hpos₁ hfull₁ hone₁
    cases hg with
    | infinity => exact .infinity
    | @finite m₂ e₂ hpos₂ hfull₂ hone₂ =>
      have hne := aligned_ne_zero hpos₁.ne' e₁ (min e₁ e₂)
      have ht := totalExponent_aligned_left e₁ e₂ hpos₁
      have hlog := log2_mono (show aligned m₁ e₁ (min e₁ e₂) ≤
        aligned m₁ e₁ (min e₁ e₂) + aligned m₂ e₂ (min e₁ e₂) by omega)
      rw [add_finite]
      refine round_fromOne (by omega) ?_
      unfold totalExponent at *
      omega

/-- A mantissa is cut where the first place to go is zero. -/
theorem rounded_of_even {M m n : ℕ} {e : ℤ} (hplaces : places M e = n + 1)
    (heven : M / 2 ^ n = 2 * m) : rounded M e .exact = m := by
  have hbit : (ExtendedMantissa.ofMantissaAndAccuracy M .exact >>> (n + 1)).roundBit = false := by
    rw [roundBit_shiftRight_succ, mantissa_ofMantissaAndAccuracy, heven, Nat.mul_mod_right]
    rfl
  rw [rounded, hplaces, roundedMantissa_of_roundBit hbit, mantissa_shiftRight,
    mantissa_ofMantissaAndAccuracy, pow_succ, ← Nat.div_div_eq_div_mul, heven,
    Nat.mul_div_cancel_left m two_pos]

/-- A number whose first place to go is zero is rounded down. -/
theorem round_down_below {M m n : ℕ} {e k : ℤ} (heven : M / 2 ^ n = 2 * m) (hfull : m.log2 = 52)
    (hmin : -1074 ≤ e + n + 1) (hk : totalExponent m (e + n + 1) ≤ k) :
    Below k .positive (UnpackedFloat.round .binary64 .positive M e) := by
  have hm : m ≠ 0 := fun hzero => by
    rw [hzero] at hfull
    exact absurd hfull (by decide)
  have hlog : M.log2 = n + 53 := by
    have hquot := log2_div_two_pow M n
    have htwice := log2_mul_two_pow hm 1
    rw [heven, mul_comm 2 m] at hquot
    rw [pow_one] at htwice
    omega
  have htarget : Format.binary64.targetExponent (totalExponent M e) = e + n + 1 := by
    rw [targetExponent_eq]
    unfold totalExponent
    omega
  have hplaces : places M e = n + 1 := by
    unfold places
    rw [htarget]
    omega
  have hround : UnpackedFloat.round .binary64 .positive M e =
      roundWithAccuracy .binary64 .positive M e .exact := by
    rw [round_eq, htarget, aligned_of_le (by omega), min_eq_left (by omega)]
  rw [hround]
  obtain ⟨j, -, ⟨-, heq⟩ | ⟨hpos, heq⟩⟩ := roundWithAccuracy_cases .positive M e .exact
  · rw [heq]
    exact .zero _
  · rw [heq]
    refine .finite hpos ?_
    rw [totalExponent_div hpos.ne', rounded_of_even hplaces heven, hplaces, Nat.cast_succ,
      ← add_assoc]
    exact hk

/-- A large number does not grow when a small one is added. -/
theorem add_absorbs {m : ℕ} {e k : ℤ} {g : UnpackedFloat} (hpos : 0 < m) (hfull : m.log2 = 52)
    (hlarge : 6 ≤ e) (hk : totalExponent m e ≤ k) (hg : Below 2 .positive g) :
    Below k .positive (add .binary64 (.finite .positive m e hpos) g) := by
  cases hg with
  | zero z => exact .finite hpos hk
  | @finite m₂ e₂ hpos₂ hsmall =>
    unfold totalExponent at hsmall
    obtain ⟨n, hn⟩ : ∃ n : ℕ, e₂ + n + 1 = e := ⟨(e - e₂ - 1).toNat, by omega⟩
    -- the small number is less than half of the last place of the large one
    have hhalf : m₂ < 2 ^ n := by
      rw [← Nat.log2_lt hpos₂.ne']
      omega
    have heven : (aligned m e e₂ + m₂) / 2 ^ n = 2 * m := by
      have hshift : (e - e₂).toNat = n + 1 := by omega
      rw [aligned, hshift, pow_succ', ← mul_assoc, mul_comm m 2, add_comm,
        Nat.add_mul_div_right _ _ (Nat.two_pow_pos n), Nat.div_eq_of_lt hhalf, zero_add]
    rw [add_finite, min_eq_right (by omega), aligned_of_le le_rfl]
    refine round_down_below heven hfull (by omega) ?_
    rw [hn]
    exact hk

/-- Small steps do not take a sum beyond a large power of two. -/
theorem add_bounded {b : BitVec Format.binary64.numBits} {g : UnpackedFloat}
    (hf : Below 60 .positive (unpack .binary64 b)) (hg : Below 2 .positive g) :
    Below 60 .positive (add .binary64 (unpack .binary64 b) g) := by
  generalize hunpack : unpack .binary64 b = f at hf
  cases hf with
  | zero z => exact (add_below (.zero (k := 2) z) hg).mono (by decide)
  | @finite m e hpos hle =>
    rcases log2_unpack hunpack with hfull | htiny
    · -- from here on a step is less than half of the last place
      by_cases hlarge : 6 ≤ e
      · exact add_absorbs hpos hfull hlarge hle hg
      · refine (add_below (.finite (k := 58) hpos ?_) hg).mono (by decide)
        unfold totalExponent
        omega
    · exact (add_below (.finite (k := 58) hpos (by omega)) hg).mono (by decide)

/-! ## Products and quotients -/

theorem div_below {j : ℤ} {f g : UnpackedFloat} (hf : Below j .positive f) (hg : FromOne g) :
    Below (max (j + 1) (-1072)) .positive (div .binary64 f g) := by
  cases hf with
  | zero z => cases hg <;> exact .zero _
  | @finite m₁ e₁ hpos₁ h₁ =>
    cases hg with
    | infinity => exact .zero _
    | @finite m₂ e₂ hpos₂ hfull hone =>
      have hdiv : div .binary64 (.finite .positive m₁ e₁ hpos₁) (.finite .positive m₂ e₂ hpos₂) =
          roundWithAccuracy .binary64 .positive (divCore .binary64 m₁ e₁ m₂ e₂).1
            (divCore .binary64 m₁ e₁ m₂ e₂).2.1 (divCore .binary64 m₁ e₁ m₂ e₂).2.2 := rfl
      rw [hdiv]
      refine (roundWithAccuracy_below _ _ _ _).mono ?_
      obtain ⟨t, ht⟩ : ∃ t, t = min (e₁ - e₂)
        (max (totalExponent m₁ e₁ - totalExponent m₂ e₂ - 53) (-1074)) := ⟨_, rfl⟩
      have hquot : (divCore .binary64 m₁ e₁ m₂ e₂).1 = m₁ <<< (e₁ - e₂ - t).toNat / m₂ := by
        rw [ht]
        rfl
      have hexponent : (divCore .binary64 m₁ e₁ m₂ e₂).2.1 = t := ht.symm
      -- the divisor has 53 places, so the quotient has 52 fewer than the dividend, or one more
      have hlog : (m₁ <<< (e₁ - e₂ - t).toNat / m₂).log2 ≤ m₁.log2 + (e₁ - e₂ - t).toNat - 52 := by
        rw [Nat.shiftLeft_eq, ← log2_mul_two_pow hpos₁.ne', ← log2_div_two_pow]
        exact log2_mono (Nat.div_le_div_left ((Nat.le_log2 hpos₂.ne').1 hfull.ge) (by positivity))
      rw [hquot, hexponent]
      unfold totalExponent at *
      omega

theorem mul_fromOne {f g : UnpackedFloat} (hf : FromOne f) (hg : FromOne g) :
    FromOne (mul .binary64 f g) := by
  cases hf with
  | infinity => cases hg <;> exact .infinity
  | @finite m₁ e₁ hpos₁ hfull₁ hone₁ =>
    cases hg with
    | infinity => exact .infinity
    | @finite m₂ e₂ hpos₂ hfull₂ hone₂ =>
      have hlog : 104 ≤ (m₁ * m₂).log2 := by
        rw [Nat.le_log2 (Nat.mul_pos hpos₁ hpos₂).ne']
        have h₁ := (Nat.le_log2 hpos₁.ne').1 hfull₁.ge
        have h₂ := (Nat.le_log2 hpos₂.ne').1 hfull₂.ge
        calc 2 ^ 104 = 2 ^ 52 * 2 ^ 52 := by norm_num
          _ ≤ m₁ * m₂ := Nat.mul_le_mul h₁ h₂
      refine roundWithAccuracy_fromOne (by omega) ?_ .exact
      unfold totalExponent
      omega

theorem isNaN_mul {j k : ℤ} {s z : Sign} {f g : UnpackedFloat} (hf : Below j s f)
    (hg : Below k z g) : (mul .binary64 f g).isNaN = false := by
  cases hf <;> cases hg
  case finite.finite => exact (roundWithAccuracy_below _ _ _ _).isNaN
  all_goals rfl

theorem zero_mul_below {k : ℤ} {s : Sign} {f : UnpackedFloat} (z : Sign) (hf : Below k s f) :
    ∃ z', mul .binary64 (.zero z) f = .zero z' := by
  cases hf <;> exact ⟨_, rfl⟩

theorem isNaN_add {k : ℤ} {s : Sign} {f g : UnpackedFloat} (hf : Below k s f)
    (hg : g.isNaN = false) : (add .binary64 f g).isNaN = false := by
  cases hf with
  | zero z =>
    cases g with
    | notANumber => cases hg
    | infinity s => rfl
    | zero z' => cases z <;> cases z' <;> rfl
    | finite s m e hpos => rfl
  | finite hpos h =>
    cases g with
    | notANumber => cases hg
    | infinity s => rfl
    | zero z' => rfl
    | finite s m e hpos =>
      obtain ⟨s, hbelow⟩ := normalize_below _ _
      exact hbelow.isNaN


/-! ## Floats -/

theorem unpack_add (x y : Float) : (x + y).toModel.unpack =
    unpack .binary64 (pack .binary64 (add .binary64 x.toModel.unpack y.toModel.unpack)) := rfl

theorem unpack_sub (x y : Float) : (x - y).toModel.unpack =
    unpack .binary64 (pack .binary64 (sub .binary64 x.toModel.unpack y.toModel.unpack)) := rfl

theorem unpack_mul (x y : Float) : (x * y).toModel.unpack =
    unpack .binary64 (pack .binary64 (mul .binary64 x.toModel.unpack y.toModel.unpack)) := rfl

theorem unpack_div (x y : Float) : (x / y).toModel.unpack =
    unpack .binary64 (pack .binary64 (div .binary64 x.toModel.unpack y.toModel.unpack)) := rfl

theorem unpack_ofNat_zero : (Float.ofNat 0).toModel.unpack = .zero .positive := rfl

theorem unpack_ofNat_one : (Float.ofNat 1).toModel.unpack =
    .finite .positive (2 ^ 52) (-52) (Nat.two_pow_pos 52) := rfl

theorem one_below : Below 1 .positive (Float.ofNat 1).toModel.unpack := by
  rw [unpack_ofNat_one]
  exact .finite _ (by decide +kernel)

theorem ofNat_of_lt {n : ℕ} (h : n < 2 ^ 53) :
    Float.ofNat n = n.toUInt64.toFloat * Float.ofNat 1 :=
  dif_pos (show n < 2 ^ 53 ∧ 0 ≤ 22 from ⟨h, by decide⟩)

theorem ofNat_of_le {n : ℕ} (h : 2 ^ 53 ≤ n) :
    Float.ofNat n = ⟨Float.Model.ofScientific n 0⟩ :=
  dif_neg (show ¬ (n < 2 ^ 53 ∧ 0 ≤ 22) from fun hsmall => absurd hsmall.1 (not_lt.2 h))

theorem ofScientific_of_ne_zero {n : ℕ} (h : n ≠ 0) : ofScientific .binary64 n 0 =
    roundWithAccuracy .binary64 .positive (n <<< 53 * 1) (-53) .exact := by
  unfold ofScientific
  rw [dif_neg h, if_neg (by decide), if_neg (show ¬ (0 : ℤ) < -(2 ^ 11 + n.log2) by omega),
    if_pos le_rfl]
  rfl

/-- A natural number but zero is a number from one on, or too large. -/
theorem ofNat_fromOne {n : ℕ} (h : n ≠ 0) : FromOne (Float.ofNat n).toModel.unpack := by
  rcases Nat.lt_or_ge n (2 ^ 53) with hsmall | hlarge
  · have hone : FromOne (Float.ofNat 1).toModel.unpack := by
      rw [unpack_ofNat_one]
      exact .finite _ Nat.log2_two_pow le_rfl
    have hvalue : n.toUInt64.toNat = n := UInt64.toNat_ofNat_of_lt (hsmall.trans (by decide))
    have hconverted : n.toUInt64.toFloat.toModel.unpack = unpack .binary64 (pack .binary64
        (UnpackedFloat.normalize .binary64 n.toUInt64.toNat 0 .positive)) := rfl
    rw [ofNat_of_lt hsmall, unpack_mul, hconverted, hvalue, normalize_of_pos h]
    refine (mul_fromOne (round_fromOne h ?_).packed hone).packed
    unfold totalExponent
    omega
  · have hconverted : (Float.ofNat n).toModel.unpack =
        unpack .binary64 (pack .binary64 (ofScientific .binary64 n 0)) := by
      rw [ofNat_of_le hlarge]
      rfl
    rw [hconverted, ofScientific_of_ne_zero h]
    have hlog : (n <<< 53 * 1).log2 = n.log2 + 53 := by
      rw [mul_one, Nat.shiftLeft_eq, log2_mul_two_pow h]
    refine (roundWithAccuracy_fromOne (by omega) ?_ .exact).packed
    unfold totalExponent
    omega

end ClipLedger.Binary64
