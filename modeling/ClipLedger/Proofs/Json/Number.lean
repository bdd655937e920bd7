import ClipLedger.Json.Number
import ClipLedger.Proofs.Json.Token

/-
  Binary64 numbers are written as numbers of JSON (`numbersAll_ofFloat`). The digits that are laid
  out never are zero (`shortest_ne_zero`), so no zero leads but one that stands alone.
-/
namespace ClipLedger

namespace Json

/-! ## The grammar of numbers -/

/-- `t` consists of digits, one at least. -/
def Digits (t : Text) : Prop := t ≠ [] ∧ ∀ c ∈ t, c.isDigit = true

/-- `t` can be the whole part of a number: `Digits` without a leading zero, but for `0` itself. -/
def Whole (t : Text) : Prop := Digits t ∧ (t.head? = some '0' → t = ['0'])

/-- `t` does not begin with a digit. -/
def NoDigit (t : Text) : Prop := ∀ c ∈ t.head?, c.isDigit = false

theorem someDigits?_append {t r : Text} (ht : Digits t) (hr : NoDigit r) :
    someDigits? (t ++ r) = some r := by
  obtain ⟨hne, hd⟩ := ht
  cases t with
  | nil => exact absurd rfl hne
  | cons c t =>
    have hdrop := (takeWhile_append_ends (fun d h => hd d (List.mem_cons_of_mem c h)) hr).2
    rw [List.cons_append, someDigits?, if_pos (hd c List.mem_cons_self), hdrop]

theorem someDigits?_digits {t : Text} (ht : Digits t) : someDigits? t = some [] := by
  have h := someDigits?_append (r := []) ht (by intro c hc; cases hc)
  rwa [List.append_nil] at h

theorem isExponent_signed {t : Text} (ht : Digits t) :
    isExponent ('e' :: '-' :: t) = true ∧ isExponent ('e' :: '+' :: t) = true := by
  have h := someDigits?_digits ht
  constructor <;> simp [isExponent, h]

theorem isFraction_point {t rest : Text} (ht : Digits t) (hr : NoDigit rest)
    (he : isExponent rest = true) : isFraction ('.' :: (t ++ rest)) = true := by
  rw [isFraction, someDigits?_append ht hr]
  exact he

theorem isNumber_append {t r : Text} (ht : Whole t) (hr : NoDigit r) (hf : isFraction r = true) :
    isNumber (t ++ r) = true ∧ isNumber ('-' :: (t ++ r)) = true := by
  obtain ⟨⟨hne, hd⟩, hz⟩ := ht
  cases t with
  | nil => exact absurd rfl hne
  | cons c t =>
    by_cases hc : c = '0'
    · subst hc
      cases hz rfl
      exact ⟨hf, hf⟩
    · have hdrop := (takeWhile_append_ends (fun d h => hd d (List.mem_cons_of_mem c h)) hr).2
      have hm : c ≠ '-' := by
        rintro rfl
        exact absurd (hd '-' List.mem_cons_self) (by decide)
      have hdigit := hd c List.mem_cons_self
      simp [isNumber, hm, hdigit, hdrop, hf]

/-! ## Decimal digits -/

theorem digits_toDigits (n : Nat) : Digits (Nat.toDigits 10 n) :=
  ⟨Nat.toDigits_ne_nil, fun _ h => Nat.isDigit_of_mem_toDigits (by decide) (by decide) h⟩

theorem head?_toDigits {n : Nat} (h : n ≠ 0) : (Nat.toDigits 10 n).head? ≠ some '0' := by
  induction n using Nat.strongRecOn with
  | ind n ih =>
    rw [Nat.toDigits_eq_if (by decide)]
    split
    · next hlt =>
      have hall : ∀ k < 10, k ≠ 0 → [Nat.digitChar k].head? ≠ some '0' := by decide
      exact hall n hlt h
    · have hi := ih (n / 10) (by omega) (by omega)
      cases hd : Nat.toDigits 10 (n / 10) with
      | nil => exact absurd hd Nat.toDigits_ne_nil
      | cons c t =>
        rw [hd] at hi
        exact hi

theorem whole_toDigits (n : Nat) : Whole (Nat.toDigits 10 n) := by
  refine ⟨digits_toDigits n, fun h => ?_⟩
  by_cases hn : n = 0
  · rw [hn]
    rfl
  · exact absurd h (head?_toDigits hn)

theorem isNumber_ofNat (n : Nat) : isNumber (Text.ofNat n) = true := by
  have h := (isNumber_append (r := []) (whole_toDigits n) (by intro c hc; cases hc) rfl).1
  rwa [List.append_nil] at h

end Json

namespace Decimal

open Json

theorem noDigit_cons {c : Char} {t : Text} (h : c.isDigit = false) : NoDigit (c :: t) := by
  intro d hd
  cases hd
  exact h

theorem digits_append {s t : Text} (hs : Digits s) (ht : ∀ c ∈ t, c.isDigit = true) :
    Digits (s ++ t) := by
  refine ⟨List.append_ne_nil_of_left_ne_nil hs.1 t, fun c hc => ?_⟩
  rcases List.mem_append.1 hc with h | h
  · exact hs.2 c h
  · exact ht c h

theorem digits_replicate (n : Nat) : ∀ c ∈ List.replicate n '0', c.isDigit = true := by
  intro c hc
  rw [List.eq_of_mem_replicate hc]
  decide

/-- `t` is a `Whole` part and what `isFraction` allows behind it, so that it is a number with a sign
and without. -/
def Split (t : Text) : Prop := ∃ w f, t = w ++ f ∧ Whole w ∧ NoDigit f ∧ isFraction f = true

theorem Split.isNumber {t : Text} (h : Split t) (negative : Bool) :
    isNumber (signed negative t) = true := by
  obtain ⟨w, f, hl, hw, hf, hfr⟩ := h
  have hn := isNumber_append hw hf hfr
  rw [hl]
  cases negative
  · exact hn.1
  · exact hn.2

theorem Split.of_point {w f : Text} (hw : Whole w) (hf : Digits f) : Split (w ++ '.' :: f) := by
  refine ⟨w, '.' :: f, rfl, hw, noDigit_cons (by decide), ?_⟩
  have h : isFraction ('.' :: (f ++ [])) = true :=
    isFraction_point hf (by intro c hc; cases hc) rfl
  rwa [List.append_nil] at h

theorem isFraction_signed {x : Text} {lead : Int}
    (hx : x = if lead < 0 then '-' :: Text.ofNat lead.natAbs else '+' :: Text.ofNat lead.natAbs) :
    isExponent ('e' :: x) = true := by
  have h := isExponent_signed (digits_toDigits lead.natAbs)
  rw [hx]
  split
  · exact h.1
  · exact h.2

/-- One digit, or a digit with a point and the others behind it, followed by an exponent. -/
theorem Split.of_exponent {c : Char} {rest x : Text} (hd : Digits (c :: rest)) (h0 : c ≠ '0')
    (hx : isExponent ('e' :: x) = true) :
    Split ((match c :: rest with
      | [d] => [d]
      | d :: rest => d :: '.' :: rest
      | [] => []) ++ 'e' :: x) := by
  have hc : Whole [c] := by
    refine ⟨⟨List.cons_ne_nil _ _, fun d h => hd.2 d (List.mem_of_mem_head? ?_)⟩, fun h => ?_⟩
    · rw [List.mem_singleton.1 h]
      rfl
    · exact absurd (Option.some.inj h) h0
  have he : NoDigit ('e' :: x) := noDigit_cons (by decide)
  cases rest with
  | nil => exact ⟨[c], 'e' :: x, rfl, hc, he, hx⟩
  | cons d rest =>
    have hrest : Digits (d :: rest) :=
      ⟨List.cons_ne_nil _ _, fun b h => hd.2 b (List.mem_cons_of_mem c h)⟩
    exact ⟨[c], '.' :: (d :: rest ++ 'e' :: x), rfl, hc, noDigit_cons (by decide),
      isFraction_point hrest he hx⟩

theorem whole_append {s t : Text} (hs : Digits s) (h0 : s.head? ≠ some '0')
    (ht : ∀ c ∈ t, c.isDigit = true) : Whole (s ++ t) := by
  refine ⟨digits_append hs ht, fun h => absurd ?_ h0⟩
  cases s with
  | nil => exact absurd rfl hs.1
  | cons c s => exact h

/-- What `layout` writes for a number that is not zero is a number of JSON. -/
theorem isNumber_layout {n : Nat} (hn : n ≠ 0) (e : Int) (negative : Bool) :
    isNumber (signed negative (layout n e)) = true := by
  have hd := digits_toDigits n
  have hhead := head?_toDigits hn
  refine Split.isNumber ?_ negative
  unfold layout
  dsimp only
  split
  · have hzeros := digits_replicate (-(e + (Nat.toDigits 10 n).length - 1) - 1).toNat
    refine Split.of_point (w := ['0']) (whole_toDigits 0) ?_
    cases hz : List.replicate (-(e + (Nat.toDigits 10 n).length - 1) - 1).toNat '0' with
    | nil => exact hd
    | cons c zs =>
      exact digits_append ⟨List.cons_ne_nil _ _, hz ▸ hzeros⟩ hd.2
  split
  · next hlead =>
    split
    · exact Split.of_point (f := ['0']) (whole_append hd hhead (digits_replicate _))
        (digits_toDigits 0)
    · next he =>
      -- the point falls between two digits
      generalize hw : (e + (Nat.toDigits 10 n).length - 1 + 1).toNat = whole
      have htake : (Nat.toDigits 10 n).take whole ≠ [] := by
        rw [Ne, List.take_eq_nil_iff]
        rintro (h | h)
        · omega
        · exact hd.1 h
      have hdrop : (Nat.toDigits 10 n).drop whole ≠ [] := by
        rw [Ne, List.drop_eq_nil_iff]
        omega
      refine Split.of_point ⟨⟨htake, fun c h => hd.2 c (List.mem_of_mem_take h)⟩, fun h => ?_⟩
        ⟨hdrop, fun c h => hd.2 c (List.mem_of_mem_drop h)⟩
      rw [List.head?_take, if_neg (by omega)] at h
      exact absurd h hhead
  · cases hdig : Nat.toDigits 10 n with
    | nil => exact absurd hdig hd.1
    | cons c rest =>
      refine Split.of_exponent (hdig ▸ hd) ?_ (isFraction_signed rfl)
      rintro rfl
      rw [hdig] at hhead
      exact hhead rfl

/-! ## The shortest digits are not zero -/

theorem onGrid?_ne_zero {x : Fraction} {i : Interval} {e : Int} {d : Nat}
    (hi : i.holds (.ofScaled 0 e) = false) (h : onGrid? x i e = some d) : d ≠ 0 := by
  have hn : i.holds (.ofScaled (x.floorAt e) e) = true → x.floorAt e ≠ 0 := by
    intro hh hz
    rw [hz, hi] at hh
    exact absurd hh (by decide)
  rw [onGrid?.eq_def] at h
  dsimp only at h
  split at h
  · next hh _ =>
    cases h
    split
    · exact hn hh
    · exact Nat.succ_ne_zero _
  · next hh _ =>
    cases h
    exact hn hh
  · cases h
    exact Nat.succ_ne_zero _
  · cases h

theorem search_ne_zero {x : Fraction} {i : Interval}
    (hi : ∀ e, i.holds (.ofScaled 0 e) = false) (n : Nat) (e : Int)
    (h : x.floorAt (e - n) ≠ 0) : (search x i n e).1 ≠ 0 := by
  induction n generalizing e with
  | zero => exact (Int.sub_zero e) ▸ h
  | succ n ih =>
    rw [search]
    split
    · next hd => exact onGrid?_ne_zero (hi e) hd
    · refine ih (e - 1) ?_
      rwa [show e - 1 - (n : Int) = e - (n + 1 : Nat) by omega]

theorem withoutZeros_ne_zero (fuel : Nat) {d : Nat × Int} (h : d.1 ≠ 0) :
    (withoutZeros fuel d).1 ≠ 0 := by
  induction fuel generalizing d with
  | zero => exact h
  | succ fuel ih =>
    obtain ⟨n, e⟩ := d
    rw [withoutZeros]
    split
    · exact ih (show n / 10 ≠ 0 by omega)
    · exact h

/-- Zero is in no interval that lies above it. -/
theorem Interval.not_holds_zero {i : Interval} (h : 0 < i.low.num) (e : Int) :
    i.holds (.ofScaled 0 e) = false := by
  have hnum : (Fraction.ofScaled 0 e).num = 0 := by
    rw [Fraction.ofScaled]
    split
    · exact Nat.zero_mul _
    · rfl
  have hden : 0 < (Fraction.ofScaled 0 e).den := by
    rw [Fraction.ofScaled]
    split
    · exact Nat.one_pos
    · exact Nat.pow_pos (by decide)
  have hpos := Nat.mul_pos h hden
  rw [Interval.holds]
  split
  · have : (Fraction.ofScaled 0 e).less i.low = true := by
      rw [Fraction.less, hnum, Nat.zero_mul]
      exact decide_eq_true hpos
    rw [this]
    rfl
  · have : i.low.less (Fraction.ofScaled 0 e) = false := by
      rw [Fraction.less, hnum, Nat.zero_mul]
      exact decide_eq_false (Nat.not_lt_zero _)
    rw [this]
    rfl

theorem Fraction.ofBinary_pos {n : Nat} (h : 0 < n) (e : Int) :
    0 < (Fraction.ofBinary n e).num ∧ 0 < (Fraction.ofBinary n e).den := by
  rw [Fraction.ofBinary]
  split
  · exact ⟨Nat.mul_pos h (Nat.pow_pos (by decide)), Nat.one_pos⟩
  · exact ⟨h, Nat.pow_pos (by decide)⟩

theorem pow_le_of_toDigits {n : Nat} (h : 0 < n) :
    Nat.pow 10 ((Nat.toDigits 10 n).length - 1) ≤ n := by
  refine Nat.le_of_not_lt fun hlt => ?_
  change n < 10 ^ _ at hlt
  have hlen : 0 < (Nat.toDigits 10 n).length := Nat.length_toDigits_pos
  by_cases h1 : (Nat.toDigits 10 n).length - 1 = 0
  · rw [h1, Nat.pow_zero] at hlt
    omega
  · have := (Nat.length_toDigits_le_iff (by decide) (by omega)).2 hlt
    omega

theorem lt_pow_of_toDigits (n : Nat) : n < Nat.pow 10 (Nat.toDigits 10 n).length :=
  (Nat.length_toDigits_le_iff (by decide) Nat.length_toDigits_pos).1 (Nat.le_refl _)

/-- On the finest grid that `search` tries, a fraction above zero is at least one step from it. -/
theorem Fraction.floorAt_above_ne_zero {x : Fraction} (hn : 0 < x.num) (hd : 0 < x.den) :
    x.floorAt (x.above - 22) ≠ 0 := by
  have hnum := pow_le_of_toDigits hn
  have hden := lt_pow_of_toDigits x.den
  have hlen : 0 < (Nat.toDigits 10 x.num).length := Nat.length_toDigits_pos
  rw [Fraction.above, Fraction.floorAt]
  generalize (Nat.toDigits 10 x.num).length = a at *
  generalize (Nat.toDigits 10 x.den).length = b at *
  refine Nat.ne_of_gt ?_
  split
  · generalize hk : ((a : Int) - b + 1 - 22).toNat = k
    refine Nat.div_pos ?_ (Nat.mul_pos hd (Nat.pow_pos (by decide)))
    calc x.den * Nat.pow 10 k
      _ ≤ 10 ^ b * 10 ^ k := Nat.mul_le_mul_right _ (Nat.le_of_lt hden)
      _ = 10 ^ (b + k) := (Nat.pow_add 10 b k).symm
      _ ≤ 10 ^ (a - 1) := Nat.pow_le_pow_right (by decide) (by omega)
      _ ≤ x.num := hnum
  · generalize hk : (-((a : Int) - b + 1 - 22)).toNat = k
    refine Nat.div_pos ?_ hd
    calc x.den
      _ ≤ 10 ^ b := Nat.le_of_lt hden
      _ ≤ 10 ^ (a - 1 + k) := Nat.pow_le_pow_right (by decide) (by omega)
      _ = 10 ^ (a - 1) * 10 ^ k := Nat.pow_add 10 (a - 1) k
      _ ≤ x.num * Nat.pow 10 k := Nat.mul_le_mul_right _ hnum

theorem shortest_ne_zero {m : Nat} (hm : 0 < m) (q : Int) (least : Bool) :
    (shortest m q least).1 ≠ 0 := by
  have hx := Fraction.ofBinary_pos hm q
  refine withoutZeros_ne_zero 400 (search_ne_zero (fun e => ?_) 22 _ ?_)
  · refine Interval.not_holds_zero ?_ e
    rw [roundingInterval]
    refine (Fraction.ofBinary_pos ?_ (q - 2)).1
    split <;> omega
  · exact Fraction.floorAt_above_ne_zero hx.1 hx.2

/-! ## Written numbers -/

theorem Parts.isNumber_text? {parts : Parts} {digits : Text}
    (hm : ∀ negative m q least, parts = .finite negative m q least → 0 < m)
    (h : parts.text? = some digits) : isNumber digits = true := by
  cases parts with
  | zero negative =>
    cases h
    cases negative
    · rfl
    · rfl
  | finite negative m q least =>
    cases h
    exact isNumber_layout (shortest_ne_zero (hm negative m q least rfl) q least) _ negative
  | infinite negative => cases h
  | notANumber => cases h

/-- What `text?` writes for a finite number is a number of JSON. -/
theorem isNumber_text? {x : Float} {digits : Text} (h : text? x = some digits) :
    isNumber digits = true := by
  refine Parts.isNumber_text? (fun negative m q least hp => ?_) h
  unfold Parts.ofBits at hp
  dsimp only at hp
  split at hp
  · split at hp <;> cases hp
  split at hp
  · split at hp
    · cases hp
    · next h0 =>
      cases hp
      exact Nat.pos_of_ne_zero h0
  · cases hp
    exact Nat.add_pos_left (Nat.pow_pos (by decide)) _

end Decimal

namespace Json

/-- Whatever binary64 number `ofFloat` writes, the result can be read. -/
theorem numbersAll_ofFloat (x : Float) : (ofFloat x).numbersAll isNumber = true := by
  rw [ofFloat]
  split
  · next h => exact Decimal.isNumber_text? h
  · rfl

end Json
end ClipLedger
