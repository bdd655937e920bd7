import ClipLedger.Proofs.Novelty.Learning

/-
  Exact scores and what was observed. A score never rises, and it falls exactly where a key or a
  value of the text was seen once more (`exactScore_lt_iff`). All bounds come from there: before
  anything was observed a text with pairs scores one, so it scores one later exactly if nothing of
  it was seen since, and it never comes down to zero (`exactScore_decays`).
-/
namespace ClipLedger.Tracker

variable {α : Type}

/-! ## Where a mean falls -/

theorem rarity_pos (t : Tally) (k : Text) : (0 : Rat) < rarity t k := by
  have hpos : (0 : Rat) < 1 + (t.count k : Rat) := by positivity
  exact one_div_pos.2 hpos

/-- A text that was never seen has the greatest rarity, one. -/
theorem rarity_empty (k : Text) : (rarity .empty k : Rat) = 1 := by
  have hcount : Tally.empty.count k = 0 := rfl
  change (1 : Rat) / (1 + (Tally.empty.count k : Rat)) = 1
  rw [hcount]
  norm_num

theorem meanRarity_pos (t : Tally) {texts : List Text} (h : texts ≠ []) :
    (0 : Rat) < meanRarity t texts := by
  have hlength : (0 : Rat) < texts.length := by exact_mod_cast List.length_pos_iff.2 h
  have hsum : (0 : Rat) < (texts.map (rarity t)).sum := by
    refine List.sum_pos _ (fun x hx => ?_) (by simpa using h)
    obtain ⟨k, -, rfl⟩ := List.mem_map.1 hx
    exact rarity_pos t k
  rw [meanRarity_eq]
  positivity

theorem meanRarity_empty {texts : List Text} (h : texts ≠ []) :
    (meanRarity .empty texts : Rat) = 1 := by
  have hlength : (texts.length : Rat) ≠ 0 := by exact_mod_cast (List.length_pos_iff.2 h).ne'
  have hones : texts.map (rarity .empty : Text → Rat) = List.replicate texts.length 1 := by
    refine List.eq_replicate_iff.2 ⟨List.length_map _, fun x hx => ?_⟩
    obtain ⟨k, -, rfl⟩ := List.mem_map.1 hx
    exact rarity_empty k
  rw [meanRarity_eq, hones, List.sum_replicate, nsmul_eq_mul, mul_one]
  exact div_self hlength

/-- If no count falls from `t` to `u`, the mean rarity falls exactly where one of the texts was seen
more often. -/
theorem meanRarity_lt_iff {t u : Tally} (h : ∀ k, t.count k ≤ u.count k) (texts : List Text) :
    (meanRarity u texts : Rat) < meanRarity t texts ↔ ∃ k ∈ texts, t.count k < u.count k := by
  refine ⟨fun hlt => ?_, meanRarity_lt h⟩
  by_contra hnone
  have hsame : texts.map (rarity u : Text → Rat) = texts.map (rarity t) := by
    refine List.map_congr_left fun k hk => ?_
    have hcount : u.count k = t.count k :=
      Nat.le_antisymm (Nat.le_of_not_lt fun hlt => hnone ⟨k, hk, hlt⟩) (h k)
    rw [rarity, rarity, hcount]
  rw [meanRarity_eq, meanRarity_eq, hsame] at hlt
  exact lt_irrefl _ hlt

/-! ## Where a score falls -/

theorem exactScore_of_no_pairs (t : Tracker α) {text : Text} (h : Text.pairs text = []) :
    t.exactScore text = 0 := by
  unfold exactScore score scorePairs
  rw [if_pos h]
  rfl

theorem exactScore_pos (t : Tracker α) {text : Text} (h : Text.pairs text ≠ []) :
    0 < t.exactScore text := by
  have hkeys : (0 : Rat) < meanRarity t.keys ((Text.pairs text).map Pair.key) :=
    meanRarity_pos t.keys (List.map_eq_nil_iff.not.2 h)
  have hvalues : (0 : Rat) < meanRarity t.values ((Text.pairs text).map Pair.value) :=
    meanRarity_pos t.values (List.map_eq_nil_iff.not.2 h)
  rw [exactScore_eq h]
  positivity

/-- A score falls exactly where a key or a value of the text was seen more often. -/
theorem exactScore_lt_iff {t u : Tracker α} (h : u.Covers t) (text : Text) :
    u.exactScore text < t.exactScore text ↔ ∃ pair ∈ Text.pairs text,
      t.keys.count pair.key < u.keys.count pair.key ∨
        t.values.count pair.value < u.values.count pair.value := by
  by_cases hpairs : Text.pairs text = []
  · rw [exactScore_of_no_pairs t hpairs, exactScore_of_no_pairs u hpairs, hpairs]
    simp
  · have hkeys := meanRarity_le h.keys ((Text.pairs text).map Pair.key)
    have hvalues := meanRarity_le h.values ((Text.pairs text).map Pair.value)
    have hkeys_iff := meanRarity_lt_iff h.keys ((Text.pairs text).map Pair.key)
    have hvalues_iff := meanRarity_lt_iff h.values ((Text.pairs text).map Pair.value)
    simp only [List.mem_map, exists_exists_and_eq_and] at hkeys_iff hvalues_iff
    rw [exactScore_eq hpairs, exactScore_eq hpairs, div_lt_div_iff_of_pos_right two_pos]
    constructor
    · intro hlt
      -- of two sums the smaller one has a smaller part
      rcases lt_or_lt_of_add_lt_add hlt with hlt | hlt
      · obtain ⟨pair, hpair, hmore⟩ := hkeys_iff.1 hlt
        exact ⟨pair, hpair, .inl hmore⟩
      · obtain ⟨pair, hpair, hmore⟩ := hvalues_iff.1 hlt
        exact ⟨pair, hpair, .inr hmore⟩
    · rintro ⟨pair, hpair, hmore | hmore⟩
      · exact add_lt_add_of_lt_of_le (hkeys_iff.2 ⟨pair, hpair, hmore⟩) hvalues
      · exact add_lt_add_of_le_of_lt hkeys (hvalues_iff.2 ⟨pair, hpair, hmore⟩)

/-! ## From the first observation on -/

/-- Where nothing was observed, a text with pairs has the score one. -/
theorem exactScore_fresh (historySize period : Nat) {text : Text} (h : Text.pairs text ≠ []) :
    (fresh historySize period : Tracker α).exactScore text = 1 := by
  have hkeys : (meanRarity .empty ((Text.pairs text).map Pair.key) : Rat) = 1 :=
    meanRarity_empty (List.map_eq_nil_iff.not.2 h)
  have hvalues : (meanRarity .empty ((Text.pairs text).map Pair.value) : Rat) = 1 :=
    meanRarity_empty (List.map_eq_nil_iff.not.2 h)
  calc (fresh historySize period : Tracker α).exactScore text
      = (meanRarity .empty ((Text.pairs text).map Pair.key) +
          meanRarity .empty ((Text.pairs text).map Pair.value)) / 2 := exactScore_eq h
    _ = (1 + 1) / 2 := by rw [hkeys, hvalues]
    _ = 1 := by norm_num

theorem covers_fresh (historySize period : Nat) (t : Tracker α) :
    t.Covers (fresh historySize period) :=
  ⟨fun _ => Nat.zero_le _, fun _ => Nat.zero_le _⟩

theorem exactScore_range (t : Tracker α) (text : Text) :
    0 ≤ t.exactScore text ∧ t.exactScore text ≤ 1 := by
  by_cases hpairs : Text.pairs text = []
  · rw [exactScore_of_no_pairs t hpairs]
    exact ⟨le_refl 0, zero_le_one⟩
  · have hle := exactScore_le (covers_fresh 0 0 t) text
    rw [exactScore_fresh 0 0 hpairs] at hle
    exact ⟨(exactScore_pos t hpairs).le, hle⟩

theorem countP_pos_iff_exists {ι : Type} [DecidableEq ι] (pairs : List Pair) (f : Pair → ι)
    (x : ι) :
    0 < pairs.countP (fun pair => f pair = x) ↔ ∃ pair ∈ pairs, f pair = x := by
  simp [List.countP_pos_iff]

/-- A text has a score below one exactly if one of its keys or values was seen. -/
theorem exactScore_lt_one_iff {historySize period : Nat} {records : List (Record α)}
    {responses : List Text} {t : Tracker α} (h : Saw historySize period records responses t)
    {text : Text} (hpairs : Text.pairs text ≠ []) :
    t.exactScore text < 1 ↔ ∃ pair ∈ Text.pairs text,
      (∃ other ∈ pairsIn responses, other.key = pair.key) ∨
        ∃ other ∈ pairsIn responses, other.value = pair.value := by
  rw [← exactScore_fresh historySize period hpairs,
    exactScore_lt_iff (covers_fresh historySize period t) text]
  refine exists_congr fun pair => and_congr_right fun _ => or_congr ?_ ?_
  · rw [h.keys]
    exact countP_pos_iff_exists _ Pair.key pair.key
  · rw [h.values]
    exact countP_pos_iff_exists _ Pair.value pair.value

/-- A record lowers the score of a text exactly if it shares a key or a value with it. -/
theorem exactScore_observe_lt_iff (t : Tracker α) (r : Record α) (text : Text) :
    (t.observe r).1.exactScore text < t.exactScore text ↔ ∃ pair ∈ Text.pairs text,
      (∃ other ∈ pairsIn (r.map Answer.response), other.key = pair.key) ∨
        ∃ other ∈ pairsIn (r.map Answer.response), other.value = pair.value := by
  obtain ⟨hkeys, hvalues⟩ := t.observe_counts r
  rw [exactScore_lt_iff (t.observe_covers r) text]
  refine exists_congr fun pair => and_congr_right fun _ => or_congr ?_ ?_
  · rw [hkeys, Nat.lt_add_right_iff_pos]
    exact countP_pos_iff_exists _ Pair.key pair.key
  · rw [hvalues, Nat.lt_add_right_iff_pos]
    exact countP_pos_iff_exists _ Pair.value pair.value

/-- **Novelty decays.** After any records the score of a text is from zero to one: zero exactly if
it has no pair, and one exactly if it has pairs and none of their keys and values was seen. One
record more never raises a score, and lowers it exactly if it shares a key or a value with the
text. -/
theorem exactScore_decays (historySize period : Nat) (records : List (Record α)) (text : Text) :
    let t := ((fresh historySize period).observeAll records).1
    let seen := pairsIn (responsesIn records)
    (0 ≤ t.exactScore text ∧ t.exactScore text ≤ 1) ∧
    (t.exactScore text = 0 ↔ Text.pairs text = []) ∧
    (t.exactScore text = 1 ↔ Text.pairs text ≠ [] ∧ ∀ pair ∈ Text.pairs text,
      (∀ other ∈ seen, other.key ≠ pair.key) ∧ ∀ other ∈ seen, other.value ≠ pair.value) ∧
    ∀ r : Record α,
      let u := (t.observe r).1
      let new := pairsIn (r.map Answer.response)
      u.exactScore text ≤ t.exactScore text ∧
      (u.exactScore text < t.exactScore text ↔ ∃ pair ∈ Text.pairs text,
        (∃ other ∈ new, other.key = pair.key) ∨ ∃ other ∈ new, other.value = pair.value) := by
  intro t seen
  have hsaw : Saw historySize period records (responsesIn records) t :=
    observeAll_saw (saw_fresh historySize period) records
  have hrange : 0 ≤ t.exactScore text ∧ t.exactScore text ≤ 1 := t.exactScore_range text
  refine ⟨hrange, ?_, ?_, fun r =>
    ⟨exactScore_le (t.observe_covers r) text, t.exactScore_observe_lt_iff r text⟩⟩
  · refine ⟨fun hzero => ?_, exactScore_of_no_pairs t⟩
    by_contra hpairs
    exact (exactScore_pos t hpairs).ne' hzero
  · by_cases hpairs : Text.pairs text = []
    · rw [exactScore_of_no_pairs t hpairs]
      simp [hpairs]
    · have hless := exactScore_lt_one_iff hsaw hpairs
      constructor
      · intro hone
        refine ⟨hpairs, fun pair hpair =>
          ⟨fun other hother hkey => ?_, fun other hother hvalue => ?_⟩⟩
        · exact absurd hone (hless.2 ⟨pair, hpair, .inl ⟨other, hother, hkey⟩⟩).ne
        · exact absurd hone (hless.2 ⟨pair, hpair, .inr ⟨other, hother, hvalue⟩⟩).ne
      · rintro ⟨-, hunseen⟩
        refine le_antisymm hrange.2 (le_of_not_gt fun hlt => ?_)
        obtain ⟨pair, hpair, ⟨other, hother, hsame⟩ | ⟨other, hother, hsame⟩⟩ := hless.1 hlt
        · exact (hunseen pair hpair).1 other hother hsame
        · exact (hunseen pair hpair).2 other hother hsame

end ClipLedger.Tracker
