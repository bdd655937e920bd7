import ClipLedger.Novelty.Tracker
import Mathlib.Algebra.BigOperators.Finprod
import Mathlib.Data.List.ReduceOption

/-
  What a tracker holds after any run of observations. Its tallies count every pair of every
  response, also of those that came after the baseline was complete or whose record is no longer
  in the history; the history holds the latest records; and the statistics come once, with the
  record whose responses make their number up (`Saw`, `observeAll_saw`). So nothing but the
  history and the baseline depends on the order in which records come (`observeAll_counts`).
-/
namespace ClipLedger.Tracker

variable {α : Type}

/-! ## What was seen -/

/-- The responses of the records, one after the other. -/
def responsesIn (records : List (Record α)) : List Text :=
  records.flatMap fun r => r.map Answer.response

/-- The pairs of the responses, one after the other. -/
def pairsIn (responses : List Text) : List Pair := responses.flatMap Text.pairs

theorem responsesIn_append (records more : List (Record α)) :
    responsesIn (records ++ more) = responsesIn records ++ responsesIn more :=
  List.flatMap_append

theorem responsesIn_concat (records : List (Record α)) (r : Record α) :
    responsesIn (records ++ [r]) = responsesIn records ++ r.map Answer.response := by
  rw [responsesIn_append]
  exact congrArg _ (List.append_nil _)

theorem responsesIn_cons (r : Record α) (records : List (Record α)) :
    responsesIn (r :: records) = r.map Answer.response ++ responsesIn records := rfl

theorem pairsIn_append (responses more : List Text) :
    pairsIn (responses ++ more) = pairsIn responses ++ pairsIn more := List.flatMap_append

theorem pairsIn_singleton (response : Text) : pairsIn [response] = Text.pairs response :=
  List.flatMap_singleton _ _

/-- The statistics that come with the responses `now`, given those `before`: they come with response
number `period`. -/
def completed (period : Nat) (before now : List Text) : Option BaselineMetrics :=
  if before.length < period ∧ period ≤ (before ++ now).length then
    some (.of (((before ++ now).take period).map Text.pairs))
  else none

theorem completed_nil (period : Nat) (before : List Text) : completed period before [] = none := by
  unfold completed
  rw [List.append_nil, if_neg (by omega)]

/-- Responses that come in two parts complete the statistics with one part at most. -/
theorem completed_append (period : Nat) (before now more : List Text) :
    completed period before (now ++ more) = completed period before now ∧
      completed period (before ++ now) more = none ∨
    completed period before (now ++ more) = completed period (before ++ now) more ∧
      completed period before now = none := by
  have hlength : (before ++ now).length = before.length + now.length := List.length_append
  have hall : (before ++ (now ++ more)).length = (before ++ now).length + more.length := by
    rw [← List.append_assoc, List.length_append]
  unfold completed
  by_cases hfull : period ≤ (before ++ now).length
  · left
    have hlate : ¬ ((before ++ now).length < period ∧
        period ≤ (before ++ now ++ more).length) := by omega
    have htake : (before ++ (now ++ more)).take period = (before ++ now).take period := by
      rw [← List.append_assoc, List.take_append_of_le_length hfull]
    rw [if_neg hlate, htake]
    refine ⟨?_, rfl⟩
    by_cases hearly : before.length < period
    · rw [if_pos (by omega), if_pos (by omega)]
    · rw [if_neg (by omega), if_neg (by omega)]
  · right
    have hnow : ¬ (before.length < period ∧ period ≤ (before ++ now).length) := by omega
    rw [if_neg hnow, List.append_assoc]
    refine ⟨?_, rfl⟩
    by_cases hmore : period ≤ (before ++ (now ++ more)).length
    · rw [if_pos (by omega), if_pos (by omega)]
    · rw [if_neg (by omega), if_neg (by omega)]

/-- `t` has seen these records, and these responses. -/
structure Saw (historySize period : Nat) (records : List (Record α)) (responses : List Text)
    (t : Tracker α) : Prop where
  historySize_eq : t.historySize = historySize
  period_eq : t.baselinePeriod = period
  keys : ∀ k, t.keys.count k = (pairsIn responses).countP fun pair => pair.key = k
  values : ∀ v, t.values.count v = (pairsIn responses).countP fun pair => pair.value = v
  history : t.history = records.drop (records.length - historySize)
  collected : t.collected =
    if responses.length < period then some (responses.map Text.pairs) else none

theorem saw_fresh (historySize period : Nat) :
    Saw historySize period [] [] (fresh historySize period : Tracker α) := by
  refine ⟨rfl, rfl, fun _ => rfl, fun _ => rfl, ?_, ?_⟩
  · simp [fresh]
  · unfold fresh
    by_cases h : period = 0
    · rw [if_pos h, if_neg (by simp [h])]
    · rw [if_neg h, if_pos (by simp; omega)]
      rfl

/-! ## One response, one record -/

/-- One response more is seen, and completes the statistics if it is number `period`. -/
theorem observeResponse_spec {historySize period : Nat} {records : List (Record α)}
    {responses : List Text} {t : Tracker α} (h : Saw historySize period records responses t)
    (response : Text) :
    Saw historySize period records (responses ++ [response]) (t.observeResponse response).1 ∧
      (t.observeResponse response).2 = completed period responses [response] := by
  have hpairs : pairsIn (responses ++ [response]) = pairsIn responses ++ Text.pairs response := by
    rw [pairsIn_append, pairsIn_singleton]
  have hkeys : ∀ k, (t.keys.addAll ((Text.pairs response).map Pair.key)).count k =
      (pairsIn (responses ++ [response])).countP fun pair => pair.key = k := by
    intro k
    rw [Tally.count_addAll, h.keys, hpairs, List.countP_append, List.countP_map]
    rfl
  have hvalues : ∀ v, (t.values.addAll ((Text.pairs response).map Pair.value)).count v =
      (pairsIn (responses ++ [response])).countP fun pair => pair.value = v := by
    intro v
    rw [Tally.count_addAll, h.values, hpairs, List.countP_append, List.countP_map]
    rfl
  have hlength : (responses ++ [response]).length = responses.length + 1 := by simp
  have hcollected := h.collected
  unfold observeResponse completed
  dsimp only
  by_cases hopen : responses.length < period
  · have hgrown : (responses.map Text.pairs ++ [Text.pairs response]) =
        (responses ++ [response]).map Text.pairs := by simp
    rw [if_pos hopen] at hcollected
    rw [hcollected]
    dsimp only
    rw [h.period_eq, hgrown, List.length_map]
    by_cases hfull : period ≤ (responses ++ [response]).length
    · have htake : (responses ++ [response]).take period = responses ++ [response] :=
        List.take_of_length_le (by omega)
      rw [if_pos hfull, if_pos ⟨hopen, hfull⟩, htake]
      refine ⟨⟨h.historySize_eq, rfl, hkeys, hvalues, h.history, ?_⟩, rfl⟩
      rw [if_neg (by omega)]
    · rw [if_neg hfull, if_neg (by omega)]
      refine ⟨⟨h.historySize_eq, rfl, hkeys, hvalues, h.history, ?_⟩, rfl⟩
      rw [if_pos (by omega)]
  · rw [if_neg hopen] at hcollected
    rw [hcollected, if_neg (by omega)]
    refine ⟨⟨h.historySize_eq, h.period_eq, hkeys, hvalues, h.history, ?_⟩, rfl⟩
    rw [if_neg (by omega)]

theorem observeResponses_spec {historySize period : Nat} {records : List (Record α)}
    {responses : List Text} {t : Tracker α} (h : Saw historySize period records responses t)
    (now : List Text) :
    Saw historySize period records (responses ++ now) (t.observeResponses now).1 ∧
      (t.observeResponses now).2 = completed period responses now := by
  induction now generalizing responses t with
  | nil =>
    rw [observeResponses, List.append_nil, completed_nil]
    exact ⟨h, rfl⟩
  | cons response now ih =>
    obtain ⟨hfirst, hnow⟩ := observeResponse_spec h response
    obtain ⟨hrest, hlater⟩ := ih hfirst
    rw [List.append_assoc, List.singleton_append] at hrest
    have hboth : (t.observeResponses (response :: now)).2 =
        (completed period (responses ++ [response]) now).or
          (completed period responses [response]) := by
      rw [← hlater, ← hnow]
      rfl
    have hsplit := completed_append period responses [response] now
    rw [List.singleton_append] at hsplit
    refine ⟨hrest, ?_⟩
    rw [hboth]
    rcases hsplit with ⟨hsame, hnone⟩ | ⟨hsame, hnone⟩
    · rw [hsame, hnone, Option.none_or]
    · rw [hsame, hnone, Option.or_none]

/-- `remember` keeps the latest `historySize` records. -/
theorem remember_spec {historySize period : Nat} {records : List (Record α)}
    {responses : List Text} {t : Tracker α} (h : Saw historySize period records responses t)
    (r : Record α) : Saw historySize period (records ++ [r]) responses (t.remember r) := by
  have hhistory := h.history
  have hsize := h.historySize_eq
  have hlength : (records ++ [r]).length = records.length + 1 := by simp
  unfold remember
  by_cases hzero : t.historySize = 0
  · rw [if_pos hzero]
    refine ⟨hsize, h.period_eq, h.keys, h.values, ?_, h.collected⟩
    have hall : historySize = 0 := by omega
    rw [hhistory, hall]
    simp
  · rw [if_neg hzero]
    refine ⟨hsize, h.period_eq, h.keys, h.values, ?_, h.collected⟩
    dsimp only
    have hkept : t.history.length = records.length - (records.length - historySize) := by
      rw [hhistory, List.length_drop]
    rw [hlength, List.drop_append_of_le_length (by omega)]
    by_cases hfull : t.history.length = t.historySize
    · rw [if_pos hfull, hhistory, List.tail_drop]
      congr 2
      omega
    · rw [if_neg hfull, hhistory]
      congr 2
      omega

theorem observe_saw {historySize period : Nat} {records : List (Record α)} {t : Tracker α}
    (h : Saw historySize period records (responsesIn records) t) (r : Record α) :
    Saw historySize period (records ++ [r]) (responsesIn (records ++ [r])) (t.observe r).1 ∧
      (t.observe r).2 = completed period (responsesIn records) (r.map Answer.response) := by
  obtain ⟨hall, hnow⟩ := observeResponses_spec h (r.map Answer.response)
  rw [responsesIn_concat]
  exact ⟨remember_spec hall r, hnow⟩

/-- Once the baseline is complete no statistics come any more. -/
theorem observe_of_complete {t : Tracker α} (h : t.collected = none) (r : Record α) :
    (t.observe r).1.collected = none ∧ (t.observe r).2 = none := by
  have hresponses : ∀ responses {t : Tracker α}, t.collected = none →
      (t.observeResponses responses).1.collected = none ∧
        (t.observeResponses responses).2 = none := by
    intro responses
    induction responses with
    | nil => exact fun ht => ⟨ht, rfl⟩
    | cons response rest ih =>
      intro t ht
      have hone : (t.observeResponse response).1.collected = none ∧
          (t.observeResponse response).2 = none := by
        unfold observeResponse
        dsimp only
        rw [ht]
        exact ⟨rfl, rfl⟩
      obtain ⟨hrest, hlater⟩ := ih hone.1
      unfold observeResponses
      dsimp only
      rw [hlater, hone.2]
      exact ⟨hrest, rfl⟩
  obtain ⟨hnone, hmetrics⟩ := hresponses (r.map Answer.response) h
  refine ⟨?_, hmetrics⟩
  unfold observe remember
  dsimp only
  split
  · exact hnone
  · exact hnone

/-! ## Runs -/

/-- Observes records one after the other: the tracker at the end, and what comes of each. -/
def observeAll : Tracker α → List (Record α) → Tracker α × List (Option BaselineMetrics)
  | t, [] => (t, [])
  | t, r :: rest =>
    let (t, metrics) := t.observe r
    let (t, later) := observeAll t rest
    (t, metrics :: later)

theorem observeAll_saw {historySize period : Nat} {records : List (Record α)} {t : Tracker α}
    (h : Saw historySize period records (responsesIn records) t) (now : List (Record α)) :
    Saw historySize period (records ++ now) (responsesIn (records ++ now))
      (t.observeAll now).1 := by
  induction now generalizing records t with
  | nil =>
    rw [observeAll, List.append_nil]
    exact h
  | cons r now ih =>
    have hfirst := (observe_saw h r).1
    have hrest := ih hfirst
    rw [List.append_assoc, List.singleton_append] at hrest
    exact hrest

/-- The statistics come once, if there are responses enough for them. -/
theorem observeAll_reduceOption {historySize period : Nat} {records : List (Record α)}
    {t : Tracker α} (h : Saw historySize period records (responsesIn records) t)
    (now : List (Record α)) : (t.observeAll now).2.reduceOption =
      (completed period (responsesIn records) (responsesIn now)).toList := by
  induction now generalizing records t with
  | nil =>
    have hnone := completed_nil period (responsesIn records)
    rw [show responsesIn ([] : List (Record α)) = [] from rfl, hnone]
    rfl
  | cons r now ih =>
    obtain ⟨hfirst, hnow⟩ := observe_saw h r
    have hlater := ih hfirst
    have hall : (t.observeAll (r :: now)).2 =
        (t.observe r).2 :: ((t.observe r).1.observeAll now).2 := rfl
    rw [responsesIn_concat] at hlater
    have hcons : ((t.observe r).2 :: ((t.observe r).1.observeAll now).2).reduceOption =
        (t.observe r).2.toList ++ ((t.observe r).1.observeAll now).2.reduceOption := by
      rw [← List.singleton_append, List.reduceOption_append, List.reduceOption_singleton]
    rw [hall, hcons, hlater, hnow, responsesIn_cons]
    rcases completed_append period (responsesIn records) (r.map Answer.response)
      (responsesIn now) with ⟨hsame, hnone⟩ | ⟨hsame, hnone⟩
    · rw [hsame, hnone]
      exact List.append_nil _
    · rw [hsame, hnone]
      rfl

theorem length_observeAll (t : Tracker α) (records : List (Record α)) :
    (t.observeAll records).2.length = records.length := by
  induction records generalizing t with
  | nil => rfl
  | cons r records ih => exact congrArg Nat.succ (ih (t.observe r).1)

theorem observeAll_append (t : Tracker α) (records more : List (Record α)) :
    t.observeAll (records ++ more) = (((t.observeAll records).1.observeAll more).1,
      (t.observeAll records).2 ++ ((t.observeAll records).1.observeAll more).2) := by
  induction records generalizing t with
  | nil => rfl
  | cons r records ih =>
    have hrest := ih (t.observe r).1
    have hcons (rs : List (Record α)) : t.observeAll (r :: rs) =
        (((t.observe r).1.observeAll rs).1, (t.observe r).2 :: ((t.observe r).1.observeAll rs).2) :=
      rfl
    rw [List.cons_append, hcons, hcons, hrest, List.cons_append]

/-! ## What the order of records does not matter to -/

/-- The elements of `l`, counted by what `f` gives for each, are all counted once. -/
theorem finsum_countP {ι κ : Type} [DecidableEq κ] (l : List ι) (f : ι → κ) :
    ∑ᶠ k, l.countP (fun x => f x = k) = l.length := by
  have hcount (k : κ) : l.countP (fun x => f x = k) = (l.map f).count k := by
    rw [List.count, List.countP_map]
    rfl
  have hsupport : Function.support (fun k => (l.map f).count k) ⊆ ((l.map f).toFinset : Set κ) := by
    intro k hk
    have hpos : 0 < (l.map f).count k := Nat.pos_of_ne_zero hk
    exact Finset.mem_coe.2 (List.mem_toFinset.2 (List.count_pos_iff.1 hpos))
  calc ∑ᶠ k, l.countP (fun x => f x = k)
      = ∑ᶠ k, (l.map f).count k := finsum_congr hcount
    _ = ∑ k ∈ (l.map f).toFinset, (l.map f).count k :=
        finsum_eq_finsetSum_of_support_subset _ hsupport
    _ = (l.map f).length := List.sum_toFinset_count_eq_length _
    _ = l.length := List.length_map f

theorem meanRarity_congr [Arith α] {t u : Tally} (h : ∀ k, t.count k = u.count k)
    (texts : List Text) : (meanRarity t texts : α) = meanRarity u texts := by
  have hrarity : (rarity t : Text → α) = rarity u := by
    funext k
    rw [rarity, rarity, h]
  unfold meanRarity
  rw [hrarity]

/-- A score depends on the counts alone. -/
theorem score_congr [Arith α] {t u : Tracker α} (hkeys : ∀ k, t.keys.count k = u.keys.count k)
    (hvalues : ∀ v, t.values.count v = u.values.count v) (text : Text) :
    t.score text = u.score text := by
  unfold score scorePairs
  rw [meanRarity_congr hkeys, meanRarity_congr hvalues]

/-- **What a tracker holds after any records.** Each tally counts every pair that was seen, so that
both have the same sum; the history holds the latest `historySize` records; the baseline is
incomplete as long as responses are missing. Records that come in another order leave the same
counts, and so the same exact scores. -/
theorem observeAll_counts [Arith α] (historySize period : Nat) (records : List (Record α)) :
    let t := ((fresh historySize period).observeAll records).1
    let pairs := pairsIn (responsesIn records)
    (∀ k, t.keys.count k = pairs.countP fun pair => pair.key = k) ∧
    (∀ v, t.values.count v = pairs.countP fun pair => pair.value = v) ∧
    (∑ᶠ k, t.keys.count k = pairs.length ∧ ∑ᶠ v, t.values.count v = pairs.length) ∧
    (t.history = records.drop (records.length - historySize) ∧
      t.history.length = min records.length historySize) ∧
    (t.isCollecting = true ↔ (responsesIn records).length < period) ∧
    ∀ others, others.Perm records →
      let u := ((fresh historySize period).observeAll others).1
      (∀ k, u.keys.count k = t.keys.count k) ∧ (∀ v, u.values.count v = t.values.count v) ∧
      ∀ text, u.score text = t.score text := by
  have hrun (rs : List (Record α)) : Saw historySize period rs (responsesIn rs)
      ((fresh historySize period).observeAll rs).1 :=
    observeAll_saw (saw_fresh historySize period) rs
  intro t pairs
  have ht : Saw historySize period records (responsesIn records) t := hrun records
  refine ⟨ht.keys, ht.values, ⟨?_, ?_⟩, ⟨ht.history, ?_⟩, ?_, ?_⟩
  · rw [finsum_congr ht.keys]
    exact finsum_countP pairs Pair.key
  · rw [finsum_congr ht.values]
    exact finsum_countP pairs Pair.value
  · rw [ht.history, List.length_drop]
    omega
  · unfold isCollecting
    rw [ht.collected]
    by_cases hopen : (responsesIn records).length < period
    · simp [hopen]
    · simp [hopen]
  · intro others hothers u
    have hu : Saw historySize period others (responsesIn others) u := hrun others
    have hperm : (pairsIn (responsesIn others)).Perm pairs :=
      (hothers.flatMap_right _).flatMap_right _
    have hkeys (k : Text) : u.keys.count k = t.keys.count k := by
      rw [hu.keys, ht.keys, hperm.countP_eq]
    have hvalues (v : Text) : u.values.count v = t.values.count v := by
      rw [hu.values, ht.values, hperm.countP_eq]
    exact ⟨hkeys, hvalues, score_congr hkeys hvalues⟩

/-- Two records come in either order, the one kept in the history being another each time. -/
theorem observeAll_counts_swapped :
    let said (response : String) : Record Rat :=
      [⟨[], response.toList, 0, .naturalText, [], []⟩]
    let t := ((fresh 1 2).observeAll [said "topic: space", said "topic: ships\ntime: 12:30"]).1
    let u := ((fresh 1 2).observeAll [said "topic: ships\ntime: 12:30", said "topic: space"]).1
    [said "topic: ships\ntime: 12:30", said "topic: space"].Perm
      [said "topic: space", said "topic: ships\ntime: 12:30"] ∧
    u.score "topic: ships".toList = t.score "topic: ships".toList := by
  intro said t u
  have hperm : [said "topic: ships\ntime: 12:30", said "topic: space"].Perm
      [said "topic: space", said "topic: ships\ntime: 12:30"] := .swap _ _ _
  have hall := observeAll_counts 1 2 [said "topic: space", said "topic: ships\ntime: 12:30"]
  exact ⟨hperm, (hall.2.2.2.2.2 _ hperm).2.2 _⟩

end ClipLedger.Tracker
