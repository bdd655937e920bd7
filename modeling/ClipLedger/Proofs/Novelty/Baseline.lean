import ClipLedger.Proofs.Lists
import ClipLedger.Proofs.Novelty.Tracker
import Mathlib.Data.Finset.Card
import Mathlib.Order.Bounds.Basic

/-
  The baseline statistics over whole runs. They come with one record at most, the one whose
  responses make their number up, and they describe the first responses and nothing else
  (`Describes`), however the responses are spread over records; that record is counted to its end
  all the same. Whether the statistics can be written to their file makes no difference to any of
  this (`observeAllInto_once`).
-/
namespace ClipLedger

namespace BaselineMetrics

/-- `distinct` is the size of the set of the texts. -/
theorem distinct_eq_card (texts : List Text) : distinct texts = texts.toFinset.card := by
  have hsame : texts.eraseDups.toFinset = texts.toFinset := by
    ext text
    rw [List.mem_toFinset, List.mem_toFinset, List.mem_eraseDups]
  rw [distinct, ← List.toFinset_card_of_nodup (nodup_eraseDups texts), hsame]

/-- How many pairs each of `responses` has. -/
def pairCounts (responses : List Text) : List Nat :=
  responses.map fun response => (Text.pairs response).length

/-- `m` has the statistics of `responses`. The mean, the spread and the shares are computed on
binary64 numbers, sums from left to right; spread and extremes need two responses. -/
structure Describes (m : BaselineMetrics) (responses : List Text) : Prop where
  total : m.totalResponses = responses.length
  keys : m.uniqueKeys = ((Tracker.pairsIn responses).map Pair.key).toFinset.card
  values : m.uniqueValues = ((Tracker.pairsIn responses).map Pair.value).toFinset.card
  average : m.averageLength =
    Float.ofNat (pairCounts responses).sum / Float.ofNat responses.length
  deviation : if 2 ≤ responses.length then
      let squares := (pairCounts responses).map fun n =>
        (Float.ofNat n - m.averageLength) * (Float.ofNat n - m.averageLength)
      m.lengthDeviation =
        some (squares.foldl (· + ·) 0 / Float.ofNat responses.length).sqrt
    else m.lengthDeviation = none
  shortest : if 2 ≤ responses.length then
      ∃ n, m.shortest = some n ∧ IsLeast { k | k ∈ pairCounts responses } n
    else m.shortest = none
  longest : if 2 ≤ responses.length then
      ∃ n, m.longest = some n ∧ IsGreatest { k | k ∈ pairCounts responses } n
    else m.longest = none
  keyShare : m.keyDiversity = Float.ofNat m.uniqueKeys / Float.ofNat responses.length
  valueShare : m.valueDiversity = Float.ofNat m.uniqueValues / Float.ofNat responses.length

theorem mean_eq {lengths : List Nat} (hne : lengths ≠ []) :
    mean lengths = Float.ofNat lengths.sum / Float.ofNat lengths.length := by
  rw [mean, if_neg hne, List.sum_eq_foldr]

theorem min?_isLeast {l : List Nat} (hne : l ≠ []) :
    ∃ n, l.min? = some n ∧ IsLeast { k | k ∈ l } n := by
  obtain ⟨n, hn⟩ := Option.isSome_iff_exists.1 (List.isSome_min?_of_ne_nil hne)
  obtain ⟨hmem, hle⟩ := List.min?_eq_some_iff.1 hn
  exact ⟨n, hn, hmem, fun k hk => hle k hk⟩

theorem max?_isGreatest {l : List Nat} (hne : l ≠ []) :
    ∃ n, l.max? = some n ∧ IsGreatest { k | k ∈ l } n := by
  obtain ⟨n, hn⟩ := Option.isSome_iff_exists.1 (List.isSome_max?_of_ne_nil hne)
  obtain ⟨hmem, hle⟩ := List.max?_eq_some_iff.1 hn
  exact ⟨n, hn, hmem, fun k hk => hle k hk⟩

/-- The statistics of responses describe them. -/
theorem describes_of {responses : List Text} (hne : responses ≠ []) :
    Describes (.of (responses.map Text.pairs)) responses := by
  have hpos : 0 < responses.length := List.length_pos_iff.2 hne
  have hpairs : (responses.map Text.pairs).flatten = Tracker.pairsIn responses :=
    (List.flatMap_def ..).symm
  have hcounts : (responses.map Text.pairs).map List.length = pairCounts responses := by
    rw [List.map_map]
    rfl
  have hlength : (pairCounts responses).length = responses.length := List.length_map _
  have hcountsNe : pairCounts responses ≠ [] := List.ne_nil_of_length_pos (by omega)
  have hmax : max responses.length 1 = responses.length := Nat.max_eq_left hpos
  unfold of
  dsimp only
  rw [hpairs, hcounts, hlength, List.length_map, hmax, distinct_eq_card, distinct_eq_card]
  refine ⟨rfl, rfl, rfl, ?_, ?_, ?_, ?_, rfl, rfl⟩
  · dsimp only
    rw [mean_eq hcountsNe, hlength]
  · split
    · next hseveral =>
      dsimp only
      rw [deviation, hlength]
      rfl
    · rfl
  · split
    · exact min?_isLeast hcountsNe
    · rfl
  · split
    · exact max?_isGreatest hcountsNe
    · rfl

end BaselineMetrics

namespace Tracker

variable {α : Type}

/-! ## Runs that write the statistics to a file -/

/-- A record, the time when it comes, and what happens to the files before. -/
structure Observation (α : Type) where
  record : Record α
  timestamp : Text
  change : FileTree → FileTree

/-- Observes records one after the other with `observeInto`: what comes of each, and the files at
the end. -/
def observeAllInto (file : Option Path) : Tracker α → FileTree → List (Observation α) →
    (Tracker α × List (Option BaselineMetrics)) × FileTree
  | t, files, [] => ((t, []), files)
  | t, files, o :: rest =>
    let ((t, metrics), files) := t.observeInto file o.timestamp o.record (o.change files)
    let ((t, later), files) := observeAllInto file t files rest
    ((t, metrics :: later), files)

/-- Whether there is a file, and what becomes of it, makes no difference to the tracker. -/
theorem observeAllInto_fst (t : Tracker α) (file : Option Path) (files : FileTree)
    (os : List (Observation α)) :
    (t.observeAllInto file files os).1 = t.observeAll (os.map Observation.record) := by
  induction os generalizing t files with
  | nil => rfl
  | cons o os ih =>
    have hrest := ih (t.observe o.record).1
      (t.observeInto file o.timestamp o.record (o.change files)).2
    have hcons : (t.observeAllInto file files (o :: os)).1 =
        (((t.observe o.record).1.observeAllInto file
            (t.observeInto file o.timestamp o.record (o.change files)).2 os).1.1,
          (t.observe o.record).2 :: ((t.observe o.record).1.observeAllInto file
            (t.observeInto file o.timestamp o.record (o.change files)).2 os).1.2) := rfl
    rw [hcons, hrest]
    rfl

/-- The statistics that come with `now`, told by all responses of a run. -/
theorem completed_eq (period : Nat) (before now after : List Text) :
    completed period before now =
      if before.length < period ∧ period ≤ (before ++ now).length then
        some (.of (((before ++ now ++ after).take period).map Text.pairs))
      else none := by
  unfold completed
  split
  · next h => rw [List.take_append_of_le_length h.2]
  · rfl

/-- Over a whole run, the statistics come if there are `period` responses. -/
theorem completed_toList (period : Nat) (responses : List Text) :
    (completed period [] responses).toList =
      if period = 0 ∨ responses.length < period then []
      else [.of ((responses.take period).map Text.pairs)] := by
  unfold completed
  rw [List.nil_append, List.length_nil]
  by_cases hfew : period = 0 ∨ responses.length < period
  · rw [if_pos hfew, if_neg (by omega)]
    rfl
  · rw [if_neg hfew, if_pos (by omega)]
    rfl

/-- What comes of a record in the middle of a run. -/
theorem observeAll_getElem? (historySize period : Nat) (before : List (Record α)) (r : Record α)
    (after : List (Record α)) :
    let earlier := responsesIn before
    let now := r.map Answer.response
    ((fresh historySize period).observeAll (before ++ r :: after)).2[before.length]? = some (
      if earlier.length < period ∧ period ≤ (earlier ++ now).length then
        some (.of (((responsesIn (before ++ r :: after)).take period).map Text.pairs))
      else none) := by
  intro earlier now
  have hfresh : Saw historySize period [] [] (fresh historySize period : Tracker α) :=
    saw_fresh historySize period
  have hbefore := observeAll_saw hfresh before
  have hnow := (observe_saw hbefore r).2
  have hlength := length_observeAll (fresh historySize period) before
  have hresponses : responsesIn (before ++ r :: after) = earlier ++ now ++ responsesIn after := by
    rw [responsesIn_append, responsesIn_cons, List.append_assoc]
  rw [hresponses, ← completed_eq, observeAll_append, List.getElem?_append_right (by omega),
    hlength, Nat.sub_self]
  exact congrArg some hnow

/-- **The statistics come once.** With fewer than `period` responses, or a period of zero, none
come. Otherwise they come with the record that holds response number `period`, and `Describes` the
first `period` responses, whichever records these came in. That record is counted to its end, and
nothing depends on `file` or on the files. -/
theorem observeAllInto_once (historySize period : Nat) (file : Option Path) (files : FileTree)
    (os : List (Observation α)) :
    let responses := responsesIn (os.map Observation.record)
    let metrics := BaselineMetrics.of ((responses.take period).map Text.pairs)
    let (t, snapshots) := ((fresh historySize period).observeAllInto file files os).1
    snapshots.reduceOption =
      (if period = 0 ∨ responses.length < period then [] else [metrics]) ∧
    (∀ before o after, os = before ++ o :: after →
      let earlier := responsesIn (before.map Observation.record)
      let now := o.record.map Answer.response
      snapshots[before.length]? = some (
        if earlier.length < period ∧ period ≤ (earlier ++ now).length then some metrics
        else none)) ∧
    (0 < period → period ≤ responses.length →
      (responses.take period).length = period ∧
        metrics.Describes (responses.take period)) ∧
    ((∀ k, t.keys.count k = (pairsIn responses).countP fun pair => pair.key = k) ∧
      ∀ v, t.values.count v = (pairsIn responses).countP fun pair => pair.value = v) ∧
    (t, snapshots) = (fresh historySize period).observeAll (os.map Observation.record) := by
  intro responses metrics
  rw [observeAllInto_fst]
  have hfresh := saw_fresh (α := α) historySize period
  have hsaw := observeAll_saw hfresh (os.map Observation.record)
  have honce := observeAll_reduceOption hfresh (os.map Observation.record)
  refine ⟨?_, ?_, ?_, ⟨hsaw.keys, hsaw.values⟩, rfl⟩
  · rw [honce]
    exact completed_toList period responses
  · intro before o after hsplit earlier now
    have hrecords : os.map Observation.record =
        before.map Observation.record ++ o.record :: after.map Observation.record := by
      rw [hsplit, List.map_append, List.map_cons]
    have hat := observeAll_getElem? historySize period (before.map Observation.record) o.record
      (after.map Observation.record)
    rw [← hrecords, List.length_map] at hat
    exact hat
  · intro hpos hmany
    have hlength : (responses.take period).length = period := List.length_take_of_le hmany
    have hne : responses.take period ≠ [] := List.ne_nil_of_length_pos (by omega)
    exact ⟨hlength, BaselineMetrics.describes_of hne⟩

/-- Two responses are asked for, and the second is in the middle of a record. The statistics cannot
be written, the root being no file. -/
theorem observeAllInto_once_mid_record :
    let said (responses : List String) : Record Rat :=
      responses.map fun response => ⟨[], response.toList, 0, .naturalText, [], []⟩
    let os : List (Observation Rat) :=
      [⟨said ["a: b"], [], id⟩, ⟨said ["a: c\nd: e", "x: y"], [], id⟩, ⟨said ["p: q"], [], id⟩]
    let responses := responsesIn (os.map Observation.record)
    let metrics := BaselineMetrics.of ((responses.take 2).map Text.pairs)
    let snapshots := ((fresh 1 2).observeAllInto (some (.ofString "/")) (.empty 0) os).1.2
    0 < 2 ∧ 2 ≤ responses.length ∧ snapshots.reduceOption = [metrics] ∧
      snapshots[1]? = some (some metrics) ∧ metrics.Describes (responses.take 2) := by
  intro said os responses metrics snapshots
  have hmany : 2 ≤ responses.length := by decide
  obtain ⟨hlist, hplace, hdescribes, -, -⟩ :=
    observeAllInto_once 1 2 (some (.ofString "/")) (.empty 0) os
  have hat := hplace [os[0]] os[1] [os[2]] rfl
  exact ⟨by decide, hmany, hlist, hat, (hdescribes (by decide) hmany).2⟩

end Tracker
end ClipLedger
