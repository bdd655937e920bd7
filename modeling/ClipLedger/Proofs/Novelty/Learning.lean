import ClipLedger.Proofs.Analyzer
import ClipLedger.Proofs.Novelty.Tracker
import ClipLedger.Proofs.Text.Pairs
import ClipLedger.Settings.Basic
import Mathlib.Algebra.Order.BigOperators.Group.List
import Mathlib.Algebra.Order.Field.Basic
import Mathlib.Algebra.Order.Ring.Rat
import Mathlib.Tactic.GCongr
import Mathlib.Tactic.Positivity

/-
  What a tracker learns from an analysis. The score of a completion is that of its whole text, and
  what is observed is the recorded answer, which may have been cut. Scores never rise
  (`exactScore_le`). They fall for a reply of which the cut leaves a pair, because a cut makes up no
  keys and a key that was seen once more is rarer no longer (`analyze_learns`); a reply that is cut
  before its first colon teaches nothing (`analyze_cut_unlearned`).
-/
namespace ClipLedger

namespace Tracker

variable {α : Type}

/-! ## What is observed is counted -/

theorem observeResponse_counts (t : Tracker α) (response : Text) :
    (∀ k, (t.observeResponse response).1.keys.count k =
      t.keys.count k + (Text.pairs response).countP fun pair => pair.key = k) ∧
    ∀ v, (t.observeResponse response).1.values.count v =
      t.values.count v + (Text.pairs response).countP fun pair => pair.value = v := by
  have hkeys : (t.observeResponse response).1.keys =
      t.keys.addAll ((Text.pairs response).map Pair.key) := by
    unfold observeResponse
    dsimp only
    split
    · rfl
    · split <;> rfl
  have hvalues : (t.observeResponse response).1.values =
      t.values.addAll ((Text.pairs response).map Pair.value) := by
    unfold observeResponse
    dsimp only
    split
    · rfl
    · split <;> rfl
  constructor
  · intro k
    rw [hkeys, Tally.count_addAll, List.countP_map]
    rfl
  · intro v
    rw [hvalues, Tally.count_addAll, List.countP_map]
    rfl

theorem observeResponses_counts (t : Tracker α) (responses : List Text) :
    (∀ k, (t.observeResponses responses).1.keys.count k =
      t.keys.count k + (pairsIn responses).countP fun pair => pair.key = k) ∧
    ∀ v, (t.observeResponses responses).1.values.count v =
      t.values.count v + (pairsIn responses).countP fun pair => pair.value = v := by
  induction responses generalizing t with
  | nil => exact ⟨fun _ => rfl, fun _ => rfl⟩
  | cons response rest ih =>
    obtain ⟨hkeys, hvalues⟩ := t.observeResponse_counts response
    obtain ⟨hkeys', hvalues'⟩ := ih (t.observeResponse response).1
    have hpairs : pairsIn (response :: rest) = Text.pairs response ++ pairsIn rest := rfl
    constructor
    · intro k
      rw [hpairs, List.countP_append, ← Nat.add_assoc, ← hkeys]
      exact hkeys' k
    · intro v
      rw [hpairs, List.countP_append, ← Nat.add_assoc, ← hvalues]
      exact hvalues' v

/-- A record raises each count by the number of its pairs with this key or this value. -/
theorem observe_counts (t : Tracker α) (r : Record α) :
    (∀ k, (t.observe r).1.keys.count k =
      t.keys.count k + (pairsIn (r.map Answer.response)).countP fun pair => pair.key = k) ∧
    ∀ v, (t.observe r).1.values.count v =
      t.values.count v + (pairsIn (r.map Answer.response)).countP fun pair => pair.value = v := by
  have hremember (u : Tracker α) :
      (u.remember r).keys = u.keys ∧ (u.remember r).values = u.values := by
    unfold remember
    split <;> exact ⟨rfl, rfl⟩
  have hcounts := t.observeResponses_counts (r.map Answer.response)
  unfold observe
  dsimp only
  rw [(hremember _).1, (hremember _).2]
  exact hcounts

/-! ## Exact scores -/

/-- The score of `text` in exact fractions, whatever numbers the tracker computes in. -/
def exactScore (t : Tracker α) (text : Text) : Rat :=
  Tracker.score
    (⟨t.historySize, t.baselinePeriod, [], t.keys, t.values, t.collected⟩ : Tracker Rat) text

theorem exactScore_eq_score (t : Tracker Rat) (text : Text) : t.exactScore text = t.score text :=
  score_congr (fun _ => rfl) (fun _ => rfl) text

/-- The mean rarity in fractions, as a sum and a quotient. -/
theorem meanRarity_eq (t : Tally) (texts : List Text) :
    (meanRarity t texts : Rat) = (texts.map (rarity t)).sum / texts.length := by
  have htotal : texts.foldl (fun sum k => Arith.add sum (rarity t k)) (Arith.ofNat 0 : Rat) =
      (texts.map (rarity t)).sum := by
    rw [List.sum_eq_foldl, List.foldl_map]
    rfl
  unfold meanRarity
  rw [htotal]
  rfl

theorem rarity_le {t u : Tally} {k : Text} (h : t.count k ≤ u.count k) :
    (rarity u k : Rat) ≤ rarity t k := by
  have hpos : (0 : Rat) < 1 + (t.count k : Rat) := by positivity
  have hcount : (1 : Rat) + t.count k ≤ 1 + u.count k := by gcongr
  exact one_div_le_one_div_of_le hpos hcount

theorem rarity_lt {t u : Tally} {k : Text} (h : t.count k < u.count k) :
    (rarity u k : Rat) < rarity t k := by
  have hpos : (0 : Rat) < 1 + (t.count k : Rat) := by positivity
  have hcount : (1 : Rat) + t.count k < 1 + u.count k := by gcongr
  exact one_div_lt_one_div_of_lt hpos hcount

theorem meanRarity_le {t u : Tally} (h : ∀ k, t.count k ≤ u.count k) (texts : List Text) :
    (meanRarity u texts : Rat) ≤ meanRarity t texts := by
  rw [meanRarity_eq, meanRarity_eq]
  have hsum : (texts.map (rarity u)).sum ≤ (texts.map (rarity t : Text → Rat)).sum :=
    List.sum_le_sum fun k _ => rarity_le (h k)
  gcongr

theorem meanRarity_lt {t u : Tally} (h : ∀ k, t.count k ≤ u.count k) {texts : List Text}
    (hmore : ∃ k ∈ texts, t.count k < u.count k) :
    (meanRarity u texts : Rat) < meanRarity t texts := by
  obtain ⟨k, hk, hlt⟩ := hmore
  have hsum : (texts.map (rarity u)).sum < (texts.map (rarity t : Text → Rat)).sum :=
    List.sum_lt_sum _ _ (fun k _ => rarity_le (h k)) ⟨k, hk, rarity_lt hlt⟩
  have hlength : (0 : Rat) < texts.length := by
    exact_mod_cast List.length_pos_of_mem hk
  rw [meanRarity_eq, meanRarity_eq]
  gcongr

/-- `u` has seen at least what `t` has. -/
structure Covers (u : Tracker α) (t : Tracker α) : Prop where
  keys : ∀ k, t.keys.count k ≤ u.keys.count k
  values : ∀ v, t.values.count v ≤ u.values.count v

theorem exactScore_eq {t : Tracker α} {text : Text} (h : Text.pairs text ≠ []) :
    t.exactScore text = (meanRarity t.keys ((Text.pairs text).map Pair.key) +
      meanRarity t.values ((Text.pairs text).map Pair.value)) / 2 := by
  unfold exactScore score scorePairs
  rw [if_neg h]
  rfl

/-- If `u` covers `t`, no text has a higher score in `u`. -/
theorem exactScore_le {t u : Tracker α} (h : u.Covers t) (text : Text) :
    u.exactScore text ≤ t.exactScore text := by
  by_cases hpairs : Text.pairs text = []
  · unfold exactScore score scorePairs
    rw [if_pos hpairs, if_pos hpairs]
  · have hkeys := meanRarity_le h.keys ((Text.pairs text).map Pair.key)
    have hvalues := meanRarity_le h.values ((Text.pairs text).map Pair.value)
    rw [exactScore_eq hpairs, exactScore_eq hpairs]
    gcongr

/-- If `u` covers `t` and has seen a key of `text` more often, the score is strictly lower in
`u`. -/
theorem exactScore_lt {t u : Tracker α} (h : u.Covers t) {text : Text}
    (hmore : ∃ pair ∈ Text.pairs text, t.keys.count pair.key < u.keys.count pair.key) :
    u.exactScore text < t.exactScore text := by
  obtain ⟨pair, hmem, hlt⟩ := hmore
  have hpairs : Text.pairs text ≠ [] := List.ne_nil_of_mem hmem
  have hkeys := meanRarity_lt h.keys ⟨pair.key, List.mem_map_of_mem hmem, hlt⟩
  have hvalues := meanRarity_le h.values ((Text.pairs text).map Pair.value)
  rw [exactScore_eq hpairs, exactScore_eq hpairs]
  exact div_lt_div_of_pos_right (add_lt_add_of_lt_of_le hkeys hvalues) two_pos

theorem observe_covers (t : Tracker α) (r : Record α) : (t.observe r).1.Covers t := by
  obtain ⟨hkeys, hvalues⟩ := t.observe_counts r
  constructor
  · intro k
    rw [hkeys]
    exact Nat.le_add_right _ _
  · intro v
    rw [hvalues]
    exact Nat.le_add_right _ _

/-- A record without pairs leaves every score as it was. -/
theorem exactScore_observe_of_no_pairs (t : Tracker α) {r : Record α}
    (h : pairsIn (r.map Answer.response) = []) (text : Text) :
    (t.observe r).1.exactScore text = t.exactScore text := by
  obtain ⟨hkeys, hvalues⟩ := t.observe_counts r
  rw [h] at hkeys hvalues
  exact score_congr (α := Rat) hkeys hvalues text

/-- A reply of which the cut leaves a pair has a strictly lower score once what was left of it was
observed. -/
theorem exactScore_observe_lt (t : Tracker α) {r : Record α} {max : Nat} {reply : Text}
    (hmem : Text.truncate max reply ∈ r.map Answer.response)
    (hleft : Text.pairs (Text.truncate max reply) ≠ []) :
    (t.observe r).1.exactScore reply < t.exactScore reply := by
  obtain ⟨same, cut, rest, hcut, hwhole, -, hkeys⟩ := Text.pairs_truncate max reply
  obtain ⟨seen, hseen⟩ := List.exists_mem_of_ne_nil _ hleft
  -- the cut kept the key, if not the value, of a pair of the reply
  have hkey : ∃ pair ∈ Text.pairs reply, pair.key = seen.key := by
    rw [hcut] at hseen
    rcases List.mem_append.1 hseen with hsame | hlast
    · exact ⟨seen, hwhole ▸ List.mem_append_left rest hsame, rfl⟩
    · have hin := hkeys.subset (List.mem_map_of_mem hlast)
      obtain ⟨pair, hpair, hk⟩ := List.mem_map.1 hin
      exact ⟨pair, hwhole ▸ List.mem_append_right same hpair, hk⟩
  obtain ⟨pair, hpair, hk⟩ := hkey
  refine exactScore_lt (t.observe_covers r) ⟨pair, hpair, ?_⟩
  have hcounted : 0 < (pairsIn (r.map Answer.response)).countP fun p => p.key = pair.key := by
    rw [List.countP_pos_iff]
    exact ⟨seen, List.mem_flatMap.2 ⟨_, hmem, hseen⟩, by simp [hk]⟩
  rw [(t.observe_counts r).1]
  omega

end Tracker

namespace Analyzer

variable {α : Type} [Arith α]

/-! ## What is recorded of the best candidates -/

/-- The answer that an interview yields: the best of its completions, cut to size. -/
def Interview.answer? (a : Analyzer α) (t : Tracker α) (item : Item) (e : Interview) :
    Option (Answer α) :=
  (a.best t e.completions).map (a.answer e.persona (ContentClass.ofItem item) e.shown)

theorem ask_eq_ok {a : Analyzer α} {client : Client} {t : Tracker α} {item : Item} {p : Persona}
    {r r' : Record α} {s s' : Session} (h : a.ask client t item p r s = (.ok r', s')) :
    ∃ e : Interview, e.persona = p ∧ e.shown = r.thoughts ∧
      p.prompt (ContentClass.ofItem item) e.shown item a.maxPrompt = .ok e.prompt ∧
      a.completions client e.prompt (max a.candidates 1) s = (.ok e.completions, s') ∧
      r' = r ++ (e.answer? a t item).toList := by
  unfold ask at h
  dsimp only at h
  split at h
  · cases h
  next prompt hprompt =>
  split at h
  · cases h
  next cs s₁ hcs =>
  refine ⟨⟨p, r.thoughts, prompt, cs⟩, rfl, rfl, hprompt, ?_⟩
  unfold Interview.answer?
  split at h
  · next hbest =>
    cases h
    exact ⟨hcs, by rw [hbest]; exact (List.append_nil r).symm⟩
  · next c hbest =>
    cases h
    exact ⟨hcs, by rw [hbest]; rfl⟩

/-- Where `askAll` succeeds, everyone was heard, and the record has the answer of each interview
that yields one. -/
theorem askAll_eq_ok {a : Analyzer α} {client : Client} {t : Tracker α} {item : Item}
    {ps : List Persona} {r r' : Record α} {s s' : Session}
    (h : a.askAll client t item ps r s = (.ok r', s')) :
    ∃ es, es.map Interview.persona = ps ∧ Heard a client item s es s' ∧
      r' = r ++ es.filterMap (Interview.answer? a t item) := by
  induction ps generalizing r s with
  | nil =>
    cases h
    exact ⟨[], rfl, .nil _, (List.append_nil _).symm⟩
  | cons p ps ih =>
    rw [askAll] at h
    split at h
    · cases h
    next r₁ s₁ hask =>
    obtain ⟨e, rfl, -, hprompt, hcs, rfl⟩ := ask_eq_ok hask
    obtain ⟨es, rfl, hheard, rfl⟩ := ih h
    refine ⟨e :: es, rfl, .cons hprompt hcs hheard, ?_⟩
    rw [List.append_assoc]
    cases he : e.answer? a t item with
    | none => rw [List.filterMap_cons_none he]; rfl
    | some ans => rw [List.filterMap_cons_some he]; rfl

theorem analyze_eq_ok {a : Analyzer α} {client : Client} {t : Tracker α} {item : Item}
    {s s' : Session} {an : Analysis α} (h : a.analyze client t item s = (.ok an, s')) :
    ∃ es, es.map Interview.persona = Persona.roster ∧ Heard a client item s es s' ∧
      an.record = es.filterMap (Interview.answer? a t item) ∧
      an.tracker = (t.observe an.record).1 := by
  unfold analyze at h
  split at h
  · cases h
  next r s₁ hall =>
  obtain ⟨es, hmap, hheard, hr⟩ := askAll_eq_ok hall
  cases h
  exact ⟨es, hmap, hheard, hr, rfl⟩

/-- **What was recorded is learned.** After an analysis that succeeds, with any tracker `t`, no
score is higher than before. For each interview with a best completion `c`, the score of `c` is
strictly lower, provided that `truncate` leaves a pair of it, since what is observed is the cut
text. -/
theorem analyze_learns {a : Analyzer α} {client : Client} {t : Tracker α} {item : Item}
    {s s' : Session} {an : Analysis α} (h : a.analyze client t item s = (.ok an, s')) :
    ∃ es, es.map Interview.persona = Persona.roster ∧ Heard a client item s es s' ∧
      an.record = es.filterMap (Interview.answer? a t item) ∧
      (∀ text, an.tracker.exactScore text ≤ t.exactScore text) ∧
      ∀ e ∈ es, ∀ c, a.best t e.completions = some c →
        Text.pairs (Text.truncate a.maxPrompt c.text) ≠ [] →
        an.tracker.exactScore c.text < t.exactScore c.text := by
  obtain ⟨es, hmap, hheard, hrecord, htracker⟩ := analyze_eq_ok h
  refine ⟨es, hmap, hheard, hrecord, ?_, ?_⟩
  · intro text
    rw [htracker]
    exact Tracker.exactScore_le (t.observe_covers an.record) text
  · intro e he c hbest hleft
    have hanswer : e.answer? a t item =
        some (a.answer e.persona (ContentClass.ofItem item) e.shown c) := by
      rw [Interview.answer?, hbest]
      rfl
    have hmem : Text.truncate a.maxPrompt c.text ∈ an.record.map Answer.response := by
      rw [hrecord]
      exact List.mem_map.2 ⟨_, List.mem_filterMap.2 ⟨e, he, hanswer⟩, rfl⟩
    rw [htracker]
    exact t.exactScore_observe_lt hmem hleft

/-! ## A client that says the same every time -/

omit [Arith α] in
theorem Heard.completions {a : Analyzer α} {client : Client} {item : Item} {s s' : Session}
    {es : List Interview} (h : Heard a client item s es s') {e : Interview} (he : e ∈ es) :
    ∃ s₀ s₁, a.completions client e.prompt (max a.candidates 1) s₀ = (.ok e.completions, s₁) := by
  induction h with
  | nil s => cases he
  | cons hprompt hcs rest ih =>
    rcases List.mem_cons.1 he with rfl | he
    · exact ⟨_, _, hcs⟩
    · exact ih he

/-- Where one completion is asked for, the constant reply is the best candidate. -/
theorem Heard.best_constant {a : Analyzer α} {reply : Text} {item : Item} {s s' : Session}
    {es : List Interview} (h : Heard a (.constant reply) item s es s') (hone : a.candidates = 1)
    (hreply : StreamEvent.collect a.inference.maxResponse (StreamEvent.ofReply reply) = reply)
    (husable : (⟨reply⟩ : Completion).isError = false) (t : Tracker α) {e : Interview}
    (he : e ∈ es) : a.best t e.completions = some ⟨reply, t.score reply⟩ := by
  obtain ⟨s₀, s₁, hcs⟩ := h.completions he
  have hanswer : (Client.constant reply).answer s₀.sent (a.inference.request e.prompt) =
      .stream (StreamEvent.ofReply reply) := rfl
  have hcomplete := a.inference.complete_of_stream hanswer
  rw [hone, Nat.max_self, Analyzer.completions, hcomplete, hreply] at hcs
  have hheard : e.completions = [⟨reply⟩] := (Except.ok.inj (Prod.mk.inj hcs).1).symm
  rw [hheard, best, List.foldl_cons, consider, husable]
  rfl

/-- A reply that fits is less novel after it was given. -/
theorem analyze_learns_constant :
    let a : Analyzer Float := .ofSettings { Performance.default with candidates := 1 } .default
    let reply := "topic: space".toList
    let t : Tracker Float := .fresh 1000 100
    ∃ an s', a.analyze (.constant reply) t (.text "some clipboard text".toList) .fresh =
        (.ok an, s') ∧
      an.tracker.exactScore reply < t.exactScore reply := by
  have hreply : StreamEvent.collect 1000 (StreamEvent.ofReply "topic: space".toList) =
      "topic: space".toList := by decide +kernel
  have husable : (⟨"topic: space".toList⟩ : Completion).isError = false := by decide +kernel
  have hleft : Text.pairs (Text.truncate 512 "topic: space".toList) ≠ [] := by decide +kernel
  generalize "topic: space".toList = reply at hreply husable hleft ⊢
  intro a _ t
  obtain ⟨an, s', han, -⟩ := a.analyze_untimed (Client.constant_opens reply).stands t
    (.text "some clipboard text".toList) (s := .fresh) rfl
  obtain ⟨es, hmap, hheard, -, -, hlearn⟩ := analyze_learns han
  obtain ⟨e, he⟩ : ∃ e, e ∈ es := by
    cases es with
    | nil => cases hmap
    | cons e es => exact ⟨e, List.mem_cons_self⟩
  have hbest := hheard.best_constant rfl hreply husable t he
  have hmax : a.maxPrompt = 512 := rfl
  have hlt := hlearn e he _ hbest
  rw [hmax] at hlt
  exact ⟨an, s', han, hlt hleft⟩

/-- A reply that is cut before its colon is as novel after it was given. -/
theorem analyze_cut_unlearned :
    let a : Analyzer Float :=
      .ofSettings { Performance.default with candidates := 1, maxPrompt := 3 } .default
    let client := Client.constant "topic: space".toList
    let item := Item.text "some clipboard text".toList
    let t : Tracker Float := .fresh 1000 100
    ∃ an s' es, a.analyze client t item .fresh = (.ok an, s') ∧
      Heard a client item .fresh es s' ∧ an.record = es.filterMap (Interview.answer? a t item) ∧
      ∃ e ∈ es, ∃ c, a.best t e.completions = some c ∧ Text.pairs c.text ≠ [] ∧
        ¬ an.tracker.exactScore c.text < t.exactScore c.text := by
  have hreply : StreamEvent.collect 1000 (StreamEvent.ofReply "topic: space".toList) =
      "topic: space".toList := by decide +kernel
  have husable : (⟨"topic: space".toList⟩ : Completion).isError = false := by decide +kernel
  have hpairs : Text.pairs "topic: space".toList ≠ [] := by decide +kernel
  have hcut : Text.pairs (Text.truncate 3 "topic: space".toList) = [] := by decide +kernel
  generalize "topic: space".toList = reply at hreply husable hpairs hcut ⊢
  intro a client item t
  obtain ⟨an, s', han, -⟩ := a.analyze_untimed (Client.constant_opens reply).stands t item
    (s := .fresh) rfl
  obtain ⟨es, hmap, hheard, hrecord, htracker⟩ := analyze_eq_ok han
  have hbest : ∀ e ∈ es, a.best t e.completions = some ⟨reply, t.score reply⟩ := fun e he =>
    hheard.best_constant rfl hreply husable t he
  have hnothing : Tracker.pairsIn (an.record.map Answer.response) = [] := by
    unfold Tracker.pairsIn
    rw [List.flatMap_eq_nil_iff]
    intro response hresponse
    obtain ⟨ans, hans, rfl⟩ := List.mem_map.1 hresponse
    rw [hrecord] at hans
    obtain ⟨e, he, hanswer⟩ := List.mem_filterMap.1 hans
    rw [Interview.answer?, hbest e he] at hanswer
    cases hanswer
    exact hcut
  obtain ⟨e, he⟩ : ∃ e, e ∈ es := by
    cases es with
    | nil => cases hmap
    | cons e es => exact ⟨e, List.mem_cons_self⟩
  refine ⟨an, s', es, han, hheard, hrecord, e, he, _, hbest e he, hpairs, ?_⟩
  rw [htracker, t.exactScore_observe_of_no_pairs hnothing]
  exact lt_irrefl _

end Analyzer
end ClipLedger
