import ClipLedger.Proofs.Novelty.Learning
import ClipLedger.Proofs.Novelty.Numbers
import ClipLedger.Settings.Basic
import Mathlib.Data.List.Induction

/-
  Which of several completions is recorded: the first of the usable ones that no other one is worth
  more than (`best_chosen`). All that the choice needs of its arithmetic is that the worths at hand
  are ranked, as fractions are, and as the worths in binary64 are, since all of them are numbers. In
  fractions, with a positive weight, it is the first completion of greatest novelty; in binary64 two
  novelties that differ may be worth the same. With a weight of zero, or with none at all, it is the
  first usable one (`best_first`). A tracker stays as it is while the personas of an item are asked,
  and sees the record once.
-/
namespace ClipLedger.Analyzer

variable {α : Type} [Arith α]

/-! ## What is chosen -/

/-- The completion `c` as a candidate, with its score. -/
def candidate (t : Tracker α) (c : Completion) : Candidate α := ⟨c.text, t.score c.text⟩

/-- `a.prefers` the candidate of `new` to that of `old`. -/
def Beats (a : Analyzer α) (t : Tracker α) (new old : Completion) : Prop :=
  a.prefers (candidate t old) (candidate t new) = true

/-- `c` is the first usable completion of `cs` that no other usable one `Beats`. -/
structure Chosen (a : Analyzer α) (t : Tracker α) (cs : List Completion) (c : Completion) :
    Prop where
  usable : c.isError = false
  unbeaten : ∀ other ∈ cs, other.isError = false → ¬ a.Beats t other c
  first : ∃ before after, cs = before ++ c :: after ∧ ∀ earlier ∈ before, earlier.isError = false →
    ∃ other ∈ cs, other.isError = false ∧ a.Beats t other earlier

/-- If a weight is set, the worths of the usable completions of `cs` are `Arith.Ranked`. -/
def Comparable (a : Analyzer α) (t : Tracker α) (cs : List Completion) : Prop :=
  ∀ w, a.weight = some w →
    Arith.Ranked { x | ∃ c ∈ cs, c.isError = false ∧ worth w (t.score c.text) = x }

theorem Comparable.subset {a : Analyzer α} {t : Tracker α} {cs ds : List Completion}
    (h : a.Comparable t ds) (hsub : cs ⊆ ds) : a.Comparable t cs := by
  intro w hw
  refine (h w hw).mono ?_
  rintro x ⟨c, hc, husable, rfl⟩
  exact ⟨c, hsub hc, husable, rfl⟩

theorem beats_iff {a : Analyzer α} {w : α} (hw : a.weight = some w) (t : Tracker α)
    (new old : Completion) :
    a.Beats t new old ↔
      Arith.less (worth w (t.score old.text)) (worth w (t.score new.text)) = true := by
  unfold Beats prefers
  rw [hw]
  rfl

theorem not_beats_of_no_weight {a : Analyzer α} (hw : a.weight = none) (t : Tracker α)
    (new old : Completion) : ¬ a.Beats t new old := by
  unfold Beats prefers
  rw [hw]
  exact Bool.false_ne_true

section Order

variable {a : Analyzer α} {t : Tracker α} {cs : List Completion} {c d e : Completion}

theorem Comparable.asymm (h : a.Comparable t cs) (hc : c ∈ cs) (hd : d ∈ cs)
    (hc' : c.isError = false) (hd' : d.isError = false) (hbeats : a.Beats t c d) :
    ¬ a.Beats t d c := by
  cases hw : a.weight with
  | none => exact not_beats_of_no_weight hw t d c
  | some w =>
    rw [beats_iff hw] at hbeats ⊢
    exact (h w hw).asymm ⟨d, hd, hd', rfl⟩ ⟨c, hc, hc', rfl⟩ hbeats

theorem Comparable.between (h : a.Comparable t cs) (hc : c ∈ cs) (hd : d ∈ cs) (he : e ∈ cs)
    (hc' : c.isError = false) (hd' : d.isError = false) (he' : e.isError = false)
    (hbeats : a.Beats t c d) : a.Beats t e d ∨ a.Beats t c e := by
  cases hw : a.weight with
  | none => exact absurd hbeats (not_beats_of_no_weight hw t c d)
  | some w =>
    rw [beats_iff hw] at hbeats
    rw [beats_iff hw, beats_iff hw]
    exact (h w hw).between ⟨d, hd, hd', rfl⟩ ⟨c, hc, hc', rfl⟩ ⟨e, he, he', rfl⟩ hbeats

/-! ## One completion more -/

theorem Chosen.mem (h : Chosen a t cs c) : c ∈ cs := by
  obtain ⟨before, after, rfl, -⟩ := h.first
  exact List.mem_append_right before List.mem_cons_self

/-- A further completion that is not usable, or does not beat `c`, leaves `c` chosen. -/
theorem Chosen.keep (h : Chosen a t cs c) (hkeep : d.isError = false → ¬ a.Beats t d c) :
    Chosen a t (cs ++ [d]) c := by
  obtain ⟨before, after, hcs, hfirst⟩ := h.first
  refine ⟨h.usable, fun other hother husable => ?_, before, after ++ [d], by simp [hcs],
    fun earlier hearlier husable => ?_⟩
  · rcases List.mem_append.1 hother with hother | hother
    · exact h.unbeaten other hother husable
    · rw [List.mem_singleton.1 hother] at husable ⊢
      exact hkeep husable
  · obtain ⟨other, hother, hrest⟩ := hfirst earlier hearlier husable
    exact ⟨other, List.mem_append_left _ hother, hrest⟩

/-- A further usable completion that beats `c` is chosen in its place. -/
theorem Chosen.replace (h : Chosen a t cs c) (hcomparable : a.Comparable t (cs ++ [d]))
    (husable : d.isError = false) (hbeats : a.Beats t d c) : Chosen a t (cs ++ [d]) d := by
  have hc : c ∈ cs ++ [d] := List.mem_append_left _ h.mem
  have hd : d ∈ cs ++ [d] := List.mem_append_right _ (List.mem_singleton_self d)
  refine ⟨husable, fun other hother husable' hless => ?_, cs, [], rfl,
    fun earlier hearlier husable' => ⟨d, hd, husable, ?_⟩⟩
  · -- whatever beats the new one beats the old one too, if it does not come before it
    rcases hcomparable.between hother hd hc husable' husable h.usable hless with hcd | hoc
    · exact hcomparable.asymm hd hc husable h.usable hbeats hcd
    · rcases List.mem_append.1 hother with hin | hin
      · exact h.unbeaten other hin husable' hoc
      · rw [List.mem_singleton.1 hin] at hless
        exact hcomparable.asymm hd hd husable husable hless hless
  · have hearlier' := List.mem_append_left [d] hearlier
    rcases hcomparable.between hd hc hearlier' husable h.usable husable' hbeats with hec | hde
    · exact absurd hec (h.unbeaten earlier hearlier husable')
    · exact hde

theorem chosen_of_errors (herrors : ∀ c ∈ cs, c.isError = true)
    (hcomparable : a.Comparable t (cs ++ [d])) (husable : d.isError = false) :
    Chosen a t (cs ++ [d]) d := by
  have hd : d ∈ cs ++ [d] := List.mem_append_right _ (List.mem_singleton_self d)
  refine ⟨husable, fun other hother husable' hbeats => ?_, cs, [], rfl,
    fun earlier hearlier husable' => ?_⟩
  · rcases List.mem_append.1 hother with hin | hin
    · rw [herrors other hin] at husable'
      cases husable'
    · rw [List.mem_singleton.1 hin] at hbeats
      exact hcomparable.asymm hd hd husable husable hbeats hbeats
  · rw [herrors earlier hearlier] at husable'
    cases husable'

end Order

/-! ## The choice -/

theorem best_concat (a : Analyzer α) (t : Tracker α) (cs : List Completion) (c : Completion) :
    a.best t (cs ++ [c]) = a.consider t (a.best t cs) c := List.foldl_concat ..

theorem best_eq_none_iff (a : Analyzer α) (t : Tracker α) (cs : List Completion) :
    a.best t cs = none ↔ ∀ c ∈ cs, c.isError = true := by
  refine ⟨best_eq_none, fun herrors => ?_⟩
  cases hbest : a.best t cs with
  | none => rfl
  | some d =>
    obtain ⟨c, hmem, husable, -⟩ := best_eq_some hbest
    rw [herrors c hmem] at husable
    cases husable

/-- What `best` answers is the `Chosen` completion. -/
theorem best_chosen {a : Analyzer α} {t : Tracker α} {cs : List Completion} {d : Candidate α}
    (hcomparable : a.Comparable t cs) (hbest : a.best t cs = some d) :
    ∃ c, Chosen a t cs c ∧ d = candidate t c := by
  induction cs using List.reverseRecOn generalizing d with
  | nil => cases hbest
  | append_singleton cs new ih =>
    rw [best_concat, consider] at hbest
    have hbefore := hcomparable.subset (List.subset_append_left cs [new])
    cases herror : new.isError with
    | true =>
      rw [herror, if_pos rfl] at hbest
      obtain ⟨c, hchosen, rfl⟩ := ih hbefore hbest
      exact ⟨c, hchosen.keep fun husable => absurd (herror.symm.trans husable) (by decide), rfl⟩
    | false =>
      rw [herror, if_neg Bool.false_ne_true] at hbest
      cases hso_far : a.best t cs with
      | none =>
        rw [hso_far] at hbest
        cases hbest
        exact ⟨new, chosen_of_errors (best_eq_none hso_far) hcomparable herror, rfl⟩
      | some old =>
        obtain ⟨c, hchosen, rfl⟩ := ih hbefore hso_far
        rw [hso_far, better] at hbest
        split at hbest
        · next hbeats =>
          cases hbest
          exact ⟨new, hchosen.replace hcomparable herror hbeats, rfl⟩
        · next hkeep =>
          cases hbest
          exact ⟨c, hchosen.keep fun _ => hkeep, rfl⟩

/-- `best` answers `none` exactly where no completion of `cs` is usable, and else the `Chosen` one
with its score. -/
structure Selects (a : Analyzer α) (t : Tracker α) (cs : List Completion) : Prop where
  none_iff : a.best t cs = none ↔ ∀ c ∈ cs, c.isError = true
  chosen : ∀ d, a.best t cs = some d → ∃ c, Chosen a t cs c ∧ d = candidate t c

theorem Comparable.selects {a : Analyzer α} {t : Tracker α} {cs : List Completion}
    (h : a.Comparable t cs) : Selects a t cs :=
  ⟨best_eq_none_iff a t cs, fun _ => best_chosen h⟩

/-! ## Weights -/

/-- The first usable completion of `cs` as a candidate. -/
def firstUsable (t : Tracker α) (cs : List Completion) : Option (Candidate α) :=
  (cs.find? fun c => !c.isError).map (candidate t)

/-- Where no completion beats another, the first usable one is the best. -/
theorem best_first {a : Analyzer α} {t : Tracker α} {cs : List Completion}
    (hnone : ∀ new old, ¬ a.Beats t new old) : a.best t cs = firstUsable t cs := by
  induction cs using List.reverseRecOn with
  | nil => rfl
  | append_singleton cs new ih =>
    rw [best_concat, consider, ih, firstUsable, firstUsable, List.find?_append]
    cases hfound : cs.find? fun c => !c.isError with
    | none =>
      cases herror : new.isError <;> simp [better, candidate, herror]
    | some old =>
      have hkeep : a.better (some (candidate t old)) (candidate t new) = some (candidate t old) :=
        if_neg (hnone new old)
      split
      · rfl
      · exact hkeep

section Binary64

variable {a : Analyzer Float}

theorem comparable_of_clampWeight {w : Float} (hw : a.weight = clampWeight w) (t : Tracker Float)
    (cs : List Completion) : a.Comparable t cs := by
  intro u hu
  refine Arith.ranked_float.mono ?_
  rintro x ⟨c, -, -, rfl⟩
  exact isNaN_worth (hw.symm.trans hu) (t.score_below c.text)

theorem weight_of_isNaN {w : Float} (hw : a.weight = clampWeight w) (hnan : w.isNaN = true) :
    a.weight = none :=
  hw.trans (if_pos hnan)

theorem not_beats_of_float_zero (hw : a.weight = some 0) (t : Tracker Float)
    (new old : Completion) : ¬ a.Beats t new old := by
  rw [beats_iff hw, Arith.less_float, unpack_worth_zero (t.score_below old.text),
    unpack_worth_zero (t.score_below new.text)]
  decide +kernel

end Binary64

section Exact

variable {a : Analyzer Rat} {w : Rat}

theorem comparable_rat (a : Analyzer Rat) (t : Tracker Rat) (cs : List Completion) :
    a.Comparable t cs := fun _ _ => Arith.ranked_rat _

/-- In fractions worths differ as novelties do, by the weight. -/
theorem beats_iff_weighted (hw : a.weight = some w) (t : Tracker Rat) (new old : Completion) :
    a.Beats t new old ↔ 0 < w * (t.score new.text - t.score old.text) := by
  have hless : a.Beats t new old ↔
      worth w (t.score old.text) < worth w (t.score new.text) :=
    (beats_iff hw t new old).trans decide_eq_true_iff
  have hworth : ∀ x : Rat, worth w x = ((1 : ℕ) : Rat) - w + w * x := fun _ => rfl
  rw [hless, hworth, hworth, add_lt_add_iff_left, ← sub_pos, ← mul_sub]

/-- With a positive weight, the more novel of two completions beats the other. -/
theorem beats_iff_score_lt (hw : a.weight = some w) (hpos : 0 < w) (t : Tracker Rat)
    (new old : Completion) : a.Beats t new old ↔ t.score old.text < t.score new.text := by
  rw [beats_iff_weighted hw, mul_pos_iff_of_pos_left hpos, sub_pos]

theorem not_beats_of_weight_zero (hw : a.weight = some 0) (t : Tracker Rat)
    (new old : Completion) : ¬ a.Beats t new old := by
  rw [beats_iff_weighted hw, zero_mul]
  exact lt_irrefl 0

/-- `c` is the earliest of the usable completions of `cs` whose score is the greatest. -/
structure MostNovel (t : Tracker Rat) (cs : List Completion) (c : Completion) : Prop where
  usable : c.isError = false
  greatest : ∀ other ∈ cs, other.isError = false → t.score other.text ≤ t.score c.text
  earliest : ∃ before after, cs = before ++ c :: after ∧ ∀ earlier ∈ before,
    earlier.isError = false → t.score earlier.text < t.score c.text

theorem Chosen.mostNovel (hw : a.weight = some w) (hpos : 0 < w) {t : Tracker Rat}
    {cs : List Completion} {c : Completion} (h : Chosen a t cs c) : MostNovel t cs c := by
  have hgreatest : ∀ other ∈ cs, other.isError = false → t.score other.text ≤ t.score c.text := by
    intro other hmem husable
    have hunbeaten := h.unbeaten other hmem husable
    rw [beats_iff_score_lt hw hpos] at hunbeaten
    exact not_lt.1 hunbeaten
  obtain ⟨before, after, hcs, hfirst⟩ := h.first
  refine ⟨h.usable, hgreatest, before, after, hcs, fun earlier hmem husable => ?_⟩
  obtain ⟨other, hother, husable', hbeats⟩ := hfirst earlier hmem husable
  rw [beats_iff_score_lt hw hpos] at hbeats
  exact hbeats.trans_le (hgreatest other hother husable')

end Exact

/-! ## The choice in an analysis -/

omit [Arith α] in
theorem length_completions {a : Analyzer α} {client : Client} {prompt : Text} {n : Nat}
    {s s' : Session} {cs : List Completion}
    (h : a.completions client prompt n s = (.ok cs, s')) : cs.length = n := by
  induction n generalizing s cs with
  | zero =>
    cases h
    rfl
  | succ n ih =>
    rw [completions] at h
    split at h
    · cases h
    next c s₁ hcomplete =>
    split at h
    · cases h
    next rest s₂ hrest =>
    cases h
    exact congrArg (· + 1) (ih hrest)

/-- What an analysis comes from: the interviews `es` were led, the record has the best candidate of
each, chosen with the tracker `t` from before, and the record is observed once. -/
structure Weighed (a : Analyzer α) (client : Client) (t : Tracker α) (item : Item)
    (s : Session) (es : List Interview) (an : Analysis α) (s' : Session) : Prop where
  roster : es.map Interview.persona = Persona.roster
  heard : Heard a client item s es s'
  count : ∀ e ∈ es, e.completions.length = max a.candidates 1
  record : an.record = es.filterMap (Interview.answer? a t item)
  observed : (an.tracker, an.baseline) = t.observe an.record

theorem analyze_weighed {a : Analyzer α} {client : Client} {t : Tracker α} {item : Item}
    {s s' : Session} {an : Analysis α} (h : a.analyze client t item s = (.ok an, s')) :
    ∃ es, Weighed a client t item s es an s' := by
  obtain ⟨es, hroster, hheard, hrecord, -⟩ := analyze_eq_ok h
  refine ⟨es, hroster, hheard, fun e he => ?_, hrecord, ?_⟩
  · obtain ⟨s₀, s₁, hcs⟩ := hheard.completions he
    exact length_completions hcs
  · unfold analyze at h
    split at h
    · cases h
    · cases h
      rfl

/-- **The earliest of the best completions is recorded.** In binary64, for every weight that
`clampWeight` lets through, `best` selects the first usable completion that no other `Beats`, and
the `firstUsable` one if the weight is zero or no number. In fractions, with a positive weight, it
is the earliest one that is `MostNovel`. -/
theorem best_earliest :
    (∀ (a : Analyzer Float) (w : Float), a.weight = clampWeight w →
      ∀ (t : Tracker Float) (cs : List Completion), Selects a t cs ∧
        (w.isNaN = true ∨ a.weight = some 0 → a.best t cs = firstUsable t cs)) ∧
    (∀ (a : Analyzer Rat) (t : Tracker Rat) (cs : List Completion), Selects a t cs ∧
      (∀ w, a.weight = some w → 0 < w → ∀ d, a.best t cs = some d →
        ∃ c, MostNovel t cs c ∧ d = candidate t c) ∧
      (a.weight = none ∨ a.weight = some 0 → a.best t cs = firstUsable t cs)) ∧
    ∀ (a : Analyzer Float) (client : Client) (t : Tracker Float) (item : Item) (s : Session),
      (client.Stands → s.Untimed → ∃ an s', a.analyze client t item s = (.ok an, s')) ∧
      ∀ an s', a.analyze client t item s = (.ok an, s') →
        ∃ es, Weighed a client t item s es an s' := by
  refine ⟨fun a w hw t cs => ⟨(comparable_of_clampWeight hw t cs).selects, ?_⟩,
    fun a t cs => ⟨(comparable_rat a t cs).selects, fun w hw hpos d hbest => ?_, ?_⟩,
    fun a client t item s => ⟨fun hc hs => ?_, fun an s' h => analyze_weighed h⟩⟩
  · rintro (hnan | hzero)
    · exact best_first (not_beats_of_no_weight (weight_of_isNaN hw hnan) t)
    · exact best_first (not_beats_of_float_zero hzero t)
  · obtain ⟨c, hchosen, hd⟩ := best_chosen (comparable_rat a t cs) hbest
    exact ⟨c, hchosen.mostNovel hw hpos, hd⟩
  · rintro (hnone | hzero)
    · exact best_first (not_beats_of_no_weight hnone t)
    · exact best_first (not_beats_of_weight_zero hzero t)
  · obtain ⟨an, s', h, -⟩ := a.analyze_untimed hc t item hs
    exact ⟨an, s', h⟩

/-- A failure, and two completions of which neither is more novel. -/
theorem best_earliest_tie :
    let cs : List Completion :=
      [⟨"Error: busy".toList⟩, ⟨"topic: ships".toList⟩, ⟨"mood: calm".toList⟩]
    let a : Analyzer Float := .ofSettings .default .default
    let exact : Analyzer Rat := ⟨a.inference, a.candidates, a.maxPrompt, some (1 / 2)⟩
    let item := Item.text "some clipboard text".toList
    let client := Client.constant "topic: ships".toList
    a.weight = clampWeight 0.3 ∧ (0 : Rat) < 1 / 2 ∧ client.Stands ∧ Session.fresh.Untimed ∧
    (∃ c, Chosen a (.fresh 10 0) cs c) ∧
    (exact.best (.fresh 10 0) cs).map Candidate.text = some "topic: ships".toList ∧
    (∃ c, MostNovel (.fresh 10 0) cs c) ∧
    ∃ an s' es, a.analyze client (.fresh 10 0) item .fresh = (.ok an, s') ∧
      Weighed a client (.fresh 10 0) item .fresh es an s' := by
  intro cs a exact item client
  obtain ⟨hfloat, hrat, hanalyze⟩ := best_earliest
  have hc : client.Stands := (Client.constant_opens _).stands
  have husable : ¬ ∀ c ∈ cs, c.isError = true := by decide +kernel
  have hfound : (exact.best (.fresh 10 0) cs).map Candidate.text = some "topic: ships".toList := by
    decide +kernel
  refine ⟨rfl, by norm_num, hc, rfl, ?_, hfound, ?_, ?_⟩
  · obtain ⟨hnone, hchosen⟩ := (hfloat a 0.3 rfl (.fresh 10 0) cs).1
    obtain ⟨d, hd⟩ := Option.ne_none_iff_exists'.1 fun hbest => husable (hnone.1 hbest)
    obtain ⟨c, hc, -⟩ := hchosen d hd
    exact ⟨c, hc⟩
  · obtain ⟨d, hd, -⟩ := Option.map_eq_some_iff.1 hfound
    obtain ⟨c, hc, -⟩ := (hrat exact (.fresh 10 0) cs).2.1 (1 / 2) rfl (by norm_num) d hd
    exact ⟨c, hc⟩
  · obtain ⟨an, s', han⟩ := (hanalyze a client (.fresh 10 0) item .fresh).1 hc rfl
    obtain ⟨es, hweighed⟩ := (hanalyze a client (.fresh 10 0) item .fresh).2 an s' han
    exact ⟨an, s', es, han, hweighed⟩

end ClipLedger.Analyzer
