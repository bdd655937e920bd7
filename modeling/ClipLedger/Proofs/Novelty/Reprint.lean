import ClipLedger.Proofs.Novelty.Tracker
import ClipLedger.Proofs.Text.PairForm

/-
  Novelty of texts that were printed anew from their pairs. A tracker sees nothing of a response but
  its pairs (`observeResponse_reprint`), and what it learns does not depend on the history that it
  keeps (`observe_forget`). So after any run of records whose responses were printed anew, it has
  the counts, the statistics and the scores that the original responses would have given
  (`observeAll_reprinted`).
-/
namespace ClipLedger

/-- The answer with nothing of its response but the pairs, printed one on a line. -/
def Answer.reprinted {α : Type} (a : Answer α) : Answer α :=
  { a with response := Pair.render (Text.pairs a.response) }

namespace Tracker

variable {α : Type}

/-- The tracker without its history. -/
def forget (t : Tracker α) : Tracker α := { t with history := [] }

theorem observeResponse_reprint (t : Tracker α) (response : Text) :
    t.observeResponse (Pair.render (Text.pairs response)) = t.observeResponse response := by
  unfold observeResponse
  rw [Text.pairs_render_pairs]

theorem observeResponses_reprint (t : Tracker α) (responses : List Text) :
    t.observeResponses (responses.map fun r => Pair.render (Text.pairs r)) =
      t.observeResponses responses := by
  induction responses generalizing t with
  | nil => rfl
  | cons response rest ih =>
    rw [List.map_cons, observeResponses, observeResponses, observeResponse_reprint]
    dsimp only
    rw [ih]

/-! ## What is learned without the history -/

theorem observeResponse_forget (t : Tracker α) (response : Text) :
    t.forget.observeResponse response =
      ((t.observeResponse response).1.forget, (t.observeResponse response).2) := by
  obtain ⟨historySize, period, history, keys, values, collected⟩ := t
  cases collected with
  | none => rfl
  | some collected =>
    unfold observeResponse forget
    dsimp only
    split <;> rfl

theorem observeResponses_forget (t : Tracker α) (responses : List Text) :
    t.forget.observeResponses responses =
      ((t.observeResponses responses).1.forget, (t.observeResponses responses).2) := by
  induction responses generalizing t with
  | nil => rfl
  | cons response rest ih =>
    rw [observeResponses, observeResponses, observeResponse_forget]
    dsimp only
    rw [ih]

/-- But for the history, observing a record is observing its responses. -/
theorem observe_forget (t : Tracker α) (r : Record α) :
    ((t.observe r).1.forget, (t.observe r).2) =
      t.forget.observeResponses (r.map Answer.response) := by
  have hremember (u : Tracker α) : (u.remember r).forget = u.forget := by
    unfold remember
    split <;> rfl
  rw [observeResponses_forget]
  unfold observe
  dsimp only
  rw [hremember]

theorem observe_reprinted {t u : Tracker α} (h : t.forget = u.forget) (r : Record α) :
    (t.observe (r.map Answer.reprinted)).1.forget = (u.observe r).1.forget ∧
      (t.observe (r.map Answer.reprinted)).2 = (u.observe r).2 := by
  have hresponses : (r.map Answer.reprinted).map Answer.response =
      (r.map Answer.response).map fun x => Pair.render (Text.pairs x) := by
    rw [List.map_map, List.map_map]
    rfl
  have hsame := observe_forget t (r.map Answer.reprinted)
  rw [hresponses, observeResponses_reprint, h, ← observe_forget u r] at hsame
  exact Prod.mk.inj hsame

/-! ## Runs -/

theorem observeAll_reprinted_forget {t u : Tracker α} (h : t.forget = u.forget)
    (records : List (Record α)) :
    (t.observeAll (records.map (List.map Answer.reprinted))).1.forget =
        (u.observeAll records).1.forget ∧
      (t.observeAll (records.map (List.map Answer.reprinted))).2 = (u.observeAll records).2 := by
  induction records generalizing t u with
  | nil => exact ⟨h, rfl⟩
  | cons r rest ih =>
    obtain ⟨hfirst, hmetrics⟩ := observe_reprinted h r
    obtain ⟨hrest, hlater⟩ := ih hfirst
    refine ⟨hrest, ?_⟩
    rw [List.map_cons, observeAll, observeAll]
    dsimp only
    rw [hmetrics, hlater]

/-- **The pairs of a text are its normal form.** Pairs that are `Normal` are read as `render`
printed them, and what is read is normal. A tracker that observes every response printed anew has
the same tallies, gives the same statistics, and scores each text, printed anew, as before. -/
theorem observeAll_reprinted [Arith α] :
    (∀ ps : List Pair, (∀ p ∈ ps, p.Normal) → Text.pairs (Pair.render ps) = ps) ∧
    (∀ text, ∀ p ∈ Text.pairs text, p.Normal) ∧
    (∀ text, Text.pairs (Pair.render (Text.pairs text)) = Text.pairs text) ∧
    ∀ (t : Tracker α) (records : List (Record α)),
      let u := t.observeAll records
      let u' := t.observeAll (records.map (List.map Answer.reprinted))
      u'.1.keys = u.1.keys ∧ u'.1.values = u.1.values ∧ u'.2 = u.2 ∧
        ∀ text, u'.1.score (Pair.render (Text.pairs text)) = u.1.score text := by
  refine ⟨fun ps => Text.pairs_render, fun text p => Text.normal_of_mem_pairs,
    Text.pairs_render_pairs, fun t records => ?_⟩
  intro u u'
  obtain ⟨hlearned, hmetrics⟩ : u'.1.forget = u.1.forget ∧ u'.2 = u.2 :=
    observeAll_reprinted_forget rfl records
  have hkeys : u'.1.forget.keys = u.1.forget.keys := by rw [hlearned]
  have hvalues : u'.1.forget.values = u.1.forget.values := by rw [hlearned]
  refine ⟨hkeys, hvalues, hmetrics, fun text => ?_⟩
  unfold score
  rw [Text.pairs_render_pairs]
  show u'.1.forget.scorePairs _ = u.1.forget.scorePairs _
  rw [hlearned]

/-- A carriage return inside a key, an empty value, and colons and wide blanks inside values. -/
theorem observeAll_reprinted_uneven :
    let ps : List Pair := [⟨"to\rpic".toList, []⟩, ⟨"time".toList, "12:30:\u3000late".toList⟩]
    let said (response : Text) : Record Rat := [⟨[], response, 0, .naturalText, [], []⟩]
    let text := "\u00a0to\rpic :\r\n: orphan\nno pair\ntime:12:30:\u3000late\r".toList
    (∀ p ∈ ps, p.Normal) ∧ Text.pairs (Pair.render ps) = ps ∧ Text.pairs text = ps ∧
      ((fresh 2 1).observe (said (Pair.render ps))).1.score (Pair.render ps) =
        ((fresh 2 1).observe (said text)).1.score text := by
  intro ps said text
  have hnormal : ∀ p ∈ ps, p.Normal := by decide +kernel
  have hread : Text.pairs text = ps := by decide +kernel
  obtain ⟨hprint, -, -, htracker⟩ := observeAll_reprinted (α := Rat)
  have hsaid : (said text).map Answer.reprinted = said (Pair.render ps) := by
    rw [← hread]
    rfl
  have hscore := (htracker (fresh 2 1) [said text]).2.2.2 text
  rw [List.map_cons, hsaid, hread] at hscore
  exact ⟨hnormal, hprint ps hnormal, hread, hscore⟩

end Tracker
end ClipLedger
