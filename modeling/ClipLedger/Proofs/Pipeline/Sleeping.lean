import ClipLedger.Proofs.Pipeline.Stepping
import Mathlib.Logic.Relation

/-
  How time goes on while no loop has anything to do. `Reaches` is some number of `Step`s. A state
  `Sleeps` to `target` where no timer but those that are only renewed runs out before `target`:
  the collector sleeps as long at least, the reporter waits, and the worker `Dozes`. From there
  `Sleeps.reaches` leads to the same state at the time `target`, but for the timers that were
  renewed. It is proved by `step_wellFounded`, whatever the moves in between are.
-/
namespace ClipLedger

namespace Pipeline

variable {p : Pipeline} {deadline target : Nat} {reading : Nat → Reading} {t t' : Tasks}
  {s : PipelineState}

/-- Some number of steps leads from the one state to the other. -/
def Reaches (p : Pipeline) (deadline : Nat) (reading : Nat → Reading) : Tasks → Tasks → Prop :=
  Relation.ReflTransGen (p.Step deadline reading)

theorem Reaches.refl (t : Tasks) : p.Reaches deadline reading t t := Relation.ReflTransGen.refl

theorem Reaches.trans {t₁ : Tasks} (h : p.Reaches deadline reading t t₁)
    (h' : p.Reaches deadline reading t₁ t') : p.Reaches deadline reading t t' :=
  Relation.ReflTransGen.trans h h'

theorem Reaches.move (m : LoopMove) (hgoes : t.ended = false)
    (h : p.act? deadline reading t m = some t') : p.Reaches deadline reading t t' :=
  Relation.ReflTransGen.single (.move m hgoes h)

/-- What is `Inevitable` holds where a run has ended, if it says of the run that it has. -/
theorem Inevitable.of_reaches {goal : Tasks → Prop} (h : Inevitable p deadline reading goal t)
    (hgoal : ∀ t, goal t → t.ended = true) (hreaches : p.Reaches deadline reading t t')
    (hended : t'.ended = true) : goal t' := by
  induction h with
  | @reached t h =>
    rcases Relation.ReflTransGen.cases_head hreaches with rfl | ⟨t₁, hstep, -⟩
    · exact h
    · exact absurd hstep (not_step_of_ended (hgoal t h))
  | later hgoes h ih =>
    rcases Relation.ReflTransGen.cases_head hreaches with rfl | ⟨t₁, hstep, hrest⟩
    · obtain ⟨t₁, hstep⟩ := hgoes
      exact absurd hstep (not_step_of_ended hended)
    · exact ih t₁ hstep hrest

theorem goes_of_waits (h : t.reporter.Waits) : t.ended = false := by
  obtain ⟨due, hr⟩ := h
  unfold Tasks.ended
  rw [hr]

/-- Before `target` the worker has nothing to do but to pop again. -/
inductive Dozes (target : Nat) (s : PipelineState) : Processor → Prop
  | free {q : Processor} (hq : q.Free) (hempty : s.queue.items = []) : Dozes target s q
  | analysing {due : Nat} {item : Item} {a : Analysis Float} {rest : List Item}
      (h : target ≤ due) : Dozes target s (.analysing due item a rest)
  | pausing {due : Nat} {rest : List Item} (h : target ≤ due) : Dozes target s (.pausing due rest)
  | breaking {time : Nat} (h : target ≤ time) : Dozes target s (.breaking time)
  | cutOff : Dozes target s .cutOff

/-- The worker is the same, or was `Free` and is. -/
def StillDozes (q q' : Processor) : Prop := q' = q ∨ q.Free ∧ q'.Free

theorem StillDozes.trans {q₁ q₂ q₃ : Processor} (h : StillDozes q₁ q₂) (h' : StillDozes q₂ q₃) :
    StillDozes q₁ q₃ := by
  rcases h with rfl | ⟨hq₁, hq₂⟩
  · exact h'
  · rcases h' with rfl | ⟨-, hq₃⟩
    · exact .inr ⟨hq₁, hq₂⟩
    · exact .inr ⟨hq₁, hq₃⟩

theorem Dozes.still {q q' : Processor} (h : Dozes target s q)
    (hstill : StillDozes q q') : Dozes target s q' := by
  rcases hstill with rfl | ⟨hq, hq'⟩
  · exact h
  · cases h with
    | free _ hempty => exact .free hq' hempty
    | analysing => cases hq
    | pausing => cases hq
    | breaking => cases hq
    | cutOff => cases hq

/-- A move of a worker that dozes makes it pop again, or end that. -/
theorem Dozes.step (h : Dozes target t.state t.processor) (hclock : t.clock < target)
    (hstep : p.processorAct? deadline t = some t' ∨ giveUp? t = some t') :
    ∃ q, t' = { t with processor := q } ∧ StillDozes t.processor q := by
  obtain ⟨s, clock, looks, collector, q, results, reporter⟩ := t
  cases h with
  | free hq hempty =>
    obtain ⟨q', hq', rfl⟩ := free_step hq hempty hstep
    exact ⟨q', rfl, .inr ⟨hq, hq'⟩⟩
  | analysing hdue =>
    rcases hstep with hstep | hstep
    · exact absurd (Tasks.since?_eq_some.1 hstep).1 (by dsimp only at hclock ⊢; omega)
    · cases hstep
  | pausing hdue =>
    rcases hstep with hstep | hstep
    · exact absurd (Tasks.since?_eq_some.1 hstep).1 (by dsimp only at hclock ⊢; omega)
    · cases hstep
  | breaking hdue =>
    rcases hstep with hstep | hstep
    · exact absurd (Tasks.since?_eq_some.1 hstep).1 (by dsimp only at hclock ⊢; omega)
    · cases hstep
  | cutOff => rcases hstep with hstep | hstep <;> cases hstep

theorem Dozes.ne_gone {q : Processor} (h : Dozes target s q) : q ≠ .gone := by
  cases h with
  | free hq => exact hq.ne_gone
  | analysing => exact Processor.noConfusion
  | pausing => exact Processor.noConfusion
  | breaking => exact Processor.noConfusion
  | cutOff => exact Processor.noConfusion

/-- Nothing is to be done before `target`, and some timer runs out then: the collector's, the
deadline, or that of a worker that is not `Free`. -/
structure Sleeps (deadline target : Nat) (t : Tasks) : Prop where
  results : t.results = []
  reporter : t.reporter.Waits
  collector : ∃ next, t.collector = .sleeping next ∧ target ≤ next
  within : target ≤ deadline
  early : t.clock ≤ target
  processor : Dozes target t.state t.processor
  timer : t.collector = .sleeping target ∨ target = deadline ∨
    ¬ t.processor.Free ∧ t.processor.timer? = some target

theorem Sleeps.alarm_le (h : Sleeps deadline target t) :
    t.alarm deadline ≤ target := by
  rcases h.timer with htimer | rfl | ⟨-, htimer⟩
  · unfold Tasks.alarm
    rw [htimer]
    exact Nat.min_le_left _ _
  · exact Pipeline.alarm_le _ t
  · unfold Tasks.alarm
    rw [htimer]
    exact Nat.le_trans (Nat.min_le_right _ _) (Nat.min_le_left _ _)

/-- A move before `target` renews what a `Free` worker or the reporter waits for. -/
theorem Sleeps.move (h : Sleeps deadline target t) (hclock : t.clock < target)
    {m : LoopMove} (hm : p.act? deadline reading t m = some t') :
    ∃ q r, t' = { t with processor := q, reporter := r } ∧ StillDozes t.processor q ∧ r.Waits := by
  obtain ⟨next, hsleeping, hnext⟩ := h.collector
  obtain ⟨due, hdue⟩ := h.reporter
  have hworker : p.processorAct? deadline t = some t' ∨ giveUp? t = some t' →
      ∃ q r, t' = { t with processor := q, reporter := r } ∧ StillDozes t.processor q ∧
        r.Waits := by
    intro hstep
    obtain ⟨q, rfl, hq⟩ := h.processor.step hclock hstep
    exact ⟨q, t.reporter, rfl, hq, h.reporter⟩
  cases m with
  | collect =>
    have hcollect : p.collectorAct? reading t = some t' := hm
    unfold collectorAct? at hcollect
    rw [hsleeping] at hcollect
    exact absurd (Tasks.since?_eq_some.1 hcollect).1 (by omega)
  | work => exact hworker (.inl hm)
  | giveUp => exact hworker (.inr hm)
  | receive =>
    obtain ⟨-, done, rest, -, hresults, -⟩ := receive?_eq_some hm
    rw [h.results] at hresults
    cases hresults
  | report =>
    obtain ⟨done, hr, -⟩ := report?_eq_some hm
    rw [hdue] at hr
    cases hr
  | lapse =>
    obtain ⟨-, -, -, rfl⟩ := lapse?_eq_some hm
    exact ⟨t.processor, _, rfl, .inl rfl, _, rfl⟩
  | stop =>
    obtain ⟨-, -, hlate, -⟩ := stop?_eq_some hm
    exact absurd (Nat.lt_of_lt_of_le hclock h.within) (Nat.not_lt.2 hlate)
  | close =>
    obtain ⟨-, -, hgone, -⟩ := close?_eq_some hm
    exact absurd hgone h.processor.ne_gone

/-- Time goes on to `target`, and only the `Free` worker and the reporter are renewed meanwhile. -/
theorem Sleeps.reaches (reading : Nat → Reading) (hpoll : 0 < p.performance.pollInterval)
    (h : Sleeps deadline target t) : ∃ q r, StillDozes t.processor q ∧ r.Waits ∧
      p.Reaches deadline reading t { t with clock := target, processor := q, reporter := r } := by
  induction t using (step_wellFounded hpoll deadline reading).induction with
  | _ t ih =>
    have hgoes := goes_of_waits h.reporter
    by_cases htarget : t.clock = target
    · exact ⟨t.processor, t.reporter, .inl rfl, h.reporter, htarget ▸ .refl t⟩
    have hclock : t.clock < target := Nat.lt_of_le_of_ne h.early htarget
    by_cases hstuck : ∀ m, p.act? deadline reading t m = none
    · have hstep : p.Step deadline reading t _ := .pass hgoes hstuck
      obtain ⟨q, r, hq, hr, hreaches⟩ := ih _ hstep
        ⟨h.results, h.reporter, h.collector, h.within, h.alarm_le, h.processor, h.timer⟩
      exact ⟨q, r, hq, hr, .trans (Relation.ReflTransGen.single hstep) hreaches⟩
    · obtain ⟨m, hm⟩ := Classical.not_forall.1 hstuck
      obtain ⟨t', ht'⟩ := Option.isSome_iff_exists.1 (Option.isSome_iff_ne_none.2 hm)
      obtain ⟨q, r, rfl, hq, hr⟩ := h.move hclock ht'
      have htimer : t.collector = .sleeping target ∨ target = deadline ∨
          ¬ q.Free ∧ q.timer? = some target := by
        rcases h.timer with htimer | htimer | ⟨hnot, htimer⟩
        · exact .inl htimer
        · exact .inr (.inl htimer)
        · rcases hq with rfl | ⟨hfree, -⟩
          · exact .inr (.inr ⟨hnot, htimer⟩)
          · exact absurd hfree hnot
      obtain ⟨q', r', hq', hr', hreaches⟩ := ih _ (.move m hgoes ht')
        ⟨h.results, hr, h.collector, h.within, h.early, h.processor.still hq, htimer⟩
      exact ⟨q', r', hq.trans hq', hr', .trans (.move m hgoes ht') hreaches⟩

theorem Dozes.of_timer {q : Processor} (hbusy : ¬ q.Free) (htimer : q.timer? = some target) :
    Dozes target s q := by
  unfold Processor.timer? at htimer
  split at htimer
  · exact absurd (.popping _) hbusy
  · cases htimer
    exact .analysing (Nat.le_refl _)
  · cases htimer
    exact .pausing (Nat.le_refl _)
  · cases htimer
    exact .breaking (Nat.le_refl _)
  · cases htimer

end Pipeline
end ClipLedger
