import ClipLedger.Proofs.Analyzer

/-
  How an analysis fares in time. At a client that opens every stream at the first attempt it takes
  none, and what comes of it does not depend on what time it is (`analyze_instant`). At a client
  that stands it may be cut off when time is up, but it never breaks down (`analyze_unbroken`). At
  any client it ends, or breaks off, before the deadline (`analyze_inTime`).
-/
namespace ClipLedger

/-- `f` succeeds without letting time go by, with the same answer at every time and deadline. -/
def Session.Instant {ε α : Type} (f : Session → Except ε α × Session) : Prop :=
  ∀ sent, ∃ a sent', ∀ clock deadline,
    f ⟨sent, clock, deadline⟩ = (.ok a, ⟨sent', clock, deadline⟩)

open Session (Instant)

theorem Inference.complete_instant (i : Inference) {client : Client} (hc : client.Opens)
    (prompt : Text) : Instant (i.complete client prompt) := by
  intro sent
  obtain ⟨events, hevents⟩ := hc sent (i.request prompt)
  exact ⟨⟨StreamEvent.collect i.maxResponse events⟩, sent.push (i.request prompt),
    fun clock deadline => i.complete_of_stream (s := ⟨sent, clock, deadline⟩) hevents⟩

namespace Analyzer

variable {α : Type}

theorem completions_instant (a : Analyzer α) {client : Client} (hc : client.Opens) (prompt : Text)
    (n : Nat) : Instant (a.completions client prompt n) := by
  induction n with
  | zero => exact fun sent => ⟨[], sent, fun _ _ => rfl⟩
  | succ n ih =>
    intro sent
    obtain ⟨c, sent₁, hcomplete⟩ := a.inference.complete_instant hc prompt sent
    obtain ⟨cs, sent₂, hrest⟩ := ih sent₁
    refine ⟨c :: cs, sent₂, fun clock deadline => ?_⟩
    rw [completions, hcomplete]
    dsimp only
    rw [hrest]

variable [Arith α]

theorem ask_instant (a : Analyzer α) {client : Client} (hc : client.Opens) (t : Tracker α)
    (item : Item) {p : Persona} (hp : p ∈ Persona.roster) (r : Record α) :
    Instant (a.ask client t item p r) := by
  intro sent
  obtain ⟨prompt, hprompt⟩ := Persona.prompt_of_mem_roster hp (ContentClass.ofItem item)
    r.thoughts item a.maxPrompt
  obtain ⟨cs, sent', hcs⟩ := a.completions_instant hc prompt (max a.candidates 1) sent
  unfold ask
  cases hbest : a.best t cs with
  | none =>
    refine ⟨r, sent', fun clock deadline => ?_⟩
    simp only [hprompt, hcs, hbest]
  | some c =>
    refine ⟨r ++ [a.answer p (ContentClass.ofItem item) r.thoughts c], sent',
      fun clock deadline => ?_⟩
    simp only [hprompt, hcs, hbest]

theorem askAll_instant (a : Analyzer α) {client : Client} (hc : client.Opens) (t : Tracker α)
    (item : Item) {ps : List Persona} (hps : ∀ p ∈ ps, p ∈ Persona.roster) (r : Record α) :
    Instant (a.askAll client t item ps r) := by
  induction ps generalizing r with
  | nil => exact fun sent => ⟨r, sent, fun _ _ => rfl⟩
  | cons p ps ih =>
    rw [List.forall_mem_cons] at hps
    intro sent
    obtain ⟨r₁, sent₁, hask⟩ := a.ask_instant hc t item hps.1 r sent
    obtain ⟨r₂, sent₂, hrest⟩ := ih hps.2 r₁ sent₁
    refine ⟨r₂, sent₂, fun clock deadline => ?_⟩
    rw [askAll, hask]
    exact hrest clock deadline

/-- **An analysis takes no time at a client that opens every stream at once.** -/
theorem analyze_instant (a : Analyzer α) {client : Client} (hc : client.Opens) (t : Tracker α)
    (item : Item) : Instant (a.analyze client t item) := by
  intro sent
  obtain ⟨r, sent', hall⟩ := a.askAll_instant hc t item (fun _ hp => hp) [] sent
  exact ⟨_, sent', fun clock deadline => analyze_of_askAll (hall clock deadline)⟩

end Analyzer

/-! ## What does not break down -/

theorem RetryPolicy.tryAgain_unbroken {σ ε α : Type} {operate : σ → Attempt ε α × σ}
    {pause : σ → Option σ} (h : ∀ s, (operate s).1 ≠ .halted .breakdown) (n : Nat) (s : σ) :
    (tryAgain operate pause n s).1 ≠ .halted .breakdown := by
  induction n generalizing s with
  | zero => exact h s
  | succ n ih =>
    have hfirst := h s
    rw [tryAgain]
    split
    · split
      · exact fun h => by cases h
      · exact ih _
    · exact hfirst

theorem Inference.complete_unbroken (i : Inference) {client : Client} (hc : client.Stands)
    (prompt : Text) (s : Session) : (i.complete client prompt s).1 ≠ .error .breakdown := by
  have hopen : ∀ s, (openStream client (i.request prompt) s).1 ≠ .halted .breakdown := by
    intro s
    have hstands := hc s.sent (i.request prompt)
    unfold openStream Session.send
    cases ho : client.answer s.sent (i.request prompt) with
    | stream events => exact fun h => by cases h
    | refused e => exact fun h => by cases h
    | breakdown => exact absurd ho hstands
  have hrun : (i.policy.run (openStream client (i.request prompt)) (fun d s => s.wait d) s).1 ≠
      .halted .breakdown := RetryPolicy.tryAgain_unbroken hopen _ s
  unfold complete
  split
  · exact fun h => by cases h
  · exact fun h => by cases h
  · next h s' heq =>
    rw [heq] at hrun
    intro he
    cases he
    exact hrun rfl

namespace Analyzer

variable {α : Type}

theorem completions_unbroken (a : Analyzer α) {client : Client} (hc : client.Stands)
    (prompt : Text) (n : Nat) (s : Session) :
    (a.completions client prompt n s).1 ≠ .error .breakdown := by
  induction n generalizing s with
  | zero => exact fun h => by cases h
  | succ n ih =>
    have hfirst := a.inference.complete_unbroken hc prompt s
    rw [completions]
    split
    · next h s' heq =>
      rw [heq] at hfirst
      exact fun he => hfirst (by cases he; rfl)
    · next c s' heq =>
      have hrest := ih s'
      split
      · next h s'' heq' =>
        rw [heq'] at hrest
        exact fun he => hrest (by cases he; rfl)
      · exact fun h => by cases h

variable [Arith α]

theorem ask_unbroken (a : Analyzer α) {client : Client} (hc : client.Stands) (t : Tracker α)
    (item : Item) (p : Persona) (r : Record α) (s : Session) :
    (a.ask client t item p r s).1 ≠ .error (.halt .breakdown) := by
  unfold ask
  dsimp only
  split
  · exact fun h => by cases h
  · next prompt _ =>
    have hcompletions := a.completions_unbroken hc prompt (max a.candidates 1) s
    split
    · next h s' heq =>
      rw [heq] at hcompletions
      exact fun he => hcompletions (by cases he; rfl)
    · split
      · exact fun h => by cases h
      · exact fun h => by cases h

/-- **For a client that `Stands`, no analysis ends with a breakdown.** -/
theorem analyze_unbroken (a : Analyzer α) {client : Client} (hc : client.Stands) (t : Tracker α)
    (item : Item) (s : Session) :
    (a.analyze client t item s).1 ≠ .error (.halt .breakdown) := by
  have hall : ∀ ps r s, (a.askAll client t item ps r s).1 ≠ .error (.halt .breakdown) := by
    intro ps
    induction ps with
    | nil => exact fun r s h => by cases h
    | cons p ps ih =>
      intro r s
      have hfirst := a.ask_unbroken hc t item p r s
      rw [askAll]
      split
      · next e s' heq =>
        rw [heq] at hfirst
        exact fun he => hfirst (by cases he; rfl)
      · exact ih _ _
  have hroster := hall Persona.roster [] s
  unfold analyze
  split
  · next e s' heq =>
    rw [heq] at hroster
    exact fun he => hroster (by cases he; rfl)
  · exact fun h => by cases h

end Analyzer
/-! ## Within the deadline -/

/-- What every part of a conversation keeps: the deadline, the order of time, and that the deadline
has not come. -/
structure Session.InTime (s s' : Session) : Prop where
  deadline : s'.deadline = s.deadline
  le : s.clock ≤ s'.clock
  before : ∀ d, s.deadline = some d → s.clock < d → s'.clock < d

namespace Session.InTime

variable {s s₁ s' : Session}

theorem refl (s : Session) : s.InTime s := ⟨rfl, Nat.le_refl _, fun _ _ h => h⟩

theorem trans (h : s.InTime s₁) (h' : s₁.InTime s') : s.InTime s' :=
  ⟨h'.deadline.trans h.deadline, Nat.le_trans h.le h'.le,
    fun d hd hs => h'.before d (h.deadline.trans hd) (h.before d hd hs)⟩

theorem of_wait {delay : Nat} (h : s.wait delay = some s') : s.InTime s' := by
  unfold wait at h
  dsimp only at h
  split at h
  · next hnone =>
    cases h
    exact ⟨rfl, Nat.le_add_right _ _, fun d hd => absurd (hnone.symm.trans hd) (by simp)⟩
  · next deadline hsome =>
    split at h
    · next hlt =>
      cases h
      refine ⟨rfl, Nat.le_add_right _ _, fun d hd _ => ?_⟩
      obtain rfl := Option.some.inj (hsome.symm.trans hd)
      exact hlt
    · cases h

end Session.InTime

open Session (InTime)

theorem RetryPolicy.tryAgain_inTime {ε α : Type}
    {operate : Session → Attempt ε α × Session} {pause : Session → Option Session}
    (hoperate : ∀ s : Session, s.InTime (operate s).2)
    (hpause : ∀ s s', pause s = some s' → s.InTime s')
    (n : Nat) (s : Session) : s.InTime (tryAgain operate pause n s).2 := by
  induction n generalizing s with
  | zero => exact hoperate s
  | succ n ih =>
    have hfirst := hoperate s
    rw [tryAgain]
    split
    · next e s₁ h =>
      have hs₁ : s.InTime s₁ := snd_of_eq h hfirst
      split
      · exact hs₁
      · next s₂ hs₂ => exact (hs₁.trans (hpause _ _ hs₂)).trans (ih s₂)
    · exact hfirst

theorem Inference.complete_inTime (i : Inference) (client : Client) (prompt : Text) (s : Session) :
    s.InTime (i.complete client prompt s).2 := by
  have hopen : ∀ s : Session, s.InTime (openStream client (i.request prompt) s).2 := by
    intro s
    unfold openStream Session.send
    cases client.answer s.sent (i.request prompt) <;>
      exact ⟨rfl, Nat.le_refl _, fun _ _ h => h⟩
  have hrun : s.InTime
      (i.policy.run (openStream client (i.request prompt)) (fun d s => s.wait d) s).2 :=
    RetryPolicy.tryAgain_inTime hopen (fun _ _ => .of_wait) _ s
  unfold complete
  split <;> next h => exact snd_of_eq h hrun

namespace Analyzer

variable {α : Type}

theorem completions_inTime (a : Analyzer α) (client : Client) (prompt : Text) (n : Nat)
    (s : Session) : s.InTime (a.completions client prompt n s).2 := by
  induction n generalizing s with
  | zero => exact .refl s
  | succ n ih =>
    have hfirst := a.inference.complete_inTime client prompt s
    rw [completions]
    split
    · next h => exact snd_of_eq h hfirst
    · next c s₁ h =>
      have hrest : s.InTime (a.completions client prompt n s₁).2 :=
        (snd_of_eq h hfirst : s.InTime s₁).trans (ih s₁)
      split <;> next h => exact snd_of_eq h hrest

variable [Arith α]

theorem ask_inTime (a : Analyzer α) (client : Client) (t : Tracker α) (item : Item) (p : Persona)
    (r : Record α) (s : Session) : s.InTime (a.ask client t item p r s).2 := by
  unfold ask
  dsimp only
  split
  · exact .refl s
  · next prompt _ =>
    have hcompletions := a.completions_inTime client prompt (max a.candidates 1) s
    split
    · next h => exact snd_of_eq h hcompletions
    · next cs s₁ h =>
      have hs₁ : s.InTime s₁ := snd_of_eq h hcompletions
      split <;> exact hs₁

theorem askAll_inTime (a : Analyzer α) (client : Client) (t : Tracker α) (item : Item)
    (ps : List Persona) (r : Record α) (s : Session) :
    s.InTime (a.askAll client t item ps r s).2 := by
  induction ps generalizing r s with
  | nil => exact .refl s
  | cons p ps ih =>
    have hfirst := a.ask_inTime client t item p r s
    rw [askAll]
    split
    · next h => exact snd_of_eq h hfirst
    · next r₁ s₁ h => exact (snd_of_eq h hfirst : s.InTime s₁).trans (ih r₁ s₁)

/-- **An analysis is over before the deadline, or cut off before it.** -/
theorem analyze_inTime (a : Analyzer α) (client : Client) (t : Tracker α) (item : Item)
    (s : Session) : s.InTime (a.analyze client t item s).2 := by
  have hall := a.askAll_inTime client t item Persona.roster [] s
  unfold analyze
  split <;> next h => exact snd_of_eq h hall

end Analyzer
end ClipLedger
