import ClipLedger.Model.Completion

/-
  A completion always comes about. A client may refuse, break off its streams and send what it
  likes; as long as it does not break down itself and nobody cuts the conversation off, asking it
  ends with a text (`complete_ok`).
-/
namespace ClipLedger

namespace RetryPolicy

variable {σ ε α : Type}

/-- If no attempt breaks off and no pause is cut short, `tryAgain` does not break off, and keeps
what each of them keeps. -/
theorem tryAgain_spec {operate : σ → Attempt ε α × σ} {pause : σ → Option σ} {Keeps : σ → Prop}
    (hoperate : ∀ s, Keeps s → (∀ h, (operate s).1 ≠ .halted h) ∧ Keeps (operate s).2)
    (hpause : ∀ s, Keeps s → ∃ s', pause s = some s' ∧ Keeps s') (n : Nat) (s : σ) (hs : Keeps s) :
    (∀ h, (tryAgain operate pause n s).1 ≠ .halted h) ∧ Keeps (tryAgain operate pause n s).2 := by
  induction n generalizing s with
  | zero => exact hoperate s hs
  | succ n ih =>
    obtain ⟨hhalt, hkeep⟩ := hoperate s hs
    rw [tryAgain]
    cases ho : operate s with
    | mk result s₁ =>
      rw [ho] at hhalt hkeep
      cases result with
      | success a => exact ⟨hhalt, hkeep⟩
      | halted h => exact absurd rfl (hhalt h)
      | failure e =>
        obtain ⟨s₂, hp, hs₂⟩ := hpause s₁ hkeep
        dsimp only
        rw [hp]
        exact ih s₂ hs₂

end RetryPolicy

/-- Whatever `client` is asked, it does not break down. -/
def Client.Stands (client : Client) : Prop :=
  ∀ sent request, client.answer sent request ≠ .breakdown

/-- A script without a breakdown stands, also behind its end. -/
theorem Client.script_stands {entries : List Opening} (h : ∀ e ∈ entries, e ≠ .breakdown)
    (cycles : Bool) : (Client.script entries cycles).Stands := by
  intro sent request
  unfold script
  dsimp only
  cases he : entries[if cycles then sent.size % entries.length else sent.size]? with
  | none => exact fun hb => (by cases hb)
  | some e => exact h e (List.mem_of_getElem? he)

/-- The conversation has no deadline. -/
def Session.Untimed (s : Session) : Prop := s.deadline = none

/-- Every request is answered with a stream. -/
def Client.Opens (client : Client) : Prop :=
  ∀ sent request, ∃ events, client.answer sent request = .stream events

theorem Client.Opens.stands {client : Client} (h : client.Opens) : client.Stands := by
  intro sent request hbreak
  obtain ⟨events, hevents⟩ := h sent request
  rw [hevents] at hbreak
  cases hbreak

theorem Client.constant_opens (reply : Text) : (Client.constant reply).Opens :=
  fun _ _ => ⟨_, rfl⟩

namespace Inference

/-- A prompt that is answered with a stream at once is sent once, and no time goes by. -/
theorem complete_of_stream (i : Inference) {client : Client} {prompt : Text} {s : Session}
    {events : List StreamEvent} (h : client.answer s.sent (i.request prompt) = .stream events) :
    i.complete client prompt s = (.ok ⟨StreamEvent.collect i.maxResponse events⟩,
      { s with sent := s.sent.push (i.request prompt) }) := by
  have hopen : openStream client (i.request prompt) s =
      (.success events, { s with sent := s.sent.push (i.request prompt) }) := by
    unfold openStream Session.send
    rw [h]
  unfold complete RetryPolicy.run
  cases i.policy.attempts - 1 with
  | zero => rw [RetryPolicy.tryAgain, hopen]
  | succ n => rw [RetryPolicy.tryAgain, hopen]

theorem openStream_spec {client : Client} (hc : client.Stands) (request : Request) (s : Session)
    (hs : s.Untimed) :
    (∀ h, (openStream client request s).1 ≠ .halted h) ∧
      (openStream client request s).2.Untimed := by
  unfold openStream Session.send
  have hstands := hc s.sent request
  cases ho : client.answer s.sent request with
  | stream events => exact ⟨fun _ h => (by cases h), hs⟩
  | refused e => exact ⟨fun _ h => (by cases h), hs⟩
  | breakdown => exact absurd ho hstands

theorem wait_spec (delay : Nat) (s : Session) (hs : s.Untimed) :
    ∃ s', s.wait delay = some s' ∧ s'.Untimed := by
  unfold Session.wait
  rw [show s.deadline = none from hs]
  exact ⟨_, rfl, rfl⟩

/-- **Every prompt is answered with a text**, if `client.Stands` and there is no deadline. -/
theorem complete_ok (i : Inference) {client : Client} (hc : client.Stands) (prompt : Text)
    {s : Session} (hs : s.Untimed) :
    ∃ c s', i.complete client prompt s = (.ok c, s') ∧ s'.Untimed := by
  have hrun := RetryPolicy.tryAgain_spec (openStream_spec hc (i.request prompt))
    (wait_spec i.policy.pause) (i.policy.attempts - 1) s hs
  unfold complete RetryPolicy.run
  cases ht : RetryPolicy.tryAgain (openStream client (i.request prompt))
    (fun s => s.wait i.policy.pause) (i.policy.attempts - 1) s with
  | mk result s' =>
    obtain ⟨hhalt, hkeep⟩ := ht ▸ hrun
    cases result with
    | success events => exact ⟨_, s', rfl, hkeep⟩
    | failure e => exact ⟨_, s', rfl, hkeep⟩
    | halted h => exact absurd rfl (hhalt h)

end Inference
end ClipLedger
