import ClipLedger.Proofs.Model.Completion

/-
  Sessions that go on. Requests are only ever added to what was sent and time only ever passes, so a
  later state of a session is the earlier one with some requests and some waiting more
  (`Session.after`). Where only the requests count, they are told by what they have in common
  (`Session.Sends`).
-/
namespace ClipLedger.Session

/-- The session after further `requests` and a wait. -/
def after (s : Session) (requests : List Request) (waited : Nat) : Session :=
  { s with sent := s.sent ++ requests.toArray, clock := s.clock + waited }

@[simp] theorem after_nil (s : Session) : s.after [] 0 = s := by
  unfold after
  rw [Nat.add_zero]
  simp

@[simp] theorem after_after (s : Session) (rs rs' : List Request) (w w' : Nat) :
    (s.after rs w).after rs' w' = s.after (rs ++ rs') (w + w') := by
  unfold after
  simp [Nat.add_assoc]

theorem Untimed.after {s : Session} (hs : s.Untimed) (rs : List Request) (w : Nat) :
    (s.after rs w).Untimed := hs

theorem send_eq (s : Session) (client : Client) (request : Request) :
    s.send client request = (client.answer s.sent request, s.after [request] 0) := by
  unfold send after
  simp

theorem wait_eq {s : Session} (hs : s.Untimed) (delay : Nat) :
    s.wait delay = some (s.after [] delay) := by
  unfold wait after
  rw [show s.deadline = none from hs]
  simp

theorem sent_of_wait {s s' : Session} {delay : Nat} (h : s.wait delay = some s') :
    s'.sent = s.sent := by
  unfold wait at h
  dsimp only at h
  split at h
  · cases h
    rfl
  · split at h
    · cases h
      rfl
    · cases h

/-! ## What is sent -/

/-- From `s` to `s'`, only requests with `P` are sent. -/
def Sends (P : Request → Prop) (s s' : Session) : Prop :=
  ∃ requests : List Request, s'.sent = s.sent ++ requests.toArray ∧ ∀ r ∈ requests, P r

namespace Sends

variable {P Q : Request → Prop} {s s₁ s' : Session}

theorem refl (s : Session) : s.Sends P s := ⟨[], by simp, fun _ hr => absurd hr List.not_mem_nil⟩

theorem trans (h : s.Sends P s₁) (h' : s₁.Sends P s') : s.Sends P s' := by
  obtain ⟨rs, hs₁, hrs⟩ := h
  obtain ⟨rs', hs', hrs'⟩ := h'
  refine ⟨rs ++ rs', by rw [hs', hs₁]; simp, fun r hr => ?_⟩
  exact (List.mem_append.1 hr).elim (hrs r) (hrs' r)

theorem mono (h : s.Sends P s') (hsub : ∀ r, P r → Q r) : s.Sends Q s' := by
  obtain ⟨rs, hs', hrs⟩ := h
  exact ⟨rs, hs', fun r hr => hsub r (hrs r hr)⟩

theorem of_eq (h : s'.sent = s.sent) : s.Sends P s' :=
  ⟨[], by rw [h]; simp, fun _ hr => absurd hr List.not_mem_nil⟩

end Sends

end ClipLedger.Session
