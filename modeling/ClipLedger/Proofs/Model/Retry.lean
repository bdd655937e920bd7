import ClipLedger.Proofs.Model.Session

/-
  What trying again comes to. A first success ends the attempts, and so does the last failure; there
  is one pause between two attempts and none after the last (`run_outcomes`). A completion sends the
  same request at every attempt. It reads the first stream that is opened, whatever comes of that,
  and where none is opened it says so (`complete_accounts`). A pause is the delay of the policy, up
  to the longest span of a timer: of a longer delay the rest is not waited for
  (`complete_waits_less`).
-/
namespace ClipLedger

namespace RetryPolicy

variable {σ ε α : Type}

/-- The greatest number of attempts. Where none is set, there is one all the same. -/
def budget (p : RetryPolicy) : Nat := max p.attempts 1

theorem budget_pos (p : RetryPolicy) : 0 < p.budget :=
  Nat.lt_of_lt_of_le Nat.one_pos (Nat.le_max_right _ _)

/-- From `s`, a number of attempts failed, with a pause after each of them. -/
inductive Failed (operate : σ → Attempt ε α × σ) (pause : σ → Option σ) (s : σ) :
    Nat → σ → Prop where
  | zero : Failed operate pause s 0 s
  | succ {n : Nat} {s₁ s₂ s₃ : σ} {e : ε} (before : Failed operate pause s n s₁)
      (attempt : operate s₁ = (.failure e, s₂)) (paused : pause s₂ = some s₃) :
      Failed operate pause s (n + 1) s₃

section Attempts

variable {operate : σ → Attempt ε α × σ} {pause : σ → Option σ} {s s₁ s' : σ} {n : Nat}

/-- After `n` failed attempts `tryAgain` goes on with those that are left. -/
theorem Failed.tryAgain_add (h : Failed operate pause s n s₁) (m : Nat) :
    tryAgain operate pause (n + m) s = tryAgain operate pause m s₁ := by
  induction h generalizing m with
  | zero => rw [Nat.zero_add]
  | @succ n s₁ s₂ s₃ e before attempt paused ih =>
    rw [Nat.add_assoc, Nat.add_comm 1 m, ih, tryAgain, attempt]
    dsimp only
    rw [paused]

theorem tryAgain_of_success {a : α} (h : operate s = (.success a, s')) (m : Nat) :
    tryAgain operate pause m s = (.success a, s') := by
  cases m with
  | zero => exact h
  | succ m => rw [tryAgain, h]

/-- A transitive relation that holds around each attempt and each pause holds around `tryAgain`,
however it ends. -/
theorem tryAgain_rel {R : σ → σ → Prop} (htrans : ∀ {s s₁ s₂}, R s s₁ → R s₁ s₂ → R s s₂)
    (hoperate : ∀ s, R s (operate s).2) (hpause : ∀ s s', pause s = some s' → R s s') (n : Nat)
    (s : σ) : R s (tryAgain operate pause n s).2 := by
  induction n generalizing s with
  | zero => exact hoperate s
  | succ n ih =>
    have hfirst := hoperate s
    rw [tryAgain]
    split
    · next e s₁ hattempt =>
      rw [hattempt] at hfirst
      split
      · exact hfirst
      · next s₂ hrest => exact htrans hfirst (htrans (hpause s₁ s₂ hrest) (ih s₂))
    · exact hfirst

end Attempts

section Run

variable {p : RetryPolicy} {operate : σ → Attempt ε α × σ} {wait : Nat → σ → Option σ}
  {s s₁ s' : σ} {n : Nat}

/-- The first success within the budget is the outcome of `run`. -/
theorem Failed.run_eq_success (h : Failed operate (wait p.pause) s n s₁) (hn : n < p.budget) {a : α}
    (hlast : operate s₁ = (.success a, s')) : p.run operate wait s = (.success a, s') := by
  have hattempts : p.attempts - 1 = n + (p.attempts - 1 - n) := by
    unfold budget at hn
    omega
  rw [run, hattempts, h.tryAgain_add]
  exact tryAgain_of_success hlast _

/-- After a whole budget of failures the last one is the outcome of `run`. -/
theorem Failed.run_eq_failure (h : Failed operate (wait p.pause) s (p.budget - 1) s₁) {e : ε}
    (hlast : operate s₁ = (.failure e, s')) : p.run operate wait s = (.failure e, s') := by
  have hattempts : p.attempts - 1 = (p.budget - 1) + 0 := by
    unfold budget
    omega
  rw [run, hattempts, h.tryAgain_add]
  exact hlast

end Run

/-! ## An operation with given outcomes -/

/-- How often an operation was called, and the time that was waited for it. -/
structure Effort where
  calls : Nat
  waited : Nat

/-- The operation whose `n`-th call comes to `outcome n`. -/
def attempt (outcome : Nat → Except ε α) (x : Effort) : Attempt ε α × Effort :=
  (match outcome x.calls with
    | .ok a => .success a
    | .error e => .failure e, { x with calls := x.calls + 1 })

/-- Waits `delay`, whatever the time. -/
def Effort.wait (delay : Nat) (x : Effort) : Option Effort :=
  some { x with waited := x.waited + delay }

theorem failed_outcomes {outcome : Nat → Except ε α} (delay n : Nat)
    (h : ∀ k < n, ∃ e, outcome k = .error e) :
    Failed (attempt outcome) (Effort.wait delay) ⟨0, 0⟩ n ⟨n, n * delay⟩ := by
  induction n with
  | zero =>
    rw [Nat.zero_mul]
    exact .zero
  | succ n ih =>
    obtain ⟨e, he⟩ := h n (Nat.lt_succ_self n)
    have hcall : attempt outcome ⟨n, n * delay⟩ = (.failure e, ⟨n + 1, n * delay⟩) := by
      unfold attempt
      rw [he]
    refine .succ (ih fun k hk => h k (Nat.lt_succ_of_lt hk)) hcall ?_
    rw [Nat.succ_mul]
    rfl

/-- What `run` comes to for these outcomes: the first success within the budget, after a pause for
each failure before it; or, where all fail, the last failure, after a pause fewer than the
attempts. -/
structure Settles (p : RetryPolicy) (outcome : Nat → Except ε α) : Prop where
  success : ∀ n a, n < p.budget → (∀ k < n, ∃ e, outcome k = .error e) → outcome n = .ok a →
    p.run (attempt outcome) Effort.wait ⟨0, 0⟩ = (.success a, ⟨n + 1, n * p.pause⟩)
  failure : ∀ e, (∀ k < p.budget, ∃ e, outcome k = .error e) → outcome (p.budget - 1) = .error e →
    p.run (attempt outcome) Effort.wait ⟨0, 0⟩ =
      (.failure e, ⟨p.budget, (p.budget - 1) * p.pause⟩)

theorem run_outcomes (p : RetryPolicy) (outcome : Nat → Except ε α) : p.Settles outcome := by
  refine ⟨fun n a hn hfailures hlast => ?_, fun e hfailures hlast => ?_⟩
  · refine (failed_outcomes p.pause n hfailures).run_eq_success hn ?_
    unfold attempt
    rw [hlast]
  · have hbefore := failed_outcomes p.pause (p.budget - 1) fun k hk => hfailures k (by omega)
    refine hbefore.run_eq_failure ?_
    unfold attempt
    rw [hlast]
    dsimp only
    rw [Nat.sub_add_cancel p.budget_pos]

end RetryPolicy

/-! ## Requests that are sent again -/

namespace Session

/-- What comes of `request` once it was sent `n` times. -/
def outcome (s : Session) (client : Client) (request : Request) (n : Nat) : Opening :=
  client.answer (s.after (List.replicate n request) 0).sent request

/-- `request` is refused each of `n` times. -/
def Refuses (s : Session) (client : Client) (request : Request) (n : Nat) : Prop :=
  ∀ k < n, ∃ e, s.outcome client request k = .refused e

/-- `request` is refused `n` times, and then answered with the stream of `events`. -/
structure Opens (s : Session) (client : Client) (request : Request) (n : Nat)
    (events : List StreamEvent) : Prop where
  refused : s.Refuses client request n
  opened : s.outcome client request n = .stream events

end Session

namespace Inference

theorem openStream_sends (client : Client) (request : Request) (s : Session) :
    s.Sends (· = request) (openStream client request s).2 := by
  have hsent : (openStream client request s).2 = s.after [request] 0 := by
    unfold openStream
    rw [Session.send_eq]
    cases client.answer s.sent request <;> rfl
  rw [hsent]
  exact ⟨[request], rfl, fun r hr => List.mem_singleton.1 hr⟩

/-- `complete` sends nothing but its request, also where it is cut off. -/
theorem complete_sends (i : Inference) (client : Client) (prompt : Text) (s : Session) :
    s.Sends (· = i.request prompt) (i.complete client prompt s).2 := by
  have hsame : (i.complete client prompt s).2 =
      (i.policy.run (openStream client (i.request prompt)) (fun d s => s.wait d) s).2 := by
    unfold complete
    split
    · next h => rw [h]
    · next h => rw [h]
    · next h => rw [h]
  rw [hsame]
  exact RetryPolicy.tryAgain_rel .trans (openStream_sends client (i.request prompt))
    (fun s s' hwait => .of_eq (Session.sent_of_wait hwait)) _ s

end Inference

/-! ## Completions -/

/-- An opening as the outcome of an attempt. -/
def Opening.attempt : Opening → Attempt ModelError (List StreamEvent)
  | .stream events => .success events
  | .refused e => .failure e
  | .breakdown => .halted .breakdown

namespace Inference

theorem openStream_again (client : Client) (request : Request) (s : Session) (n waited : Nat) :
    openStream client request (s.after (List.replicate n request) waited) =
      ((s.outcome client request n).attempt,
        s.after (List.replicate (n + 1) request) waited) := by
  have hsent : (s.after (List.replicate n request) waited).sent =
      (s.after (List.replicate n request) 0).sent := rfl
  unfold openStream Session.outcome
  rw [Session.send_eq, Session.after_after, ← List.replicate_succ', Nat.add_zero, hsent]
  cases client.answer (s.after (List.replicate n request) 0).sent request <;> rfl

theorem failed_of_refuses {client : Client} {request : Request} {s : Session} (hs : s.Untimed)
    (delay : Nat) {n : Nat} (h : s.Refuses client request n) :
    RetryPolicy.Failed (openStream client request) (fun s => s.wait delay) s n
      (s.after (List.replicate n request) (n * delay)) := by
  induction n with
  | zero =>
    rw [Nat.zero_mul, List.replicate_zero, Session.after_nil]
    exact .zero
  | succ n ih =>
    obtain ⟨e, he⟩ := h n (Nat.lt_succ_self n)
    have hopen := openStream_again client request s n (n * delay)
    rw [he] at hopen
    refine .succ (ih fun k hk => h k (Nat.lt_succ_of_lt hk)) hopen ?_
    rw [Session.wait_eq (hs.after _ _), Session.after_after, List.append_nil, Nat.succ_mul]

section Complete

variable {i : Inference} {client : Client} {prompt : Text} {s : Session}

theorem complete_of_opens (hs : s.Untimed) {n : Nat} {events : List StreamEvent}
    (hn : n < i.policy.budget) (h : s.Opens client (i.request prompt) n events) :
    i.complete client prompt s = (.ok ⟨StreamEvent.collect i.maxResponse events⟩,
      s.after (List.replicate (n + 1) (i.request prompt)) (n * i.policy.pause)) := by
  have hopen := openStream_again client (i.request prompt) s n (n * i.policy.pause)
  rw [h.opened] at hopen
  have hrun : i.policy.run (openStream client (i.request prompt)) (fun d s => s.wait d) s = _ :=
    (failed_of_refuses hs i.policy.pause h.refused).run_eq_success hn hopen
  unfold complete
  rw [hrun]

theorem complete_of_refuses (hs : s.Untimed)
    (h : s.Refuses client (i.request prompt) i.policy.budget) :
    i.complete client prompt s = (.ok .unavailable,
      s.after (List.replicate i.policy.budget (i.request prompt))
        ((i.policy.budget - 1) * i.policy.pause)) := by
  obtain ⟨e, he⟩ := h (i.policy.budget - 1) (Nat.sub_one_lt_of_lt i.policy.budget_pos)
  have hopen := openStream_again client (i.request prompt) s (i.policy.budget - 1)
    ((i.policy.budget - 1) * i.policy.pause)
  rw [he, Nat.sub_add_cancel i.policy.budget_pos] at hopen
  have hbefore : s.Refuses client (i.request prompt) (i.policy.budget - 1) :=
    fun k hk => h k (by omega)
  have hrun : i.policy.run (openStream client (i.request prompt)) (fun d s => s.wait d) s = _ :=
    (failed_of_refuses hs i.policy.pause hbefore).run_eq_failure hopen
  unfold complete
  rw [hrun]

end Complete

/-- Of `n` attempts without a breakdown, one opens a stream, or all are refused. -/
theorem opens_or_refuses {client : Client} {request : Request} {s : Session} {n : Nat}
    (h : ∀ k < n, s.outcome client request k ≠ .breakdown) :
    (∃ k < n, ∃ events, s.Opens client request k events) ∨ s.Refuses client request n := by
  induction n with
  | zero => exact .inr fun k hk => absurd hk (Nat.not_lt_zero k)
  | succ n ih =>
    rcases ih fun k hk => h k (Nat.lt_succ_of_lt hk) with ⟨k, hk, hopens⟩ | hrefuses
    · exact .inl ⟨k, Nat.lt_succ_of_lt hk, hopens⟩
    cases hlast : s.outcome client request n with
    | stream events => exact .inl ⟨n, Nat.lt_succ_self n, events, hrefuses, hlast⟩
    | refused e =>
      refine .inr fun k hk => ?_
      rcases Nat.lt_succ_iff_lt_or_eq.1 hk with hk | rfl
      · exact hrefuses k hk
      · exact ⟨e, hlast⟩
    | breakdown => exact absurd hlast (h n (Nat.lt_succ_self n))

/-- **A completion is the first stream that is opened, or says that there is none.** Side condition:
`s.Untimed`. If the stream comes after `n` refusals, `complete` sends the request `n + 1` times and
waits `n * delay`; if all `attempts` are refused, it answers `unavailable` after one pause fewer.
The delay is what a timer runs for, at most `Span.longest`. -/
theorem complete_accounts (i : Inference) (client : Client) (prompt : Text) {s : Session}
    (hs : s.Untimed) :
    let attempts := max i.policy.attempts 1
    let delay := min i.policy.delay Span.longest
    let request : Request := ⟨i.system, prompt ++ conciseness, i.sampling⟩
    (∀ n events, n < attempts → s.Opens client request n events →
      i.complete client prompt s = (.ok ⟨StreamEvent.collect i.maxResponse events⟩,
        s.after (List.replicate (n + 1) request) (n * delay))) ∧
    (s.Refuses client request attempts →
      i.complete client prompt s = (.ok .unavailable,
        s.after (List.replicate attempts request) ((attempts - 1) * delay))) ∧
    ((∀ n < attempts, s.outcome client request n ≠ .breakdown) →
      ∃ c s', i.complete client prompt s = (.ok c, s')) ∧
    Completion.unavailable.text = "Error: inference server unavailable".toList ∧
    Completion.unavailable.isError = true ∧
    ∀ (ε α : Type) (outcome : Nat → Except ε α), i.policy.Settles outcome := by
  refine ⟨fun n events hn hopens => complete_of_opens hs hn hopens,
    fun hrefuses => complete_of_refuses hs hrefuses, fun hstands => ?_, by decide +kernel,
    by decide +kernel, fun ε α outcome => i.policy.run_outcomes outcome⟩
  rcases opens_or_refuses hstands with ⟨n, hn, events, hopens⟩ | hrefuses
  · exact ⟨_, _, complete_of_opens hs hn hopens⟩
  · exact ⟨_, _, complete_of_refuses hs hrefuses⟩

/-- Two refusals, and a third attempt that gets through. -/
theorem complete_accounts_third_attempt :
    let i : Inference := ⟨.of 3 250, "Be brief.".toList, ⟨[], 0, 1, 40, 256, 1⟩, 400⟩
    let client := Client.flaky (some 2) "topic: ships".toList
    let request := i.request "Name it.".toList
    Session.fresh.Untimed ∧ 2 < max i.policy.attempts 1 ∧
    Session.fresh.Opens client request 2 (StreamEvent.ofReply "topic: ships".toList) ∧
    i.complete client "Name it.".toList .fresh =
      (.ok ⟨"topic: ships".toList⟩, ⟨#[request, request, request], 500, none⟩) := by
  intro i client request
  have hopens : Session.fresh.Opens client request 2
      (StreamEvent.ofReply "topic: ships".toList) := by
    refine ⟨fun k hk => ⟨_, if_pos ?_⟩, rfl⟩
    simpa [Session.after, Session.fresh] using hk
  have hcomplete := (complete_accounts i client "Name it.".toList (s := .fresh) rfl).1 2 _
    (by decide) hopens
  have hreply : StreamEvent.collect 400 (StreamEvent.ofReply "topic: ships".toList) =
      "topic: ships".toList := by decide +kernel
  refine ⟨rfl, by decide, hopens, ?_⟩
  rw [hcomplete, hreply]
  rfl

/-- A delay over thirty years is not waited for to its end. -/
theorem complete_waits_less :
    let i : Inference := ⟨.of 2 (Span.longest + 1), [], ⟨[], 0, 1, 40, 256, 1⟩, 10⟩
    let client := Client.flaky none []
    Session.fresh.Untimed ∧ Session.fresh.Refuses client (i.request ['a']) 2 ∧
    (i.complete client ['a'] .fresh).2.clock ≠ Session.fresh.clock + (2 - 1) * i.policy.delay := by
  intro i client
  have hrefuses : Session.fresh.Refuses client (i.request ['a']) 2 := fun k _ => ⟨_, rfl⟩
  refine ⟨rfl, hrefuses, ?_⟩
  rw [complete_of_refuses (i := i) (s := .fresh) rfl hrefuses]
  decide

end Inference
end ClipLedger
