import ClipLedger.Proofs.Analyzer
import ClipLedger.Proofs.Model.Retry

/-
  What an analysis costs: how often it sends a request, and how long it waits. It asks for the same
  number of completions of every persona, whatever came of the earlier ones, and each completion
  takes at least one attempt and at most a budget of them, with a pause between two attempts. So the
  waiting is told by the number of requests alone (`analyze_cost`): of the requests, one for each
  completion was not waited for, and every other one was waited for once.
-/
namespace ClipLedger

namespace Inference

/-- One completion that was asked for: its prompt, what it yielded, and the attempts it took. -/
structure Inquiry where
  prompt : Text
  completion : Completion
  attempts : Nat

/-- The requests of `q`: the same one at every attempt. -/
def Inquiry.requests (i : Inference) (q : Inquiry) : List Request :=
  List.replicate q.attempts (i.request q.prompt)

/-- The inquiries were made one after the other from `s` to `s'`, each with its requests sent and
its pauses waited for. -/
inductive Inquired (i : Inference) (client : Client) :
    Session → List Inquiry → Session → Prop where
  | nil (s : Session) : Inquired i client s [] s
  | cons {s s' : Session} {q : Inquiry} {qs : List Inquiry}
      (least : 1 ≤ q.attempts) (most : q.attempts ≤ i.policy.budget)
      (completion : i.complete client q.prompt s =
        (.ok q.completion, s.after (q.requests i) ((q.attempts - 1) * i.policy.pause)))
      (rest : Inquired i client
        (s.after (q.requests i) ((q.attempts - 1) * i.policy.pause)) qs s') :
      Inquired i client s (q :: qs) s'

theorem Inquired.append {i : Inference} {client : Client} {s s₁ s' : Session}
    {qs qs' : List Inquiry} (h : Inquired i client s qs s₁) (h' : Inquired i client s₁ qs' s') :
    Inquired i client s (qs ++ qs') s' := by
  induction h with
  | nil s => exact h'
  | cons least most completion rest ih => exact .cons least most completion (ih h')

/-- `complete` at a client that `Stands`, as an `Inquiry`. -/
theorem complete_inquired (i : Inference) {client : Client} (hc : client.Stands) (prompt : Text)
    {s : Session} (hs : s.Untimed) : ∃ q : Inquiry, q.prompt = prompt ∧ 1 ≤ q.attempts ∧
      q.attempts ≤ i.policy.budget ∧ i.complete client prompt s =
        (.ok q.completion, s.after (q.requests i) ((q.attempts - 1) * i.policy.pause)) := by
  have hstands : ∀ k < i.policy.budget, s.outcome client (i.request prompt) k ≠ .breakdown :=
    fun k _ => hc _ _
  rcases opens_or_refuses hstands with ⟨n, hn, events, hopens⟩ | hrefuses
  · exact ⟨⟨prompt, _, n + 1⟩, rfl, Nat.le_add_left 1 n, hn, complete_of_opens hs hn hopens⟩
  · exact ⟨⟨prompt, _, i.policy.budget⟩, rfl, i.policy.budget_pos, Nat.le_refl _,
      complete_of_refuses hs hrefuses⟩

/-- What the inquiries `qs` take together: from one request to the whole budget for each, and a
pause for every request that is not the first of its inquiry. -/
theorem Inquired.cost {i : Inference} {client : Client} {s s' : Session} {qs : List Inquiry}
    (h : Inquired i client s qs s') :
    qs.length ≤ (qs.flatMap (Inquiry.requests i)).length ∧
      (qs.flatMap (Inquiry.requests i)).length ≤ qs.length * i.policy.budget ∧
      s' = s.after (qs.flatMap (Inquiry.requests i))
        (((qs.flatMap (Inquiry.requests i)).length - qs.length) * i.policy.pause) := by
  induction h with
  | nil s => simp
  | @cons s s' q qs least most completion rest ih =>
    obtain ⟨hleast, hmost, hs'⟩ := ih
    have hlength : (q.requests i).length = q.attempts := List.length_replicate
    rw [List.flatMap_cons, List.length_append, hlength, List.length_cons, Nat.succ_mul]
    refine ⟨by omega, by omega, ?_⟩
    have hwaited : q.attempts + (qs.flatMap (Inquiry.requests i)).length - (qs.length + 1) =
        (q.attempts - 1) + ((qs.flatMap (Inquiry.requests i)).length - qs.length) := by omega
    rw [hs', Session.after_after, hwaited, Nat.add_mul]

/-- Where every stream is refused, every inquiry takes the whole budget. -/
theorem Inquired.length_of_refused {i : Inference} {client : Client} {s s' : Session}
    {qs : List Inquiry} (h : Inquired i client s qs s') (hs : s.Untimed)
    (hclient : ∀ sent request, ∃ e, client.answer sent request = .refused e) :
    (qs.flatMap (Inquiry.requests i)).length = qs.length * i.policy.budget := by
  induction h with
  | nil s => simp
  | @cons s s' q qs least most completion rest ih =>
    have hrefuses : s.Refuses client (i.request q.prompt) i.policy.budget :=
      fun k _ => hclient _ _
    have hrefused := complete_of_refuses hs hrefuses
    have hsize := congrArg (fun result => result.2.sent.size) (completion.symm.trans hrefused)
    have hattempts : q.attempts = i.policy.budget := by
      simpa [Session.after, Inquiry.requests] using hsize
    have hlength : (q.requests i).length = i.policy.budget := by
      rw [Inquiry.requests, List.length_replicate, hattempts]
    rw [List.flatMap_cons, List.length_append, hlength, ih (hs.after _ _), List.length_cons,
      Nat.succ_mul, Nat.add_comm]

end Inference

namespace Analyzer

open Inference (Inquiry Inquired)

variable {α : Type}

theorem completions_inquired (a : Analyzer α) {client : Client} (hc : client.Stands)
    (prompt : Text) {n : Nat} {s s' : Session} (hs : s.Untimed) {cs : List Completion}
    (h : a.completions client prompt n s = (.ok cs, s')) :
    ∃ qs, Inquired a.inference client s qs s' ∧ qs.map Inquiry.completion = cs ∧
      qs.map Inquiry.prompt = List.replicate n prompt ∧ s'.Untimed := by
  induction n generalizing s cs with
  | zero =>
    cases h
    exact ⟨[], .nil _, rfl, rfl, hs⟩
  | succ n ih =>
    obtain ⟨q, rfl, hleast, hmost, hcomplete⟩ := a.inference.complete_inquired hc prompt hs
    rw [completions, hcomplete] at h
    dsimp only at h
    split at h
    · cases h
    next rest s₁ hrest =>
    cases h
    obtain ⟨qs, hqs, rfl, hprompts, hs'⟩ := ih (hs.after _ _) hrest
    exact ⟨q :: qs, .cons hleast hmost hcomplete hqs, rfl, congrArg (q.prompt :: ·) hprompts, hs'⟩

/-- The completions of interviews as inquiries, as many with the prompt of each. -/
theorem Heard.inquired {a : Analyzer α} {client : Client} (hc : client.Stands) {item : Item}
    {s s' : Session} {es : List Interview} (h : Heard a client item s es s') (hs : s.Untimed) :
    ∃ qs, Inquired a.inference client s qs s' ∧
      qs.map Inquiry.completion = es.flatMap Interview.completions ∧
      qs.map Inquiry.prompt =
        es.flatMap fun e => List.replicate (max a.candidates 1) e.prompt := by
  induction h with
  | nil s => exact ⟨[], .nil s, rfl, rfl⟩
  | cons prompt completions rest ih =>
    obtain ⟨qs, hqs, hcs, hprompts, hs₁⟩ := a.completions_inquired hc _ hs completions
    obtain ⟨qs', hqs', hcs', hprompts'⟩ := ih hs₁
    refine ⟨qs ++ qs', hqs.append hqs', ?_, ?_⟩
    · rw [List.map_append, hcs, hcs', List.flatMap_cons]
    · rw [List.map_append, hprompts, hprompts', List.flatMap_cons]

variable [Arith α]

/-- The completions of an analysis as inquiries. -/
theorem analyze_inquired (a : Analyzer α) {client : Client} (hc : client.Stands) (t : Tracker α)
    (item : Item) {s : Session} (hs : s.Untimed) :
    ∃ an s' es qs, a.analyze client t item s = (.ok an, s') ∧
      es.map Interview.persona = Persona.roster ∧ Heard a client item s es s' ∧
      Inquired a.inference client s qs s' ∧
      qs.map Inquiry.completion = es.flatMap Interview.completions ∧
      (qs.map Inquiry.prompt =
        es.flatMap fun e => List.replicate (max a.candidates 1) e.prompt) ∧
      qs.length = 3 * max a.candidates 1 := by
  obtain ⟨r, s', es, hall, -, hroster, -, hheard, -⟩ := a.askAll_ok hc t item Persona.roster
    (fun _ hp => Persona.prompt_of_mem_roster hp) [] hs
  obtain ⟨qs, hqs, hcs, hprompts⟩ := hheard.inquired hc hs
  have hthree : es.length = 3 := by
    have hlength := congrArg List.length hroster
    rwa [List.length_map] at hlength
  have hcount := congrArg List.length hprompts
  rw [List.length_map, List.length_flatMap] at hcount
  simp only [List.length_replicate, List.map_const', hthree, List.sum_replicate_nat] at hcount
  exact ⟨_, s', es, qs, analyze_of_askAll hall, hroster, hheard, hqs, hcs, hprompts, hcount⟩

/-- **The cost of an analysis.** Side conditions: `client.Stands` and `s.Untimed`. With `candidates`
completions for each of the three personas in their order, an analysis sends from `3 * candidates`
to `3 * candidates * attempts` requests, and waits `delay` for each of them that is not the first of
its completion. -/
theorem analyze_cost (a : Analyzer α) {client : Client} (hc : client.Stands) (t : Tracker α)
    (item : Item) {s : Session} (hs : s.Untimed) :
    let candidates := max a.candidates 1
    let attempts := max a.inference.policy.attempts 1
    let delay := min a.inference.policy.delay Span.longest
    ∃ an s' es qs, a.analyze client t item s = (.ok an, s') ∧
      es.map Interview.persona = Persona.roster ∧ Heard a client item s es s' ∧
      Inquired a.inference client s qs s' ∧
      qs.map Inquiry.completion = es.flatMap Interview.completions ∧
      (qs.map Inquiry.prompt = es.flatMap fun e => List.replicate candidates e.prompt) ∧
      qs.length = 3 * candidates ∧
      ∃ requests : List Request, requests = qs.flatMap (Inquiry.requests a.inference) ∧
        3 * candidates ≤ requests.length ∧ requests.length ≤ 3 * candidates * attempts ∧
        s' = s.after requests ((requests.length - 3 * candidates) * delay) := by
  obtain ⟨an, s', es, qs, han, hroster, hheard, hqs, hcs, hprompts, hcount⟩ :=
    a.analyze_inquired hc t item hs
  obtain ⟨hleast, hmost, hs'⟩ := hqs.cost
  rw [hcount] at hleast hmost hs'
  exact ⟨an, s', es, qs, han, hroster, hheard, hqs, hcs, hprompts, hcount, _, rfl, hleast, hmost,
    hs'⟩

/-- Two completions of each persona, at a client of which every third stream is not opened. -/
theorem analyze_cost_flaky :
    let client := Client.script [Client.refusal, .stream [.delta "topic: ships".toList],
      .stream [.delta "Error: busy".toList]] true
    let a : Analyzer Rat := ⟨⟨.of 2 250, [], ⟨[], 0, 1, 40, 256, 1⟩, 400⟩, 2, 80, none⟩
    let item := Item.text "the quick brown fox".toList
    client.Stands ∧ Session.fresh.Untimed ∧
    ∃ an requests, a.analyze client (.fresh 10 0) item .fresh =
        (.ok an, Session.fresh.after requests ((requests.length - 6) * 250)) ∧
      6 ≤ requests.length ∧ requests.length ≤ 12 := by
  intro client a item
  have hc : client.Stands := Client.script_stands (by simp [Client.refusal]) true
  have hs : Session.fresh.Untimed := rfl
  obtain ⟨an, s', es, qs, hall, -, -, -, -, -, -, requests, -, hleast, hmost, rfl⟩ :=
    a.analyze_cost hc (.fresh 10 0) item hs
  exact ⟨hc, hs, an, requests, hall, hleast, hmost⟩

/-- An analysis at a client that is not there, with a delay over thirty years. -/
theorem analyze_waits_less :
    let client := Client.flaky none []
    let a : Analyzer Rat :=
      ⟨⟨.of 2 (Span.longest + 1), [], ⟨[], 0, 1, 40, 256, 1⟩, 10⟩, 1, 80, none⟩
    let item := Item.text "some clipboard text".toList
    client.Stands ∧ ∃ an s', a.analyze client (.fresh 10 0) item .fresh = (.ok an, s') ∧
      s'.sent.size = 6 ∧
      s'.clock ≠ Session.fresh.clock + (6 - 3 * 1) * a.inference.policy.delay := by
  intro client a item
  have hrefused : ∀ sent request, ∃ e, client.answer sent request = .refused e :=
    fun _ _ => ⟨_, rfl⟩
  have hc : client.Stands := fun sent request hbreak => by
    obtain ⟨e, he⟩ := hrefused sent request
    rw [he] at hbreak
    cases hbreak
  have hs : Session.fresh.Untimed := rfl
  obtain ⟨an, s', -, qs, han, -, -, hqs, -, -, hthree⟩ :=
    a.analyze_inquired hc (.fresh 10 0) item hs
  have hlength := hqs.length_of_refused hs hrefused
  have hbudget : a.inference.policy.budget = 2 := by decide
  have hpause : a.inference.policy.pause = Span.longest := by decide
  have hone : max a.candidates 1 = 1 := by decide
  obtain ⟨-, -, rfl⟩ := hqs.cost
  rw [hone] at hthree
  rw [hthree, hbudget] at hlength
  refine ⟨hc, an, _, han, ?_, ?_⟩
  · simp [Session.after, Session.fresh, hlength]
  · rw [hlength, hthree, hpause]
    show 0 + (3 * 1 * 2 - 3 * 1) * Span.longest ≠ 0 + (6 - 3 * 1) * (Span.longest + 1)
    decide

end Analyzer
end ClipLedger
