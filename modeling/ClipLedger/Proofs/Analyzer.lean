import ClipLedger.Analyzer
import ClipLedger.Proofs.Model.Completion
import ClipLedger.Proofs.Persona.Prompt

/-
  An analysis always yields a record, and every answer in it can be traced to what was asked: which
  persona was asked, what it was shown, and what came back (`analyze_ok`). The personas are asked
  in the order of the roster; one is left out exactly when nothing that came back is usable, and
  cutting an answer to size never turns it into an empty one or into a failure.
-/
namespace ClipLedger

namespace Text

/-- `truncate` leaves a usable text usable: it is not empty, and `Completion.errorMark` is too short
to come about by the cut. -/
theorem not_isError_truncate {max : Nat} {t : Text} (h : (⟨t⟩ : Completion).isError = false) :
    (⟨truncate max t⟩ : Completion).isError = false := by
  unfold truncate
  split
  · exact h
  next hlong =>
  have hmark : Completion.errorMark.length = 6 := by decide
  unfold Completion.isError at h ⊢
  rw [Bool.or_eq_false_iff] at h ⊢
  refine ⟨?_, ?_⟩
  · rw [List.isEmpty_eq_false_iff]
    exact List.append_ne_nil_of_right_ne_nil _ (by decide)
  refine Bool.eq_false_iff.2 fun hp => ?_
  rw [List.isPrefixOf_iff_prefix] at hp
  by_cases hmax : 6 ≤ max
  · -- the mark ends before the cut
    have hshort : Completion.errorMark <+: t.take max := by
      refine List.prefix_of_prefix_length_le hp (List.prefix_append _ _) ?_
      rw [hmark, List.length_take]
      omega
    have hwhole := List.isPrefixOf_iff_prefix.2 (hshort.trans (List.take_prefix max t))
    exact absurd hwhole (by rw [h.2]; decide)
  · -- the first dot after the cut would stand in the mark
    have hdot : (t.take max ++ truncationMarker)[max]? = some '.' := by
      have hlen : (t.take max).length = max := by
        rw [List.length_take]
        omega
      rw [List.getElem?_append_right (by omega), hlen, Nat.sub_self]
      decide
    have hat := List.prefix_iff_getElem?.1 hp max (by omega)
    rw [hdot] at hat
    have hmem : '.' ∈ Completion.errorMark := Option.some.inj hat ▸ List.getElem_mem _
    exact absurd hmem (by decide)

end Text

namespace Analyzer

variable {α : Type} [Arith α]

/-! ## The best candidate -/

theorem consider_cases (a : Analyzer α) (t : Tracker α) (best : Option (Candidate α))
    (c : Completion) :
    c.isError = true ∧ a.consider t best c = best ∨
    c.isError = false ∧ (a.consider t best c = some ⟨c.text, t.score c.text⟩ ∨
      best ≠ none ∧ a.consider t best c = best) := by
  unfold consider
  cases he : c.isError with
  | true => exact .inl ⟨rfl, if_pos rfl⟩
  | false =>
    rw [if_neg Bool.false_ne_true]
    refine .inr ⟨rfl, ?_⟩
    cases best with
    | none => exact .inl rfl
    | some d =>
      rw [better]
      split
      · exact .inl rfl
      · exact .inr ⟨Option.some_ne_none d, rfl⟩

/-- `consider` over `cs`, from `best` on: what comes out is `best` or a usable completion, and
nothing comes out only where `best` is `none` and no completion is usable. -/
theorem foldl_consider (a : Analyzer α) (t : Tracker α) (cs : List Completion)
    (best : Option (Candidate α)) :
    (∀ d, cs.foldl (a.consider t) best = some d → best = some d ∨
      ∃ c ∈ cs, c.isError = false ∧ d = ⟨c.text, t.score c.text⟩) ∧
    (cs.foldl (a.consider t) best = none → best = none ∧ ∀ c ∈ cs, c.isError = true) := by
  induction cs generalizing best with
  | nil => exact ⟨fun d h => .inl h, fun h => ⟨h, fun _ hc => absurd hc List.not_mem_nil⟩⟩
  | cons c cs ih =>
    obtain ⟨hsome, hnone⟩ := ih (a.consider t best c)
    rw [List.foldl_cons]
    refine ⟨fun d h => ?_, fun h => ?_⟩
    · rcases hsome d h with hd | ⟨c', hc', hrest⟩
      · rcases consider_cases a t best c with ⟨-, hb⟩ | ⟨he, hb | ⟨-, hb⟩⟩
        · exact .inl (hb.symm.trans hd)
        · exact .inr ⟨c, List.mem_cons_self, he, Option.some.inj (hd.symm.trans hb)⟩
        · exact .inl (hb.symm.trans hd)
      · exact .inr ⟨c', List.mem_cons_of_mem c hc', hrest⟩
    · obtain ⟨hb, hcs⟩ := hnone h
      rcases consider_cases a t best c with ⟨he, hb'⟩ | ⟨-, hb' | ⟨hne, hb'⟩⟩
      · exact ⟨hb'.symm.trans hb, List.forall_mem_cons.2 ⟨he, hcs⟩⟩
      · exact absurd (hb'.symm.trans hb) (Option.some_ne_none _)
      · exact absurd (hb'.symm.trans hb) hne

/-- What `best` answers is a usable completion with its score. -/
theorem best_eq_some {a : Analyzer α} {t : Tracker α} {cs : List Completion} {d : Candidate α}
    (h : a.best t cs = some d) : ∃ c ∈ cs, c.isError = false ∧ d = ⟨c.text, t.score c.text⟩ := by
  rcases (foldl_consider a t cs none).1 d h with hn | hc
  · cases hn
  · exact hc

/-- `best` answers `none` only where no completion is usable. -/
theorem best_eq_none {a : Analyzer α} {t : Tracker α} {cs : List Completion}
    (h : a.best t cs = none) : ∀ c ∈ cs, c.isError = true :=
  ((foldl_consider a t cs none).2 h).2

/-! ## What was asked, and what was recorded -/

/-- One persona's turn: what it was shown, its prompt, and the completions it gave. -/
structure Interview where
  persona : Persona
  shown : Text
  prompt : Text
  completions : List Completion

/-- The interviews were led one after the other from `s` to `s'`; each prompt is that of its persona
for `item`, and the completions are all that `client` gave for it. -/
inductive Heard (a : Analyzer α) (client : Client) (item : Item) :
    Session → List Interview → Session → Prop where
  | nil (s : Session) : Heard a client item s [] s
  | cons {s s₁ s' : Session} {e : Interview} {es : List Interview}
      (prompt : e.persona.prompt (ContentClass.ofItem item) e.shown item a.maxPrompt = .ok e.prompt)
      (completions : a.completions client e.prompt (max a.candidates 1) s = (.ok e.completions, s₁))
      (rest : Heard a client item s₁ es s') : Heard a client item s (e :: es) s'

/-- From `r` to `r'`, the record grows by an answer for each interview with a usable completion, and
each persona is shown `thoughts` of the record so far. -/
inductive Recorded (a : Analyzer α) (t : Tracker α) (contentClass : ContentClass) :
    Record α → List Interview → Record α → Prop where
  | nil (r : Record α) : Recorded a t contentClass r [] r
  | missing {r r' : Record α} {e : Interview} {es : List Interview}
      (shown : e.shown = r.thoughts) (useless : ∀ c ∈ e.completions, c.isError = true)
      (rest : Recorded a t contentClass r es r') : Recorded a t contentClass r (e :: es) r'
  | answered {r r' : Record α} {e : Interview} {es : List Interview} {c : Completion}
      (shown : e.shown = r.thoughts) (mem : c ∈ e.completions) (usable : c.isError = false)
      (rest : Recorded a t contentClass
        (r ++ [a.answer e.persona contentClass e.shown ⟨c.text, t.score c.text⟩]) es r') :
      Recorded a t contentClass r (e :: es) r'

omit [Arith α] in
theorem completions_ok (a : Analyzer α) {client : Client} (hc : client.Stands) (prompt : Text)
    (n : Nat) {s : Session} (hs : s.Untimed) :
    ∃ cs s', a.completions client prompt n s = (.ok cs, s') ∧ cs.length = n ∧ s'.Untimed := by
  induction n generalizing s with
  | zero => exact ⟨[], s, rfl, rfl, hs⟩
  | succ n ih =>
    obtain ⟨c, s₁, hcomplete, hs₁⟩ := a.inference.complete_ok hc prompt hs
    obtain ⟨cs, s', hrest, hlen, hs'⟩ := ih hs₁
    refine ⟨c :: cs, s', ?_, congrArg (· + 1) hlen, hs'⟩
    rw [completions, hcomplete]
    dsimp only
    rw [hrest]

/-- If every persona of `ps` has a prompt for everything, `askAll` asks them all, and none is cut
off. -/
theorem askAll_ok (a : Analyzer α) {client : Client} (hc : client.Stands) (t : Tracker α)
    (item : Item) (ps : List Persona) (hps : ∀ p ∈ ps, ∀ contentClass previous item max,
      ∃ prompt, p.prompt contentClass previous item max = .ok prompt)
    (r : Record α) {s : Session} (hs : s.Untimed) :
    ∃ r' s' es, a.askAll client t item ps r s = (.ok r', s') ∧ s'.Untimed ∧
      es.map Interview.persona = ps ∧ (∀ e ∈ es, e.completions.length = max a.candidates 1) ∧
      Heard a client item s es s' ∧ Recorded a t (ContentClass.ofItem item) r es r' := by
  induction ps generalizing r s with
  | nil => exact ⟨r, s, [], rfl, hs, rfl, fun _ he => absurd he List.not_mem_nil, .nil s, .nil r⟩
  | cons p ps ih =>
    obtain ⟨prompt, hprompt⟩ := hps p List.mem_cons_self (ContentClass.ofItem item) r.thoughts item
      a.maxPrompt
    obtain ⟨cs, s₁, hcs, hlen, hs₁⟩ := a.completions_ok hc prompt (max a.candidates 1) hs
    have hrest := fun r => ih (fun q hq => hps q (List.mem_cons_of_mem p hq)) r hs₁
    -- the record after this persona, with the interview that explains it
    rw [askAll]
    unfold ask
    dsimp only
    rw [hprompt]
    dsimp only
    rw [hcs]
    dsimp only
    cases hbest : a.best t cs with
    | none =>
      obtain ⟨r', s', es, hall, hs', hmap, hlens, hheard, hrec⟩ := hrest r
      refine ⟨r', s', ⟨p, r.thoughts, prompt, cs⟩ :: es, hall, hs', congrArg (p :: ·) hmap,
        List.forall_mem_cons.2 ⟨hlen, hlens⟩, .cons hprompt hcs hheard,
        .missing rfl (best_eq_none hbest) hrec⟩
    | some d =>
      obtain ⟨c, hmem, husable, rfl⟩ := best_eq_some hbest
      obtain ⟨r', s', es, hall, hs', hmap, hlens, hheard, hrec⟩ := hrest
        (r ++ [a.answer p (ContentClass.ofItem item) r.thoughts ⟨c.text, t.score c.text⟩])
      refine ⟨r', s', ⟨p, r.thoughts, prompt, cs⟩ :: es, hall, hs', congrArg (p :: ·) hmap,
        List.forall_mem_cons.2 ⟨hlen, hlens⟩, .cons hprompt hcs hheard,
        .answered rfl hmem husable hrec⟩

/-! ## What a record shows -/

/-- `ans` is the best completion of one of the interviews `es`, and passes on what that persona was
shown. -/
structure Yielded (a : Analyzer α) (es : List Interview) (ans : Answer α) : Prop where
  heard : ∃ e ∈ es, e.persona.id = ans.persona ∧ e.shown = ans.previous ∧
    ∃ c ∈ e.completions, ans.response = Text.truncate a.maxPrompt c.text
  filled : ans.response ≠ []
  unmarked : Completion.errorMark.isPrefixOf ans.response = false

omit [Arith α] in
theorem Yielded.cons {a : Analyzer α} {es : List Interview} {ans : Answer α}
    (h : Yielded a es ans) (e : Interview) : Yielded a (e :: es) ans := by
  obtain ⟨e', hmem, hrest⟩ := h.heard
  exact ⟨⟨e', List.mem_cons_of_mem e hmem, hrest⟩, h.filled, h.unmarked⟩

omit [Arith α] in
theorem yielded_answer {a : Analyzer α} {e : Interview} {c : Completion} (hmem : c ∈ e.completions)
    (husable : c.isError = false) (contentClass : ContentClass) (novelty : α)
    (es : List Interview) :
    Yielded a (e :: es) (a.answer e.persona contentClass e.shown ⟨c.text, novelty⟩) := by
  have hcut : (⟨Text.truncate a.maxPrompt c.text⟩ : Completion).isError = false :=
    Text.not_isError_truncate husable
  unfold Completion.isError at hcut
  rw [Bool.or_eq_false_iff, List.isEmpty_eq_false_iff] at hcut
  exact ⟨⟨e, List.mem_cons_self, rfl, rfl, c, hmem, rfl⟩, hcut.1, hcut.2⟩

/-- What `Recorded` adds: answers of the personas in their order, each shown what was recorded
before it, and one for every interview that has a usable completion. -/
theorem Recorded.added {a : Analyzer α} {t : Tracker α} {contentClass : ContentClass}
    {r r' : Record α} {es : List Interview} (h : Recorded a t contentClass r es r') :
    ∃ new, r' = r ++ new ∧
      (Record.personas new).Sublist (es.map fun e => e.persona.id) ∧
      (∀ before ans after, new = before ++ ans :: after →
        ans.previous = Record.thoughts (r ++ before) ∧ Yielded a es ans) ∧
      ((es.map fun e => e.persona.id).Nodup → ∀ e ∈ es,
        (e.persona.id ∉ Record.personas new ↔ ∀ c ∈ e.completions, c.isError = true)) := by
  induction h with
  | nil r =>
    refine ⟨[], (List.append_nil r).symm, List.Sublist.slnil, fun before ans after h => ?_,
      fun _ e he => absurd he List.not_mem_nil⟩
    exact absurd h.symm (List.append_ne_nil_of_right_ne_nil _ (List.cons_ne_nil _ _))
  | @missing r r' e es shown useless rest ih =>
    obtain ⟨new, hr', hsub, hans, hmissing⟩ := ih
    refine ⟨new, hr', hsub.cons _, fun before ans after hsplit => ?_, fun hnodup => ?_⟩
    · obtain ⟨hprevious, hyield⟩ := hans before ans after hsplit
      exact ⟨hprevious, hyield.cons e⟩
    · obtain ⟨hnot, hnodup⟩ := List.nodup_cons.1 hnodup
      refine List.forall_mem_cons.2 ⟨⟨fun _ => useless, fun _ hin => ?_⟩, hmissing hnodup⟩
      exact hnot (hsub.subset hin)
  | @answered r r' e es c shown mem usable rest ih =>
    obtain ⟨new, hr', hsub, hans, hmissing⟩ := ih
    refine ⟨a.answer e.persona contentClass e.shown ⟨c.text, t.score c.text⟩ :: new,
      by rw [hr', List.append_assoc, List.singleton_append], hsub.cons_cons e.persona.id,
      fun before ans after hsplit => ?_, fun hnodup => ?_⟩
    · cases before with
      | nil =>
        obtain ⟨rfl, -⟩ := List.cons.inj hsplit
        exact ⟨by rw [List.append_nil]; exact shown, yielded_answer mem usable _ _ es⟩
      | cons first before =>
        rw [List.cons_append] at hsplit
        obtain ⟨rfl, htail⟩ := List.cons.inj hsplit
        obtain ⟨hprevious, hyield⟩ := hans before ans after htail
        rw [List.append_assoc, List.singleton_append] at hprevious
        exact ⟨hprevious, hyield.cons e⟩
    · obtain ⟨hnot, hnodup⟩ := List.nodup_cons.1 hnodup
      refine List.forall_mem_cons.2 ⟨⟨fun h => absurd List.mem_cons_self h, fun hall => ?_⟩,
        fun e' he' => ?_⟩
      · rw [hall c mem] at usable
        cases usable
      · -- personas are asked once, so the answer just added is not that of a later one
        have hne : e'.persona.id ≠ e.persona.id := fun heq =>
          hnot (List.mem_map.2 ⟨e', he', heq⟩)
        rw [← hmissing hnodup e' he']
        exact ⟨fun h hin => h (List.mem_cons_of_mem _ hin),
          fun h hin => (List.mem_cons.1 hin).elim hne h⟩

theorem analyze_of_askAll {a : Analyzer α} {client : Client} {t : Tracker α} {item : Item}
    {s s' : Session} {r : Record α}
    (h : a.askAll client t item Persona.roster [] s = (.ok r, s')) :
    a.analyze client t item s = (.ok ⟨r, (t.observe r).1, (t.observe r).2⟩, s') := by
  unfold analyze
  rw [h]

/-- For a client that `Stands`, without a deadline, `analyze` comes to its end, and there is still
no deadline then. -/
theorem analyze_untimed (a : Analyzer α) {client : Client} (hc : client.Stands) (t : Tracker α)
    (item : Item) {s : Session} (hs : s.Untimed) :
    ∃ an s', a.analyze client t item s = (.ok an, s') ∧ s'.Untimed := by
  obtain ⟨r, s', es, hall, hs', -⟩ := a.askAll_ok hc t item Persona.roster
    (fun _ hp => Persona.prompt_of_mem_roster hp) [] hs
  exact ⟨_, s', analyze_of_askAll hall, hs'⟩

/-- **Every analysis yields a record, whatever the client answers.** Side conditions:
`client.Stands`, which excludes a breakdown of the client itself, and `s.Untimed`, which excludes a
deadline. The personas of the record are a sublist of `Persona.roster`; one is missing exactly where
none of its completions is usable, and the others are shown `thoughts` of the answers before. -/
theorem analyze_ok (a : Analyzer α) {client : Client} (hc : client.Stands) (t : Tracker α)
    (item : Item) {s : Session} (hs : s.Untimed) :
    ∃ an s' es, a.analyze client t item s = (.ok an, s') ∧
      es.map Interview.persona = Persona.roster ∧ Heard a client item s es s' ∧
      (Record.personas an.record).Sublist
        ["curator".toList, "analyst".toList, "synthesizer".toList] ∧
      (Record.personas an.record).Nodup ∧
      (∀ e ∈ es, e.completions.length = max a.candidates 1 ∧
        (e.persona.id ∉ Record.personas an.record ↔ ∀ c ∈ e.completions, c.isError = true)) ∧
      (∀ before ans after, an.record = before ++ ans :: after →
        ans.previous = Record.thoughts before ∧ Yielded a es ans) := by
  obtain ⟨r, s', es, hall, -, hmap, hlens, hheard, hrec⟩ := a.askAll_ok hc t item Persona.roster
    (fun _ hp => Persona.prompt_of_mem_roster hp) [] hs
  obtain ⟨new, hnew, hsub, hans, hmissing⟩ := hrec.added
  rw [List.nil_append] at hnew
  subst hnew
  have hids : es.map (fun e => e.persona.id) = Persona.roster.map Persona.id := by
    rw [← hmap, List.map_map]
    rfl
  have hnodup := Persona.nodup_ids_roster
  rw [hids] at hsub hmissing
  exact ⟨_, s', es, analyze_of_askAll hall, hmap, hheard, hsub, hnodup.sublist hsub,
    fun e he => ⟨hlens e he, hmissing hnodup e he⟩, hans⟩

/-- A client whose first streams are refused, break off, or bring a failure as their text. -/
theorem analyze_ok_script :
    let client := Client.script [Client.refusal, .stream [.delta "Error: busy".toList],
      .stream [.delta "topic: ships".toList, .failure .transport], .stream []] true
    let a : Analyzer Rat := ⟨⟨⟨1, 0⟩, [], ⟨[], 0, 1, 40, 256, 1⟩, 400⟩, 0, 0, none⟩
    let item := Item.text "the quick brown fox".toList
    client.Stands ∧ Session.fresh.Untimed ∧
    ∃ an s', a.analyze client (.fresh 10 0) item .fresh = (.ok an, s') ∧
      (Record.personas an.record).Nodup ∧
      ∀ ans ∈ an.record, ans.response ≠ [] := by
  intro client a item
  have hc : client.Stands := Client.script_stands (by simp [Client.refusal]) true
  have hs : Session.fresh.Untimed := rfl
  obtain ⟨an, s', es, hall, -, -, -, hnodup, -, hans⟩ := a.analyze_ok hc (.fresh 10 0) item hs
  refine ⟨hc, hs, an, s', hall, hnodup, fun ans hmem => ?_⟩
  obtain ⟨before, after, hsplit⟩ := List.append_of_mem hmem
  exact (hans before ans after hsplit).2.filled

end Analyzer
end ClipLedger
