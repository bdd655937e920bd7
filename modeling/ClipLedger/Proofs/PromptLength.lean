import ClipLedger.Proofs.Model.Retry
import ClipLedger.Proofs.Novelty.Learning
import ClipLedger.Proofs.Persona.Verbatim
import ClipLedger.Proofs.Text.Lines

/-
  How long prompts are. Whatever a client answers, an analysis keeps of each answer a budget of
  characters and a marker, and of that a later persona is shown some lines under a label. So three
  parts of a prompt depend on more than the program: the content and at most two earlier answers,
  each of them within the budget but for a few characters (`analyze_bounded`). Nothing is asked of
  the client, and nothing of the analysis: the bound holds of all that was sent, also where it was
  cut off or broke down later on.
-/
namespace ClipLedger

/-! ## Earlier answers -/

namespace Record

variable {α : Type} {budget : Nat}

/-- The `block` of `ans` is within `budget`, but for its label and a marker. -/
def Brief (budget : Nat) (ans : Answer α) : Prop := (block ans).length ≤ budget + 28

theorem length_block_le (ans : Answer α) :
    (block ans).length ≤ ans.persona.length + 2 + ans.response.length := by
  have hlines := Text.length_join_colonLines_le ans.response
  unfold block
  rw [List.length_append, List.length_append]
  show _ + 2 + _ ≤ _
  omega

theorem extent_blocks_le {r : Record α} (h : ∀ ans ∈ r, Brief budget ans) :
    Text.extent (r.map block) ≤ r.length * (budget + 29) := by
  induction r with
  | nil => exact Nat.zero_le _
  | cons ans r ih =>
    rw [List.forall_mem_cons] at h
    have hblock : (block ans).length ≤ budget + 28 := h.1
    have hrest := ih h.2
    rw [List.map_cons, Text.extent_cons, List.length_cons, Nat.succ_mul]
    omega

/-- Two answers that are `Brief` are shown in twice the budget and 57 characters. -/
theorem length_thoughts_le {r : Record α} (hfew : r.length ≤ 2) (h : ∀ ans ∈ r, Brief budget ans) :
    r.thoughts.length ≤ 2 * budget + 57 := by
  have hblocks := extent_blocks_le h
  have htwo := Nat.mul_le_mul_right (budget + 29) hfew
  unfold thoughts
  split
  · have hnone : noPrevious.length = 17 := by decide +kernel
    omega
  · rw [Text.length_join]
    omega

end Record

/-! ## Prompts -/

namespace Persona

theorem length_id_le {p : Persona} (hp : p ∈ roster) : p.id.length ≤ 11 := by
  have hids : ∀ id ∈ roster.map Persona.id, id.length ≤ 11 := by
    rw [ids_roster]
    decide +kernel
  exact hids p.id (List.mem_map_of_mem hp)

theorem length_template_le {p : Persona} (hp : p ∈ roster) : p.template.length ≤ 700 := by
  -- the literals are opened to their characters first, as for their places
  unfold roster at hp
  rcases List.mem_cons.1 hp with rfl | hp
  · unfold curator
    dsimp only
    rw [String.toList_ofList]
    decide +kernel
  rcases List.mem_cons.1 hp with rfl | hp
  · unfold analyst
    dsimp only
    rw [String.toList_ofList]
    decide +kernel
  rw [List.mem_singleton.1 hp]
  unfold synthesizer
  dsimp only
  rw [String.toList_ofList]
  decide +kernel

theorem length_heading_le (contentClass : ContentClass) : (heading contentClass).length ≤ 40 := by
  cases contentClass <;> decide +kernel

/-- What a prompt says about a text is within `max` but for 37 characters. -/
theorem length_itemSection_le (max : Nat) (t : Text) :
    (itemSection max (.text t)).length ≤ max + 37 := by
  have hcut := Text.length_truncate_le max t
  have htitle : "\n\nContent to analyze:\n".toList.length = 22 := by decide +kernel
  unfold itemSection
  rw [List.length_append, htitle]
  omega

theorem length_prompt_le {p : Persona} (hp : p ∈ roster) {contentClass : ContentClass}
    {previous t prompt : Text} {max : Nat}
    (h : p.prompt contentClass previous (.text t) max = .ok prompt) :
    prompt.length ≤ 777 + previous.length + max := by
  have hplaced := placed_of_mem_roster hp
  have htemplate := length_template_le hp
  have hheading := length_heading_le contentClass
  have hsection := length_itemSection_le max t
  rw [hplaced.prompt_eq] at h
  rw [hplaced.split_place, List.length_append, List.length_append] at htemplate
  rw [← Except.ok.inj h]
  simp only [List.length_append]
  omega

end Persona

namespace Analyzer

variable {α : Type}

/-! ## What an analysis sends -/

/-- The request is for the prompt of a persona of the roster that is shown at most two answers, each
`Brief`. -/
inductive Shows (a : Analyzer α) (item : Item) : Request → Prop where
  | mk {p : Persona} {r : Record α} {prompt : Text} (persona : p ∈ Persona.roster)
      (few : r.length ≤ 2) (brief : ∀ ans ∈ r, Record.Brief a.maxPrompt ans)
      (prompted : p.prompt (ContentClass.ofItem item) r.thoughts item a.maxPrompt = .ok prompt) :
      Shows a item (a.inference.request prompt)

theorem completions_sends (a : Analyzer α) (client : Client) (prompt : Text) (n : Nat)
    (s : Session) :
    s.Sends (· = a.inference.request prompt) (a.completions client prompt n s).2 := by
  induction n generalizing s with
  | zero => exact .refl s
  | succ n ih =>
    have hfirst := a.inference.complete_sends client prompt s
    rw [completions]
    split
    · next h s₁ heq =>
      rw [heq] at hfirst
      exact hfirst
    · next c s₁ heq =>
      rw [heq] at hfirst
      have hrest := ih s₁
      split
      · next h s₂ heq' =>
        rw [heq'] at hrest
        exact hfirst.trans hrest
      · next cs s₂ heq' =>
        rw [heq'] at hrest
        exact hfirst.trans hrest

variable [Arith α]

section Ask

variable (a : Analyzer α) (client : Client) (t : Tracker α) (item : Item)

theorem ask_sends {p : Persona} (hp : p ∈ Persona.roster) {r : Record α} (hfew : r.length ≤ 2)
    (hbrief : ∀ ans ∈ r, Record.Brief a.maxPrompt ans) (s : Session) :
    s.Sends (Shows a item) (a.ask client t item p r s).2 := by
  unfold ask
  dsimp only
  split
  · exact .refl s
  next prompt hprompt =>
  have hcompletions :
      s.Sends (Shows a item) (a.completions client prompt (max a.candidates 1) s).2 :=
    (a.completions_sends client prompt _ s).mono fun request hrequest =>
      hrequest ▸ .mk hp hfew hbrief hprompt
  split
  · next h s₁ heq =>
    rw [heq] at hcompletions
    exact hcompletions
  · next cs s₁ heq =>
    rw [heq] at hcompletions
    split
    · exact hcompletions
    · exact hcompletions

/-- `ask` adds at most one answer to a record of brief answers, which is `Brief` too. -/
theorem ask_brief {p : Persona} (hp : p ∈ Persona.roster) {r r' : Record α}
    (hbrief : ∀ ans ∈ r, Record.Brief a.maxPrompt ans) {s s' : Session}
    (h : a.ask client t item p r s = (.ok r', s')) :
    r'.length ≤ r.length + 1 ∧ ∀ ans ∈ r', Record.Brief a.maxPrompt ans := by
  obtain ⟨e, rfl, -, -, -, rfl⟩ := ask_eq_ok h
  unfold Interview.answer?
  cases a.best t e.completions with
  | none => exact ⟨by simp, by simpa using hbrief⟩
  | some c =>
    refine ⟨by simp, fun ans hans => ?_⟩
    rcases List.mem_append.1 hans with hans | hans
    · exact hbrief ans hans
    rw [Option.map_some, Option.toList_some, List.mem_singleton] at hans
    have hblock := Record.length_block_le ans
    have hname : ans.persona.length ≤ 11 := hans ▸ Persona.length_id_le hp
    have hcut : ans.response.length ≤ a.maxPrompt + 15 :=
      hans ▸ Text.length_truncate_le a.maxPrompt c.text
    unfold Record.Brief
    omega

/-- `askAll` sends only requests that `Shows` describes: the answers and the personas still to ask
are three at most. -/
theorem askAll_sends {ps : List Persona} (hps : ∀ p ∈ ps, p ∈ Persona.roster) {r : Record α}
    (hfew : r.length + ps.length ≤ 3) (hbrief : ∀ ans ∈ r, Record.Brief a.maxPrompt ans)
    (s : Session) : s.Sends (Shows a item) (a.askAll client t item ps r s).2 := by
  induction ps generalizing r s with
  | nil => exact .refl s
  | cons p ps ih =>
    rw [List.forall_mem_cons] at hps
    rw [List.length_cons] at hfew
    have hfirst := a.ask_sends client t item hps.1 (by omega) hbrief s
    rw [askAll]
    split
    · next e s₁ heq =>
      rw [heq] at hfirst
      exact hfirst
    · next r₁ s₁ heq =>
      rw [heq] at hfirst
      obtain ⟨hlength, hbrief₁⟩ := a.ask_brief client t item hps.1 hbrief heq
      exact hfirst.trans (ih hps.2 (by omega) hbrief₁ s₁)

theorem analyze_sends (s : Session) : s.Sends (Shows a item) (a.analyze client t item s).2 := by
  have hfew : ([] : Record α).length + Persona.roster.length ≤ 3 := Nat.le_refl 3
  have hall := a.askAll_sends client t item (fun _ hp => hp) hfew
    (fun _ hans => absurd hans List.not_mem_nil) s
  unfold analyze
  split
  · next e s₁ heq =>
    rw [heq] at hall
    exact hall
  · next r s₁ heq =>
    rw [heq] at hall
    exact hall

end Ask

/-! ## The bound -/

/-- The characters of a prompt that belong to no budget are fewer than this. -/
def overhead : Nat := 900

omit [Arith α] in
theorem Shows.length_user_le {a : Analyzer α} {text : Text} {request : Request}
    (h : Shows a (.text text) request) : request.user.length ≤ overhead + 3 * a.maxPrompt := by
  obtain ⟨hp, hfew, hbrief, hprompt⟩ := h
  have hthoughts := Record.length_thoughts_le hfew hbrief
  have hlength := Persona.length_prompt_le hp hprompt
  have hsuffix : Inference.conciseness.length = 51 := by decide +kernel
  unfold Inference.request overhead
  rw [List.length_append, hsuffix]
  omega

/-- **Prompts are bounded.** Whatever `text` is analysed and whatever `client` answers, also where
the analysis is broken off, every request sent has at most `3 * a.maxPrompt + overhead` characters:
one budget is for the content, and two for the answers that are shown. -/
theorem analyze_bounded (a : Analyzer α) (client : Client) (t : Tracker α) (text : Text)
    (s : Session) :
    (Persona.itemSection a.maxPrompt (.text text)).length ≤ a.maxPrompt + overhead ∧
    ∃ requests : List Request,
      (a.analyze client t (.text text) s).2.sent = s.sent ++ requests.toArray ∧
      ∀ request ∈ requests,
        Shows a (.text text) request ∧ request.user.length ≤ overhead + 3 * a.maxPrompt := by
  have hcontent := Persona.length_itemSection_le a.maxPrompt text
  obtain ⟨requests, hsent, hshows⟩ := a.analyze_sends client t (.text text) s
  refine ⟨by unfold overhead; omega, requests, hsent, fun request hmem => ?_⟩
  exact ⟨hshows request hmem, (hshows request hmem).length_user_le⟩

end Analyzer
end ClipLedger
