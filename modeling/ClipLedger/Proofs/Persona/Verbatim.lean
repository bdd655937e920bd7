import ClipLedger.Proofs.Persona.Prompt
import Mathlib.Data.List.Basic

/-
  What a persona is shown stands in its prompt word for word. Each template of the roster has one
  place, and there alone (`Placed.unique`); whatever stands in the earlier answers, braces and
  backslashes too, is put there once and not read again. A prompt is a header, the filled template
  and a section about the item, and no two texts shown make the same prompt (`prompt_verbatim`).
-/
namespace ClipLedger.Persona

/-- The place in a template for what was answered before. -/
def place : Text := "{previous_thoughts}".toList

/-- What stands in front of the filled template in a prompt. -/
def heading (contentClass : ContentClass) : Text :=
  "Content type detected: ".toList ++ contentClass.name ++ "\n\n".toList

/-- What stands behind the filled template in a prompt: the text, cut to `max` characters, or the
path of the image. -/
def itemSection (max : Nat) : Item → Text
  | .text t => "\n\nContent to analyze:\n".toList ++ Text.truncate max t
  | .image path _ => "\n\nAnalyze this screenshot: ".toList ++ path.display

section Placed

variable {template before after : Text}

theorem Placed.split_place (h : Placed template before after) :
    template = before ++ place ++ after := by
  have hplace : place = Template.brace :: (placeName ++ [Template.closingBrace]) := by
    decide +kernel
  rw [h.split, hplace]
  simp

/-- A template splits at its `place` in one way only. -/
theorem Placed.unique (h : Placed template before after) {x y : Text}
    (hsplit : template = x ++ place ++ y) : x = before ∧ y = after := by
  have hbefore : Template.brace ∉ before := fun hmem => (h.before _ hmem).2 rfl
  have hafter : Template.brace ∉ after := fun hmem => (h.after _ hmem).2 rfl
  obtain ⟨name, hplace, hname⟩ : ∃ name, place = Template.brace :: name ∧ Template.brace ∉ name :=
    ⟨place.tail, by decide +kernel, by decide +kernel⟩
  rw [h.split_place, hplace, List.append_assoc, List.append_assoc, List.cons_append,
    List.cons_append] at hsplit
  have hrest : Template.brace ∉ name ++ after := by simp [hname, hafter]
  obtain ⟨hx, -, hy⟩ := (List.append_cons_inj_of_notMem hbefore hrest).1 hsplit
  exact ⟨hx.symm, (List.append_cancel_left hy).symm⟩

end Placed

/-- The prompt of a template with a place. -/
theorem Placed.prompt_eq {p : Persona} {before after : Text} (h : Placed p.template before after)
    (contentClass : ContentClass) (previous : Text) (item : Item) (max : Nat) :
    p.prompt contentClass previous item max =
      .ok (heading contentClass ++ (before ++ previous ++ after) ++ itemSection max item) := by
  have hrender := h.render previous
  rw [List.append_assoc before]
  cases item with
  | text t =>
    unfold prompt promptWith
    rw [hrender]
    rfl
  | image path digest =>
    unfold prompt promptWith
    rw [hrender]
    rfl

/-- **What was answered before stands in a prompt as it is.** The template of a persona of the
roster has one `place`. In `render` and `prompt` exactly that is replaced, whatever `previous` is,
and `previous` can be told from the prompt. -/
theorem prompt_verbatim {p : Persona} (hp : p ∈ roster) :
    ∃ before after, p.template = before ++ place ++ after ∧
      (∀ x y, p.template = x ++ place ++ y → x = before ∧ y = after) ∧
      (∀ previous, p.render previous = .ok (before ++ previous ++ after)) ∧
      ∀ contentClass item max,
        (∀ previous, p.prompt contentClass previous item max =
          .ok (heading contentClass ++ (before ++ previous ++ after) ++ itemSection max item)) ∧
        ∀ previous previous', p.prompt contentClass previous item max =
          p.prompt contentClass previous' item max → previous = previous' := by
  have hplaced := placed_of_mem_roster hp
  refine ⟨_, _, hplaced.split_place, fun x y => hplaced.unique, fun previous => ?_,
    fun contentClass item max => ⟨fun previous => hplaced.prompt_eq contentClass previous item max,
      fun previous previous' hsame => ?_⟩⟩
  · rw [hplaced.render, List.append_assoc]
  · rw [hplaced.prompt_eq, hplaced.prompt_eq] at hsame
    simpa using hsame

/-- Braces, a backslash and marks of other languages, in the middle of the analyst's template. -/
theorem prompt_verbatim_analyst :
    let previous := "curator:\nkind: {previous_thoughts} \\\x7b <b>&amp;\"".toList
    analyst ∈ roster ∧ ∃ before after, analyst.template = before ++ place ++ after ∧
      analyst.render previous = .ok (before ++ previous ++ after) ∧
      analyst.prompt .code previous (.text "let x;".toList) 3 =
        .ok ("Content type detected: code\n\n".toList ++ (before ++ previous ++ after) ++
          "\n\nContent to analyze:\nlet... [truncated]".toList) := by
  intro previous
  have hp : analyst ∈ roster := List.mem_cons_of_mem _ List.mem_cons_self
  obtain ⟨before, after, hsplit, -, hrender, hprompt⟩ := prompt_verbatim hp
  have hhead : heading .code = "Content type detected: code\n\n".toList := by decide +kernel
  have hitem : itemSection 3 (.text "let x;".toList) =
      "\n\nContent to analyze:\nlet... [truncated]".toList := by decide +kernel
  refine ⟨hp, before, after, hsplit, hrender previous, ?_⟩
  rw [(hprompt .code (.text "let x;".toList) 3).1, hhead, hitem]

end ClipLedger.Persona
