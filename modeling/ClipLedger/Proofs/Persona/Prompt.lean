import ClipLedger.Persona.Roster

/-
  The templates of the personas. A text without braces and backslashes reads as itself, and a name
  in braces as its value (`render_append`, `render_name`). Each template of the roster is such a
  text around the one place for what was answered before (`placed_of_mem_roster`), so what a
  persona is shown stands in its prompt as it is (`Placed.render`) and no prompt fails.
-/
namespace ClipLedger

namespace Template

/-- No character of `t` has a meaning in templates. -/
def Plain (t : Text) : Prop := ∀ c ∈ t, c ≠ '\\' ∧ c ≠ brace

instance (t : Text) : Decidable (Plain t) := inferInstanceAs (Decidable (∀ c ∈ t, _))

/-! ## Literal texts -/

theorem readFrom_plain {c : Char} (hc : c ≠ '\\' ∧ c ≠ brace) (rest : Text) :
    readFrom .literal (c :: rest) = (readFrom .literal rest).map (consLiteral c) := by
  rw [readFrom.eq_def]
  split
  · next h => cases h
  · next h => cases h
  · next h =>
    cases h
    exact absurd rfl hc.1
  · next h =>
    cases h
    rw [if_neg hc.2]
  · next h _ => cases h

theorem fillParts_consLiteral (context : Json) (c : Char) (parts : List Part) :
    fillParts context (consLiteral c parts) = (fillParts context parts).map (c :: ·) := by
  unfold consLiteral
  split
  · next t rest =>
    rw [fillParts, fillParts, Part.fill, Part.fill]
    dsimp only
    cases fillParts context rest <;> rfl
  · rw [fillParts, Part.fill]
    rfl

/-- The parts that are read are filled at once. -/
theorem render_eq (t : Text) (context : Json) :
    render t context = (readFrom .literal t).bind (fillParts context) := by
  unfold render read fill
  cases readFrom .literal t <;> rfl

theorem render_append {pre : Text} (hpre : Plain pre) (rest : Text) (context : Json) :
    render (pre ++ rest) context = (render rest context).map (pre ++ ·) := by
  induction pre with
  | nil =>
    rw [List.nil_append]
    cases render rest context <;> rfl
  | cons c pre ih =>
    have hc := hpre c List.mem_cons_self
    have hrest := ih fun d hd => hpre d (List.mem_cons_of_mem c hd)
    have hstep : render (c :: (pre ++ rest)) context =
        (render (pre ++ rest) context).map (c :: ·) := by
      rw [render_eq, render_eq, readFrom_plain hc]
      cases readFrom .literal (pre ++ rest) with
      | error e => rfl
      | ok parts => exact fillParts_consLiteral context c parts
    rw [List.cons_append, hstep, hrest]
    cases render rest context <;> rfl

theorem render_plain {t : Text} (ht : Plain t) (context : Json) : render t context = .ok t := by
  have h := render_append ht [] context
  rw [List.append_nil] at h
  rw [h]
  exact congrArg Except.ok (List.append_nil t)

/-! ## Names -/

theorem readFrom_inside {name : Text} (hname : ∀ c ∈ name, c ≠ closingBrace ∧ c ≠ '\n')
    (seen rest : Text) :
    readFrom (.inside seen) (name ++ closingBrace :: rest) =
      (readFrom .literal rest).map (.value (path (seen ++ name)) :: ·) := by
  induction name generalizing seen with
  | nil => rw [List.nil_append, List.append_nil, readFrom, if_pos rfl]
  | cons c name ih =>
    have hc := hname c List.mem_cons_self
    rw [List.cons_append, readFrom, if_neg hc.1, if_neg hc.2,
      ih (fun d hd => hname d (List.mem_cons_of_mem c hd)), List.append_assoc,
      List.singleton_append]

theorem render_name {name : Text} (hname : ∀ c ∈ name, c ≠ closingBrace ∧ c ≠ '\n') (rest : Text)
    {context : Json} {value : Text} (hvalue : (Part.value (path name)).fill context = .ok value) :
    render (brace :: (name ++ closingBrace :: rest)) context =
      (render rest context).map (value ++ ·) := by
  have hread : readFrom .literal (brace :: (name ++ closingBrace :: rest)) =
      (readFrom .literal rest).map (.value (path name) :: ·) := by
    rw [readFrom.eq_def]
    exact readFrom_inside hname [] rest
  rw [render_eq, render_eq, hread]
  cases readFrom .literal rest with
  | error e => rfl
  | ok parts =>
    show fillParts context (.value (path name) :: parts) = _
    rw [fillParts, hvalue]
    rfl

end Template

namespace Persona

/-- The name of the one place in a template. -/
def placeName : Text := "previous_thoughts".toList

/-- `template` is plain text `before` and `after` the place of `placeName`. -/
structure Placed (template before after : Text) : Prop where
  split : template = before ++ Template.brace :: (placeName ++ Template.closingBrace :: after)
  before : Template.Plain before
  after : Template.Plain after

theorem Placed.render {p : Persona} {before after : Text} (h : Placed p.template before after)
    (previous : Text) : p.render previous = .ok (before ++ (previous ++ after)) := by
  have hvalue : (Template.Part.value (Template.path placeName)).fill
      (.record [("previous_thoughts", .text previous)]) = .ok previous := by
    have hpath : Template.path placeName = [placeName] := by decide +kernel
    rw [hpath]
    rfl
  unfold Persona.render
  rw [h.split, Template.render_append h.before,
    Template.render_name (by decide +kernel) after hvalue,
    Template.render_plain h.after]
  rfl

/-- The text of `template` in front of its place, and the text behind it. -/
def around (template : Text) : Text × Text :=
  (template.takeWhile (· != Template.brace),
    (template.dropWhile (· != Template.closingBrace)).tail)

instance (template before after : Text) : Decidable (Placed template before after) :=
  decidable_of_iff (template = before ++
      Template.brace :: (placeName ++ Template.closingBrace :: after) ∧
      Template.Plain before ∧ Template.Plain after)
    ⟨fun h => ⟨h.1, h.2.1, h.2.2⟩, fun h => ⟨h.split, h.before, h.after⟩⟩

/-- Every template of the roster is plain text around one place. -/
theorem placed_of_mem_roster {p : Persona} (hp : p ∈ roster) :
    Placed p.template (around p.template).1 (around p.template).2 := by
  -- the literals are opened to their characters first, which is what takes time otherwise
  unfold roster at hp
  rcases List.mem_cons.1 hp with rfl | hp
  · unfold curator
    dsimp only
    rw [String.toList_ofList]
    decide +kernel
  rcases List.mem_cons.1 hp with rfl | hp
  · unfold analyst
    dsimp only
    rw [String.toList_ofList]
    decide +kernel
  rw [List.mem_singleton.1 hp]
  unfold synthesizer
  dsimp only
  rw [String.toList_ofList]
  decide +kernel

theorem ids_roster : roster.map Persona.id =
    ["curator".toList, "analyst".toList, "synthesizer".toList] := rfl

/-- No persona is asked twice. -/
theorem nodup_ids_roster : (roster.map id).Nodup := by
  rw [ids_roster]
  decide +kernel

/-- Every persona of the roster has a prompt for everything. -/
theorem prompt_of_mem_roster {p : Persona} (hp : p ∈ roster) (contentClass : ContentClass)
    (previous : Text) (item : Item) (max : Nat) :
    ∃ prompt, p.prompt contentClass previous item max = .ok prompt := by
  have hrender := (placed_of_mem_roster hp).render previous
  cases item with
  | text t =>
    unfold prompt promptWith
    rw [hrender]
    exact ⟨_, rfl⟩
  | image path digest =>
    unfold prompt promptWith
    rw [hrender]
    exact ⟨_, rfl⟩

end Persona
end ClipLedger
