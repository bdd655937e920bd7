import ClipLedger.Proofs.Model.Chunk
import Mathlib.Data.List.Forall2
import Mathlib.Data.Option.Basic
import Mathlib.Logic.Relation

/-
  Only the value that a line spells counts. Where one value differs from another in the order of
  fields, or in fields of names that are not read, every reader of it has the same outcome
  (`ofJson?_varies`, one lemma for each reader); so neither layout and escapes, nor order, nor
  further fields change what is decoded (`decodeLine_varied`).
-/
namespace ClipLedger.Chunk

open Text (Blank)

/-! ## Values that say the same -/

/-- The names of the fields that a chunk is read from. -/
def knownNames : List Text :=
  ["event".toList, "choices".toList, "delta".toList, "message".toList, "content".toList,
    "text".toList]

/-- The values differ in one place: the fields of an object stand in another order, or there are
more of them, with names that are not in `knownNames`. -/
inductive Varies : Json → Json → Prop
  | order {fields fields' : List (Text × Json)} (h : fields.Perm fields') :
      Varies (.object fields) (.object fields')
  | more {fields extra : List (Text × Json)} (h : ∀ f ∈ extra, f.1 ∉ knownNames) :
      Varies (.object fields) (.object (fields ++ extra))
  | item {v v' : Json} (before after : List Json) (h : Varies v v') :
      Varies (.list (before ++ v :: after)) (.list (before ++ v' :: after))
  | field {v v' : Json} (before after : List (Text × Json)) (k : Text) (h : Varies v v') :
      Varies (.object (before ++ (k, v) :: after)) (.object (before ++ (k, v') :: after))

/-- The values differ in one place at most. -/
abbrev Near : Json → Json → Prop := Relation.ReflGen Varies

/-- The fields of a structure differ in one place at most. -/
abbrev NearFields : List (Option Json) → List (Option Json) → Prop :=
  List.Forall₂ (Option.Rel Near)

theorem Near.refl? (v : Option Json) : Option.Rel Near v v := by
  cases v with
  | none => exact .none
  | some v => exact .some .refl

theorem NearFields.refl (vs : List (Option Json)) : NearFields vs vs := by
  induction vs with
  | nil => exact .nil
  | cons v vs ih => exact .cons (Near.refl? v) ih

/-! ## Fields -/

/-- A known name is looked up with the same outcome in fields that vary. -/
theorem unique?_varies {fields fields' : List (Text × Json)}
    (h : Varies (.object fields) (.object fields')) {name : Text} (hname : name ∈ knownNames) :
    Option.Rel (Option.Rel Near) (Fields.unique? name fields) (Fields.unique? name fields') := by
  have hrefl : ∀ v : Option (Option Json), Option.Rel (Option.Rel Near) v v := by
    intro v
    cases v with
    | none => exact .none
    | some v => exact .some (Near.refl? v)
  generalize hv : Json.object fields = v at h
  generalize hv' : Json.object fields' = v' at h
  unfold Fields.unique?
  cases h with
  | order hperm =>
    cases hv
    cases hv'
    have hfound := hperm.filter fun f => f.1 == name
    generalize fields.filter (fun f => f.1 == name) = found at hfound ⊢
    generalize fields'.filter (fun f => f.1 == name) = found' at hfound ⊢
    match found, found', hfound with
    | [], _, hfound => rw [hfound.nil_eq]; exact hrefl _
    | [f], _, hfound => rw [hfound.singleton_eq]; exact hrefl _
    | f :: g :: rest, [], hfound => exact absurd hfound.length_eq (by simp)
    | f :: g :: rest, [_], hfound => exact absurd hfound.length_eq (by simp)
    | f :: g :: rest, _ :: _ :: _, hfound => exact .none
  | @more _ extra hextra =>
    cases hv
    cases hv'
    have hnone : ∀ f ∈ extra, ¬(f.1 == name) = true := by
      intro f hf he
      exact hextra f hf (eq_of_beq he ▸ hname)
    rw [List.filter_append, List.filter_eq_nil_iff.2 hnone, List.append_nil]
    exact hrefl _
  | item => cases hv
  | field before after k hinner =>
    cases hv
    cases hv'
    rw [List.filter_append, List.filter_append]
    by_cases hk : (k == name) = true
    · simp only [List.filter_cons, hk, if_true]
      generalize before.filter (fun f => f.1 == name) = front
      generalize after.filter (fun f => f.1 == name) = back
      match front, back with
      | [], [] => exact .some (.some (.single hinner))
      | [], _ :: _ => exact .none
      | [_], _ => exact .none
      | _ :: _ :: _, _ => exact .none
    · simp only [List.filter_cons, hk]
      exact hrefl _

theorem uniqueAll?_varies {fields fields' : List (Text × Json)}
    (h : Varies (.object fields) (.object fields')) {names : List Text}
    (hnames : ∀ name ∈ names, name ∈ knownNames) :
    Option.Rel NearFields (Fields.uniqueAll? names fields) (Fields.uniqueAll? names fields') := by
  induction names with
  | nil => exact .some .nil
  | cons name names ih =>
    have hfirst := unique?_varies h (hnames name List.mem_cons_self)
    have hrest := ih fun n hn => hnames n (List.mem_cons_of_mem _ hn)
    unfold Fields.uniqueAll?
    generalize Fields.unique? name fields = v at hfirst ⊢
    generalize Fields.unique? name fields' = v' at hfirst ⊢
    generalize Fields.uniqueAll? names fields = vs at hrest ⊢
    generalize Fields.uniqueAll? names fields' = vs' at hrest ⊢
    cases hfirst with
    | none => exact .none
    | some hv =>
      cases hrest with
      | none => exact .none
      | some hvs => exact .some (.cons hv hvs)

/-- Known fields are found alike in values that vary. -/
theorem objectFields?_varies {v v' : Json} (names : List Text)
    (hnames : ∀ name ∈ names, name ∈ knownNames) (h : Varies v v') :
    Option.Rel NearFields (Json.objectFields? names v) (Json.objectFields? names v') := by
  cases h with
  | order hperm => exact uniqueAll?_varies (.order hperm) hnames
  | more hextra => exact uniqueAll?_varies (.more hextra) hnames
  | item => exact .none
  | field before after k hinner => exact uniqueAll?_varies (.field before after k hinner) hnames

/-- Known fields, or the items that stand for them, are found alike in values that vary. -/
theorem structureFields?_varies {v v' : Json} (names : List Text)
    (hnames : ∀ name ∈ names, name ∈ knownNames) (h : Varies v v') :
    Option.Rel NearFields (Json.structureFields? names v) (Json.structureFields? names v') := by
  cases h with
  | order hperm => exact uniqueAll?_varies (.order hperm) hnames
  | more hextra => exact uniqueAll?_varies (.more hextra) hnames
  | field before after k hinner => exact uniqueAll?_varies (.field before after k hinner) hnames
  | @item v v' before after hinner =>
    have hlength : (before ++ v' :: after).length = (before ++ v :: after).length := by simp
    unfold Json.structureFields? Fields.ofList?
    dsimp only
    rw [hlength]
    split
    · refine .some (List.rel_append ?_ (NearFields.refl _))
      rw [List.map_append, List.map_append, List.map_cons, List.map_cons]
      exact List.rel_append (NearFields.refl _)
        (.cons (.some (.single hinner)) (NearFields.refl _))
    · exact .none

theorem optional?_near {α : Type} {read : Json → Option α}
    (hread : ∀ {v v'}, Varies v v' → read v = read v') {v v' : Option Json}
    (h : Option.Rel Near v v') : Json.optional? read v = Json.optional? read v' := by
  cases h with
  | none => rfl
  | some h =>
    cases h with
    | refl => rfl
    | single h =>
      have hvalue := hread h
      cases h <;> exact congrArg (Option.map some) hvalue

/-- `read` of the only field of a structure, which may be missing. -/
def onlyField? {α : Type} (read : Option Json → Option α) :
    Option (List (Option Json)) → Option α
  | some [v] => read v
  | _ => none

theorem onlyField?_near {α : Type} {read : Option Json → Option α}
    (hread : ∀ {v v'}, Option.Rel Near v v' → read v = read v')
    {fields fields' : Option (List (Option Json))} (h : Option.Rel NearFields fields fields') :
    onlyField? read fields = onlyField? read fields' := by
  cases h with
  | none => rfl
  | some h =>
    cases h with
    | nil => rfl
    | cons hv hrest =>
      cases hrest with
      | nil => exact hread hv
      | cons => rfl

/-! ## Shapes -/

theorem asText?_varies {v v' : Json} (h : Varies v v') : Json.asText? v = Json.asText? v' := by
  cases h <;> rfl

theorem deltaText?_varies {v v' : Json} (h : Varies v v') : deltaText? v = deltaText? v' := by
  have hfields := onlyField?_near (optional?_near asText?_varies)
    (objectFields?_varies ["text".toList] (by decide) h)
  cases h <;> exact hfields

theorem contentText?_varies {v v' : Json} (h : Varies v v') : contentText? v = contentText? v' :=
  onlyField?_near (optional?_near asText?_varies)
    (structureFields?_varies ["content".toList] (by decide) h)

theorem eventText?_varies {v v' : Json} (h : Varies v v') : eventText? v = eventText? v' := by
  have hdelta : ∀ {d d' : Option Json}, Option.Rel Near d d' →
      (Json.optional? deltaText? d).map Option.join =
        (Json.optional? deltaText? d').map Option.join :=
    fun hd => congrArg (Option.map Option.join) (optional?_near deltaText?_varies hd)
  exact onlyField?_near hdelta (structureFields?_varies ["delta".toList] (by decide) h)

theorem choiceText?_varies {v v' : Json} (h : Varies v v') : choiceText? v = choiceText? v' := by
  have hfields := structureFields?_varies ["delta".toList, "message".toList] (by decide) h
  unfold choiceText?
  generalize Json.structureFields? _ v = fields at hfields ⊢
  generalize Json.structureFields? _ v' = fields' at hfields ⊢
  cases hfields with
  | none => rfl
  | some hfields =>
    cases hfields with
    | nil => rfl
    | cons hdelta hrest =>
      cases hrest with
      | nil => rfl
      | cons hmessage hrest =>
        cases hrest with
        | nil =>
          dsimp only
          rw [optional?_near contentText?_varies hdelta,
            optional?_near contentText?_varies hmessage]
        | cons => rfl

theorem choiceTexts?_item {v v' : Json} (h : Varies v v') (before after : List Json) :
    choiceTexts? (before ++ v :: after) = choiceTexts? (before ++ v' :: after) := by
  induction before with
  | nil => rw [List.nil_append, List.nil_append, choiceTexts?, choiceTexts?, choiceText?_varies h]
  | cons w before ih => rw [List.cons_append, List.cons_append, choiceTexts?, choiceTexts?, ih]

/-- An event that is there. -/
def eventOf? : Option Json → Option Chunk
  | some inner => (eventText? inner).map Chunk.event
  | none => none

theorem eventOf?_near {v v' : Option Json} (h : Option.Rel Near v v') :
    eventOf? v = eventOf? v' := by
  cases h with
  | none => rfl
  | some h =>
    cases h with
    | refl => rfl
    | single h => exact congrArg (Option.map Chunk.event) (eventText?_varies h)

theorem ofEvent?_eq (v : Json) :
    ofEvent? v = onlyField? eventOf? (Json.objectFields? ["event".toList] v) := by
  unfold ofEvent?
  generalize Json.objectFields? _ v = fields
  match fields with
  | none => rfl
  | some [] => rfl
  | some [none] => rfl
  | some [some _] => rfl
  | some (none :: _ :: _) => rfl
  | some (some _ :: _ :: _) => rfl

theorem ofEvent?_varies {v v' : Json} (h : Varies v v') : ofEvent? v = ofEvent? v' := by
  rw [ofEvent?_eq, ofEvent?_eq]
  exact onlyField?_near eventOf?_near (objectFields?_varies ["event".toList] (by decide) h)

/-- Choices that are there in a list. -/
def choicesOf? : Option Json → Option Chunk
  | some (.list items) => (choiceTexts? items).map fun ts => .choices ts.head?.join
  | _ => none

theorem choicesOf?_near {v v' : Option Json} (h : Option.Rel Near v v') :
    choicesOf? v = choicesOf? v' := by
  cases h with
  | none => rfl
  | some h =>
    cases h with
    | refl => rfl
    | single h =>
      cases h with
      | item before after hitem =>
        exact congrArg (Option.map fun ts => Chunk.choices ts.head?.join)
          (choiceTexts?_item hitem before after)
      | order => rfl
      | more => rfl
      | field => rfl

theorem ofChoices?_eq (v : Json) :
    ofChoices? v = onlyField? choicesOf? (Json.objectFields? ["choices".toList] v) := by
  unfold ofChoices?
  generalize Json.objectFields? _ v = fields
  match fields with
  | none => rfl
  | some [] => rfl
  | some [none] => rfl
  | some [some v] => cases v <;> rfl
  | some (none :: _ :: _) => rfl
  | some (some v :: _ :: _) => cases v <;> rfl

theorem ofChoices?_varies {v v' : Json} (h : Varies v v') : ofChoices? v = ofChoices? v' := by
  rw [ofChoices?_eq, ofChoices?_eq]
  exact onlyField?_near choicesOf?_near (objectFields?_varies ["choices".toList] (by decide) h)

/-- Values that vary say the same. -/
theorem ofJson?_varies {v v' : Json} (h : Varies v v') : ofJson? v = ofJson? v' := by
  unfold ofJson?
  rw [ofEvent?_varies h, ofChoices?_varies h]

/-- The values differ in any number of places. -/
abbrev Varied : Json → Json → Prop := Relation.EqvGen Varies

theorem ofJson?_varied {v v' : Json} (h : Varied v v') : ofJson? v = ofJson? v' := by
  induction h with
  | rel _ _ h => exact ofJson?_varies h
  | refl _ => rfl
  | symm _ _ _ ih => exact ih.symm
  | trans _ _ _ _ _ ih ih' => exact ih.trans ih'

/-- **Only the value that a line spells counts.** Two lines whose payloads spell objects that are
`Varied`, each within the limits, are decoded alike, however each object is spelled. -/
theorem decodeLine_varied {fields fields' : List (Text × Json)} {t t' line line' : Text}
    (h : Varied (.object fields) (.object fields'))
    (hlimits : (Json.object fields).withinLimits = true)
    (hlimits' : (Json.object fields').withinLimits = true)
    (ht : Json.Spells (.object fields) t) (ht' : Json.Spells (.object fields') t')
    (hl : Carries t line) (hl' : Carries t' line') : decodeLine line = decodeLine line' := by
  rw [decodeLine_of_read ht.object_braces (Json.read?_of_spells ht) hlimits hl,
    decodeLine_of_read ht'.object_braces (Json.read?_of_spells ht') hlimits' hl',
    ofJson?_varied h]

/-- The same delta with blanks and escapes, and with fields that are not read before it and behind
it. -/
theorem decodeLine_varied_spaced :
    let delta : Text × Json := ("delta".toList, .text ['é'])
    let note : Text × Json := ("note".toList, .list [.number "-1.5e3".toList])
    let other : Text × Json := ("x".toList, .null)
    let fields := [("event".toList, Json.object [delta])]
    let fields' := [note, ("event".toList, Json.object [delta, other])]
    let t := "\x7b\"event\":\x7b\"delta\":\"é\"\x7d\x7d".toList
    let t' := "\x7b \"note\":[\t-1.5e3\n],\"\\u0065vent\":".toList ++
      "\x7b\"delta\":\"\\u00E9\",\"x\":null\x7d\x7d".toList
    Varied (.object fields) (.object fields') ∧ (Json.object fields).withinLimits = true ∧
      (Json.object fields').withinLimits = true ∧ Json.Spells (.object fields) t ∧
      Json.Spells (.object fields') t' ∧ Carries t t ∧ Carries t' ("data:".toList ++ t') ∧
      decodeLine t = some ['é'] ∧ decodeLine t = decodeLine ("data:".toList ++ t') := by
  intro delta note other fields fields' t t'
  have hvaried : Varied (.object fields) (.object fields') := by
    have hother : Varies (.object [delta]) (.object ([delta] ++ [other])) := .more (by decide)
    have hnote : Varies (.object [("event".toList, .object [delta, other])])
        (.object ([("event".toList, .object [delta, other])] ++ [note])) := .more (by decide)
    exact .trans _ _ _ (.rel _ _ (.field [] [] "event".toList hother))
      (.trans _ _ _ (.rel _ _ hnote) (.rel _ _ (.order (.swap ..))))
  have hevent : Json.SpellsToken (.text "event".toList) "\"event\"".toList :=
    .text (.plain (by decide))
  have hdelta : Json.SpellsToken (.text "delta".toList) "\"delta\"".toList :=
    .text (.plain (by decide))
  have ht : Json.Spells (.object fields) t := by
    have h := Json.SpellsTokens.tight .openObject (.tight hevent (.tight .colon (.tight .openObject
      (.tight hdelta (.tight .colon (.tight (.text (.plain (t := ['é']) (by decide)))
        (.tight .closeObject (.last .closeObject))))))))
    exact h
  have ht' : Json.Spells (.object fields') t' := by
    have hnumber : Json.NumberText "-1.5e3".toList := by
      refine ⟨['1'], ".5".toList, "e3".toList, by decide, .inr ⟨['5'], rfl, by decide⟩,
        .inr ⟨'e', [], ['3'], rfl, .inl rfl, .inl rfl, by decide⟩, .inr rfl⟩
    have hescaped : Json.SpellsToken (.text "event".toList) "\"\\u0065vent\"".toList :=
      .text (.cons (.code (by decide)) (.plain (t := "vent".toList) (by decide)))
    have hcoded : Json.SpellsToken (.text ['é']) "\"\\u00E9\"".toList :=
      .text (.cons (.code (by decide)) .nil)
    have hx : Json.SpellsToken (.text ['x']) "\"x\"".toList := .text (.plain (by decide))
    have hend := Json.SpellsTokens.tight (.text (.plain (t := ['x']) (by decide)))
      (.tight .colon (.tight .null (.tight .closeObject (.last .closeObject))))
    have hmiddle := Json.SpellsTokens.tight hescaped (.tight .colon (.tight .openObject
      (.tight hdelta (.tight .colon (.tight hcoded (.tight .comma hend))))))
    have h := Json.SpellsTokens.cons .openObject (show Json.Layout [' '] by decide)
      (.tight (.text (.plain (t := "note".toList) (by decide))) (.tight .colon
        (.cons .openList (show Json.Layout ['\t'] by decide)
          (.cons (.number hnumber) (show Json.Layout ['\n'] by decide)
            (.tight .closeList (.tight .comma hmiddle))))))
    exact h
  have hnil : Blank [] := List.forall_mem_nil _
  have hl : Carries t t := .bare hnil hnil
  have hl' : Carries t' ("data:".toList ++ t') := .labelled hnil hnil hnil
  have hlimits : (Json.object fields).withinLimits = true := by decide +kernel
  have hlimits' : (Json.object fields').withinLimits = true := by decide +kernel
  refine ⟨hvaried, hlimits, hlimits', ht, ht', hl, hl', by decide +kernel, ?_⟩
  exact decodeLine_varied hvaried hlimits hlimits' ht ht' hl hl'

end ClipLedger.Chunk
