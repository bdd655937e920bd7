import ClipLedger.Proofs.Toml.Access
import ClipLedger.Proofs.Toml.Lines

/-
  Documents. However a document is written, it is read (`Document.read?`): the line ends are made
  equal, the lines are read one after the other, and the tables that they open are put together.
-/
namespace ClipLedger.Toml

/-! ## Line ends -/

theorem LineEnds.foldLineEnds {t w : Text} (h : LineEnds t w) : foldLineEnds w = t := by
  induction h with
  | nil => rfl
  | keep other rest ih =>
    rw [Toml.foldLineEnds, ih]
    intro rest heq
    cases heq
    exact absurd rfl other
  | carriage rest ih => rw [Toml.foldLineEnds, ih]

/-- A byte order mark is no token. -/
theorem lex_mark (t : Text) : lex ('\uFEFF' :: t) = none := by
  have hmark : sign? '\uFEFF' = none ∧ isBlankChar '\uFEFF' = false ∧ '\uFEFF' ≠ '#' ∧
      isWordChar '\uFEFF' = false ∧ ¬('\uFEFF' = '"' ∨ '\uFEFF' = '\'') := by decide
  obtain ⟨hsign, hblank, hcomment, hword, hquote⟩ := hmark
  rw [lex, hsign]
  simp only [hblank, hcomment, hword, hquote, if_false, Bool.false_eq_true]

/-- `tokens` of a document are what `lex` makes of its lines. -/
theorem tokens_of_lineEnds {t w mark : Text} {ts : List Token} (h : LineEnds t w)
    (hmark : mark = [] ∨ mark = ['\uFEFF']) (hlex : lex t = some ts) :
    tokens (mark ++ w) = some ts := by
  rcases hmark with rfl | rfl
  · rw [List.nil_append, tokens]
    · rw [h.foldLineEnds, hlex]
    · rintro rest rfl
      cases h with
      | keep other rest =>
        rw [lex_mark] at hlex
        cases hlex
  · rw [List.singleton_append, tokens, h.foldLineEnds, hlex]

/-! ## Tables of lines -/

/-- What the lines `ls` set and open, with the pairs `content` that this is said to make. -/
def outlineOf (ls : List Line) (content : List (Text × Toml)) : Outline :=
  ⟨(blocks ls).1, (blocks ls).2, content⟩

/-- Every block has its header among the lines. -/
theorem exists_header {ls : List Line} {b : Block} (h : b ∈ (blocks ls).2) :
    .header b.path b.many ∈ ls := by
  induction ls with
  | nil => cases h
  | cons l ls ih =>
    cases l with
    | set path v => exact List.mem_cons_of_mem _ (ih h)
    | header path many =>
      rcases List.mem_cons.1 h with rfl | h
      · exact List.mem_cons_self
      · exact List.mem_cons_of_mem _ (ih h)

/-- Everything that is set has its line. -/
theorem exists_set {ls : List Line} {s : List Text × Toml}
    (h : s ∈ (blocks ls).1 ∨ ∃ b ∈ (blocks ls).2, s ∈ b.sets) : .set s.1 s.2 ∈ ls := by
  induction ls with
  | nil => simp [blocks] at h
  | cons l ls ih =>
    cases l with
    | set path v =>
      rcases h with h | h
      · rcases List.mem_cons.1 h with rfl | h
        · exact List.mem_cons_self
        · exact List.mem_cons_of_mem _ (ih (.inl h))
      · exact List.mem_cons_of_mem _ (ih (.inr h))
    | header path many =>
      obtain h | ⟨b, hb, hs⟩ := h
      · cases h
      · rcases List.mem_cons.1 hb with rfl | hb
        · exact List.mem_cons_of_mem _ (ih (.inl hs))
        · exact List.mem_cons_of_mem _ (ih (.inr ⟨b, hb, hs⟩))

/-- What stands in front of the first header is the block of the outermost table. -/
theorem frames_first (own : Sets) (inner : List Block) :
    Frames inner own ((if own = [] then [] else [⟨[], false, own⟩]) ++ inner) := by
  split
  · next hnil =>
    subst hnil
    exact .bare
  · exact .headed own [] inner rfl

/-! ## Tidy values -/

/-- The tables in a part of a document are tidy. -/
def Part.Tidy : Part → Prop
  | .value v => Toml.Tidy v
  | .items _ => True
  | .entries sets => ∀ s ∈ sets, Toml.Tidy s.2

/-- However a value is written, it is tidy. -/
theorem Spells.tidy {part : Part} {w : Text} (h : Spells part w) : part.Tidy := by
  induction h with
  | lineText | linesText | integer | float | true | false | datetime | list =>
    exact .other fun pairs heq => by cases heq
  | table entries sound ih => exact sound.tidy ih (List.forall_mem_nil _)
  | noItem | lastItem | item => trivial
  | noEntry => exact List.forall_mem_nil _
  | lastEntry blank key before after value ends ih => exact List.forall_mem_singleton.2 ih
  | entry blank key before after value ends nonempty rest ih ihs =>
    exact List.forall_mem_cons.2 ⟨ih, ihs⟩

theorem SpellsLines.tidy {ls : List Line} {w : Text} (h : SpellsLines ls w) {path : List Text}
    {v : Toml} (hmem : .set path v ∈ ls) : Tidy v := by
  have hline {l : Line} {w : Text} (hl : SpellsLine l w) (heq : .set path v = l) : Tidy v := by
    cases hl with
    | set key before after value =>
      cases heq
      exact value.tidy
    | table | element => cases heq
  induction h with
  | none => cases hmem
  | last gap line => exact hline line (List.mem_singleton.1 hmem)
  | cons gap line blank comment rest ih =>
    rcases List.mem_cons.1 hmem with heq | hmem
    · exact hline line heq
    · exact ih hmem

/-! ## Documents -/

/-- A document: how it is written, the lines that this spells, and the tables that they make. -/
structure Document where
  text : Text
  lines : List Line
  content : List (Text × Toml)
  spelled : SpellsDocument lines text
  sound : (outlineOf lines content).Sound

/-- The outermost table of `d`. -/
def Document.outline (d : Document) : Outline := outlineOf d.lines d.content

/-- **However a document is written, `read?` makes something of it that `Serves` its content.** -/
theorem Document.read? (d : Document) :
    ∃ out, Toml.read? d.text = some out ∧ Serves out d.content d.outline.Mixed := by
  obtain ⟨text, lines, content, spelled, sound⟩ := d
  cases spelled with
  | mk hlines ends marked =>
    have htidy : Tidy (.table content) := sound.tidy
      (fun s hs => hlines.tidy (exists_set (.inl hs)))
      fun b hb s hs => hlines.tidy (exists_set (.inr ⟨b, hb, hs⟩))
    obtain ⟨ts, hlex, hpaths, hread⟩ := hlines.tokens
    have hframes := frames_first (blocks lines).1 (blocks lines).2
    have hshort : Shorter (ts.length + 2)
        ((if (blocks lines).1 = [] then [] else [⟨[], false, (blocks lines).1⟩]) ++
          (blocks lines).2) := by
      intro b hb
      rcases List.mem_append.1 hb with hb | hb
      · split at hb
        · cases hb
        · cases List.mem_singleton.1 hb
          exact Nat.succ_pos _
      · exact Nat.lt_of_le_of_lt (hpaths _ (exists_header hb)) (by omega)
    obtain ⟨out, hassemble, hmade⟩ := hframes.made (e := outlineOf lines content) sound hshort
    refine ⟨out, ?_, .made hmade htidy⟩
    have hsections := mapM_section? (hframes.buildable sound.exists_build? sound.buildable)
    rw [Toml.read?, tokens_of_lineEnds ends marked hlex]
    dsimp only [bind, Option.bind]
    rw [hread _ (by omega)]
    dsimp only
    rw [sections?]
    dsimp only
    rw [hsections]
    exact hassemble

end ClipLedger.Toml
