import ClipLedger.Proofs.Settings.Decoding
import ClipLedger.Proofs.Text.Utf8
import ClipLedger.Proofs.Toml.Document

/-
  Settings from documents. However a document is written, and in whatever order its keys and tables
  come, the settings are the defaults with the values that the document sets in their places
  (`ofText?_document`, `load_document`); keys and tables that are not known change nothing. There is
  one exception: a known table that is both set by keys from outside and opened by a header is
  refused (`ofText?_mixed`), also where TOML allows it.
-/
namespace ClipLedger.Settings

open Toml

variable {g : Given} {out : List (Text × Toml)}

/-! ## Documents -/

/-- A value for a key is neither a table nor a list. -/
theorem Kind.isPlain (kind : Kind) (v : kind.Value) : IsPlain (kind.toToml v) := by
  cases kind <;> trivial

/-- What `Serves` the tables of a document `Finds` the values of their keys. -/
theorem finds_of_serves {content : List (Text × Toml)} (hset : g.SetBy content) {t : Table}
    {mixed : List Text → Prop}
    (h : Serves out (t.path.foldl (fun inner k => tableAt k inner) content) mixed) :
    Finds g t out := by
  rintro k rfl
  have hkey := hset.keys k
  rw [Key.path, valueAt_concat] at hkey
  rw [← hkey]
  refine h.unique?_plain fun v hv => ?_
  rw [hkey] at hv
  obtain ⟨value, -, rfl⟩ := Option.map_eq_some_iff.1 hv
  exact k.kind.isPlain value

/-- **A document without mixed tables sets the values of `g` over those of `s`, and no
others.** -/
theorem ofText?_document (d : Document) (hset : g.SetBy d.content)
    (hunmixed : ∀ t : Table, ¬ d.outline.Mixed t.path) (s : Settings) :
    s.ofText? d.text = some (g.override s) := by
  obtain ⟨out, hread, hout⟩ := d.read?
  obtain ⟨performance, pOut, _, hp, hpFound, hpServes, -⟩ :=
    hout.unique?_tableAt (hset.tables .performance) (hunmixed .performance)
  obtain ⟨inference, iOut, iMixed, hi, hiFound, hiServes, hiMixed⟩ :=
    hout.unique?_tableAt (hset.tables .inference) (hunmixed .inference)
  obtain ⟨paths, qOut, _, hq, hqFound, hqServes, -⟩ :=
    hout.unique?_tableAt (hset.tables .paths) (hunmixed .paths)
  obtain ⟨sampling, sOut, _, hs, hsFound, hsServes, -⟩ :=
    hiServes.unique?_tableAt (hset.tables .sampling)
      fun hmixed => hunmixed .sampling ((hiMixed _ (by simp)).2 hmixed)
  have hsampling : orDefault? (Sampling.ofToml? s.model.sampling) s.model.sampling sampling =
      some (g.override s).model.sampling :=
    orDefault?_table hsFound rfl (sampling_ofToml? (finds_of_serves hset hsServes))
  have hperformance : orDefault? (Performance.ofToml? s.performance) s.performance performance =
      some (g.override s).performance :=
    orDefault?_table hpFound rfl (performance_ofToml? (finds_of_serves hset hpServes))
  have hmodel : orDefault? (ModelSettings.ofToml? s.model) s.model inference =
      some (g.override s).model :=
    orDefault?_table hiFound rfl (model_ofToml? (finds_of_serves hset hiServes) hs hsampling)
  have hpaths : orDefault? (Paths.ofToml? s.paths) s.paths paths = some (g.override s).paths :=
    orDefault?_table hqFound rfl (paths_ofToml? (finds_of_serves hset hqServes))
  rw [ofText?, hread, Option.bind_some, ofPairs?, fields?]
  simp only [List.map_cons, List.map_nil, Fields.uniqueAll?, hp, hi, hq]
  simp only [Option.bind_eq_bind, Option.bind_some, hperformance, hmodel, hpaths]
  rfl

/-- **A document with a mixed table gives no settings.** -/
theorem ofText?_mixed (d : Document) (hset : g.SetBy d.content) {t : Table}
    (hmixed : d.outline.Mixed t.path) (s : Settings) : s.ofText? d.text = none := by
  obtain ⟨out, hread, hout⟩ := d.read?
  have hnone {k : Text} (hk : k ∈ ["performance".toList, "inference".toList, "paths".toList])
      (hmixed : d.outline.Mixed [k]) : s.ofText? d.text = none := by
    have hall := Fields.uniqueAll?_eq_none hk (hout.unique?_mixed hmixed)
    rw [ofText?, hread, Option.bind_some, ofPairs?, fields?]
    simp only [List.map_cons, List.map_nil, hall]
    rfl
  cases t with
  | performance | inference | paths => exact hnone (by decide) hmixed
  | sampling =>
    by_cases hinference : d.outline.Mixed ["inference".toList]
    · exact hnone (by decide) hinference
    · obtain ⟨inference, iOut, iMixed, hi, hiFound, hiServes, hiMixed⟩ :=
        hout.unique?_tableAt (hset.tables .inference) hinference
      have htwice := hiServes.unique?_mixed ((hiMixed _ (by simp)).1 hmixed)
      rcases hiFound with rfl | ⟨-, rfl⟩
      · rw [ofText?, hread, Option.bind_some]
        exact ofPairs?_eq_none hi (model_ofToml?_eq_none htwice)
      · cases htwice

/-- **The settings of a file.** If the document at `p` sets the values of `g`, and none of the known
tables is mixed, `load` gives the defaults with these values, and with nothing else changed. -/
theorem load_document (home : Option Path) (tree : FileTree) (p : Path) (d : Document)
    (hfile : tree.readText p = .ok d.text) (hset : g.SetBy d.content)
    (hunmixed : ∀ t : Table, ¬ d.outline.Mixed t.path) :
    load (.default home) tree p = .ok (g.override (.default home)) := by
  rw [load, hfile]
  dsimp only
  rw [ofText?_document d hset hunmixed]

/-! ## Two documents -/

theorem blank_nil : Blank [] := List.forall_mem_nil _

theorem blank_space : Blank [' '] := List.forall_mem_singleton.2 (by decide)

theorem gap_nil : Gap [] := .blank blank_nil

theorem spellsKey_bare (k : String) (h : k.toList ≠ [] ∧ ∀ c ∈ k.toList, isWordChar c = true) :
    SpellsKey k.toList k.toList := .bare h.1 h.2

/-- A text without anything to escape. -/
theorem spellsLineText_plain (t : String) {quote : Char} (hquote : quote ∈ quotes)
    (h : ∀ c ∈ t.toList, isTextChar c = true ∧ c ≠ quote ∧ (c = '\\' → quote = '\'')) :
    SpellsLineText t.toList (quote :: (t.toList ++ [quote])) := by
  refine .mk hquote ?_
  generalize t.toList = t at h
  induction t with
  | nil => exact .nil
  | cons c t ih =>
    obtain ⟨⟨hallowed, hother, hliteral⟩, ht⟩ := List.forall_mem_cons.1 h
    exact .plain hallowed hother hliteral (ih ht)

theorem spellsLines_nil : SpellsLines [] [] := .none gap_nil (.inl rfl)

/-- A line without anything around it. -/
theorem spellsLines_cons {l : Line} {ls : List Line} {w ws : Text} (h : SpellsLine l w)
    (hs : SpellsLines ls ws) : SpellsLines (l :: ls) (w ++ '\n' :: ws) :=
  .cons gap_nil h blank_nil (.inl rfl) hs

/-- Lines without carriage returns are a document as they are. -/
theorem spellsDocument_plain {ls : List Line} {t : Text} (h : SpellsLines ls t)
    (hplain : ∀ c ∈ t, c ≠ '\r') : SpellsDocument ls t := by
  have hends : LineEnds t t := by
    clear h
    induction t with
    | nil => exact .nil
    | cons c t ih =>
      obtain ⟨hc, ht⟩ := List.forall_mem_cons.1 hplain
      exact .keep hc (ih ht)
  exact .mk h hends (.inl rfl)

theorem spellsLine_table (k : String)
    (h : k.toList ≠ [] ∧ ∀ c ∈ k.toList, isWordChar c = true) :
    SpellsLine (.header [k.toList] false) ('[' :: (k.toList ++ [']'])) :=
  .table blank_nil (.last (spellsKey_bare k h)) blank_nil

theorem spellsLine_sampling :
    SpellsLine (.header ["inference".toList, "sampling".toList] false)
      "[inference.sampling]".toList :=
  .table blank_nil (.cons (spellsKey_bare "inference" (by decide)) blank_nil blank_nil
    (.last (spellsKey_bare "sampling" (by decide)))) blank_nil

/-- A temperature. -/
def warm : Kind.number.Value := ⟨Decimal.toFloat ⟨false, 7, -1⟩, by decide +kernel⟩

example : warm.val = 0.7 := rfl

theorem spellsLine_temperature :
    SpellsLine (.set ["temperature".toList] (.float warm.val)) "temperature = 0.7".toList :=
  .set (.last (spellsKey_bare "temperature" (by decide))) blank_space blank_space
    (.float (.digits (by decide : [] ∈ signs)
      ⟨.last (by decide : isDigitOf 10 '0' = true), .inl rfl⟩
      (.digits (.last (by decide : isDigitOf 10 '7' = true))) .none (by decide) warm.2))

/-- The table for sampling with a temperature, behind its header. -/
def warmSampling : Outline :=
  ⟨[(["temperature".toList], .float warm.val)], [], [("temperature".toList, .float warm.val)]⟩

theorem valueOf_warmSampling :
    ValueOf [] [⟨[], false, warmSampling.own⟩] (.table warmSampling.pairs) :=
  .opened warmSampling ⟨by decide, by decide, rfl⟩ [] [] rfl
    (List.forall_mem_singleton.2 (.whole _))

/-- The table for the model with a name and a table for sampling. -/
def warmModel (name : Text) : Outline :=
  ⟨[(["model_id".toList], .text name)], [⟨["sampling".toList], false, warmSampling.own⟩],
    [("model_id".toList, .text name), ("sampling".toList, .table warmSampling.pairs)]⟩

theorem warmModel_keyed (name : Text) : (warmModel name).Keyed := by
  refine ⟨?_, ?_, rfl⟩ <;> exact List.forall_mem_singleton.2 (List.cons_ne_nil _ _)

theorem warmModel_each (name : Text) : ∀ p ∈ (warmModel name).pairs,
    ValueOf (setsUnder p.1 (warmModel name).own) (blocksUnder p.1 (warmModel name).inner) p.2 :=
  List.forall_mem_cons.2 ⟨.whole _, List.forall_mem_singleton.2 valueOf_warmSampling⟩

/-- Lines with a line feed behind each. -/
def unlines (lines : List String) : Text := lines.flatMap fun l => l.toList ++ ['\n']

/-- A folder that holds one file. -/
def holding (text : Text) : FileTree :=
  ⟨[([Utf8.encode "settings.toml".toList], .file (Utf8.encode text) 0)], [], 0⟩

theorem readText_holding (text : Text) :
    (holding text).readText (.ofString "settings.toml") = .ok text := by
  have hread : (holding text).read (.ofString "settings.toml") = .ok (Utf8.encode text) := rfl
  rw [FileTree.readText, hread]
  dsimp only
  rw [Utf8.decode?_encode]

/-- A document with tables in no order, one of them between braces, with quoted and dotted keys, an
escape, a comment, and a table that is not known. -/
def scattered : Document where
  text := unlines ["paths = \x7b\"log_file\" = \"a\\\\b\"\x7d # a comment",
    "performance.batch_size = 2_0", "[inference.sampling]", "temperature = 0.7", "", "[unknown]",
    "list = [1, true]", "[inference]", "model_id = 'ti\\ny'"]
  lines := [
    .set ["paths".toList] (.table [("log_file".toList, .text "a\\b".toList)]),
    .set ["performance".toList, "batch_size".toList] (.integer 20),
    .header ["inference".toList, "sampling".toList] false,
    .set ["temperature".toList] (.float warm.val),
    .header ["unknown".toList] false,
    .set ["list".toList] (.list [.integer 1, .bool true]),
    .header ["inference".toList] false,
    .set ["model_id".toList] (.text "ti\\ny".toList)]
  content := [
    ("paths".toList, .table [("log_file".toList, .text "a\\b".toList)]),
    ("performance".toList, .table [("batch_size".toList, .integer 20)]),
    ("inference".toList, .table (warmModel "ti\\ny".toList).pairs),
    ("unknown".toList, .table [("list".toList, .list [.integer 1, .bool true])])]
  spelled := by
    have hescape : SpellsLineText "a\\b".toList "\"a\\\\b\"".toList :=
      .mk (by decide : '"' ∈ quotes) (.plain (by decide) (by decide) (by decide)
        (.escape rfl (.short (by decide : ('\\', '\\') ∈ shortEscapes))
          (.plain (by decide) (by decide) (by decide) .nil)))
    have hpaths : SpellsLine (.set ["paths".toList]
        (.table [("log_file".toList, .text "a\\b".toList)])) _ :=
      .set (.last (spellsKey_bare "paths" (by decide))) blank_space blank_space
        (.table (.lastEntry blank_nil
          (.last (.quoted (spellsLineText_plain "log_file" (by decide : '"' ∈ quotes) (by decide))))
          blank_space blank_space (.lineText hescape) blank_nil)
          ⟨⟨by decide, by decide, by decide⟩, List.forall_mem_singleton.2 (.whole _)⟩)
    have hperformance : SpellsLine
        (.set ["performance".toList, "batch_size".toList] (.integer 20)) _ :=
      .set (.cons (spellsKey_bare "performance" (by decide)) blank_nil blank_nil
          (.last (spellsKey_bare "batch_size" (by decide)))) blank_space blank_space
        (.integer (.decimal (by decide : [] ∈ signs)
          ⟨.spaced (by decide : isDigitOf 10 '2' = true)
            (.last (by decide : isDigitOf 10 '0' = true)), .inr (by decide)⟩)
          ⟨by decide, by decide⟩)
    have hunknown : SpellsLine (.set ["list".toList] (.list [.integer 1, .bool true])) _ :=
      .set (.last (spellsKey_bare "list" (by decide))) blank_space blank_space
        (.list (.item gap_nil (.integer (.decimal (by decide : [] ∈ signs)
          ⟨.last (by decide : isDigitOf 10 '1' = true), .inr (by decide)⟩)
            ⟨by decide, by decide⟩) gap_nil (.lastItem (.blank blank_space) .true gap_nil)))
    have hmodel : SpellsLine (.set ["model_id".toList] (.text "ti\\ny".toList)) _ :=
      .set (.last (spellsKey_bare "model_id" (by decide))) blank_space blank_space
        (.lineText (spellsLineText_plain "ti\\ny" (by decide : '\'' ∈ quotes) (by decide)))
    have hcomment : Comment "# a comment".toList := .inr ⟨_, rfl, by decide⟩
    have hlines := SpellsLines.cons gap_nil hpaths blank_space hcomment
      (spellsLines_cons hperformance
        (spellsLines_cons spellsLine_sampling (spellsLines_cons spellsLine_temperature
          (.cons (.line blank_nil (.inl rfl) gap_nil) (spellsLine_table "unknown" (by decide))
            blank_nil (.inl rfl)
            (spellsLines_cons hunknown (spellsLines_cons (spellsLine_table "inference" (by decide))
              (spellsLines_cons hmodel spellsLines_nil)))))))
    exact spellsDocument_plain hlines (by decide +kernel)
  sound := by
    let performance : Outline :=
      ⟨[(["batch_size".toList], .integer 20)], [], [("batch_size".toList, .integer 20)]⟩
    have hperformance : ValueOf performance.own [] (.table performance.pairs) :=
      .implied performance ⟨by decide, by decide, by decide⟩ (.inl (List.cons_ne_nil _ _))
        (List.forall_mem_singleton.2 (.whole _))
    -- The table for sampling is opened before the one around it.
    let model := warmModel "ti\\ny".toList
    have hmodel : ValueOf [] (model.inner ++ [⟨[], false, model.own⟩]) (.table model.pairs) :=
      .opened model (warmModel_keyed _) model.inner [] rfl (warmModel_each _)
    let list : Toml := .list [.integer 1, .bool true]
    let unknown : Outline := ⟨[(["list".toList], list)], [], [("list".toList, list)]⟩
    have hunknown : ValueOf [] [⟨[], false, unknown.own⟩] (.table unknown.pairs) :=
      .opened unknown ⟨by decide, by decide, by decide⟩ [] [] rfl
        (List.forall_mem_singleton.2 (.whole _))
    exact ⟨⟨by decide, by decide, by decide⟩, List.forall_mem_cons.2 ⟨.whole _,
      List.forall_mem_cons.2 ⟨hperformance, List.forall_mem_cons.2 ⟨hmodel,
        List.forall_mem_singleton.2 hunknown⟩⟩⟩⟩

/-- What this document sets. -/
def scatteredGiven : Given
  | .log => some "a\\b".toList
  | .batchSize => some 20
  | .model => some "ti\\ny".toList
  | .temperature => some warm
  | _ => none

example : (scatteredGiven.override (.default none)).performance =
    { Performance.default with batchSize := 20 } := rfl

theorem scattered_setBy : scatteredGiven.SetBy scattered.content := by
  refine ⟨fun k => ?_, fun t v hv => ?_⟩
  · cases k <;> rfl
  · cases t <;> cases hv <;> exact ⟨_, rfl⟩

theorem scattered_unmixed (t : Table) : ¬ scattered.outline.Mixed t.path := by
  cases t <;> decide

theorem load_scattered :
    let tree := holding scattered.text
    let p := Path.ofString "settings.toml"
    tree.readText p = .ok scattered.text ∧ scatteredGiven.SetBy scattered.content ∧
      (∀ t : Table, ¬ scattered.outline.Mixed t.path) ∧
      load (.default none) tree p = .ok (scatteredGiven.override (.default none)) :=
  ⟨readText_holding _, scattered_setBy, scattered_unmixed,
    load_document none _ _ scattered (readText_holding _) scattered_setBy scattered_unmixed⟩

/-- A document with a dotted key, and below it a header that begins with the same key. -/
def mixed : Document where
  text := unlines ["inference.model_id = \"tiny\"", "[inference.sampling]", "temperature = 0.7"]
  lines := [
    .set ["inference".toList, "model_id".toList] (.text "tiny".toList),
    .header ["inference".toList, "sampling".toList] false,
    .set ["temperature".toList] (.float warm.val)]
  content := [("inference".toList, .table (warmModel "tiny".toList).pairs)]
  spelled := by
    have hmodel : SpellsLine
        (.set ["inference".toList, "model_id".toList] (.text "tiny".toList)) _ :=
      .set (.cons (spellsKey_bare "inference" (by decide)) blank_nil blank_nil
          (.last (spellsKey_bare "model_id" (by decide)))) blank_space blank_space
        (.lineText (spellsLineText_plain "tiny" (by decide : '"' ∈ quotes) (by decide)))
    exact spellsDocument_plain (spellsLines_cons hmodel (spellsLines_cons spellsLine_sampling
      (spellsLines_cons spellsLine_temperature spellsLines_nil))) (by decide +kernel)
  sound := ⟨⟨by decide, by decide, by decide⟩, List.forall_mem_singleton.2
    (.implied (warmModel "tiny".toList) (warmModel_keyed _) (.inl (List.cons_ne_nil _ _))
      (warmModel_each _))⟩

/-- What this document sets. -/
def mixedGiven : Given
  | .model => some "tiny".toList
  | .temperature => some warm
  | _ => none

theorem mixed_setBy : mixedGiven.SetBy mixed.content := by
  refine ⟨fun k => ?_, fun t v hv => ?_⟩
  · cases k <;> rfl
  · cases t <;> cases hv <;> exact ⟨_, rfl⟩

/-- Mixed tables are refused, though the document says what it sets. -/
theorem load_mixed :
    let tree := holding mixed.text
    let p := Path.ofString "settings.toml"
    tree.readText p = .ok mixed.text ∧ mixedGiven.SetBy mixed.content ∧
      load (.default none) tree p = .error .settings ∧
      load (.default none) tree p ≠ .ok (mixedGiven.override (.default none)) := by
  intro tree p
  have hfile : tree.readText p = .ok mixed.text := readText_holding _
  have hload : load (.default none) tree p = .error .settings := by
    rw [load, hfile]
    dsimp only
    rw [ofText?_mixed mixed mixed_setBy (by decide : mixed.outline.Mixed Table.inference.path)]
  refine ⟨hfile, mixed_setBy, hload, ?_⟩
  rw [hload]
  simp

end ClipLedger.Settings
