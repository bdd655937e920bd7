import ClipLedger.Proofs.Novelty.Tracker
import ClipLedger.Proofs.Pipeline.Effects

/-
  The dataset is append-only. Four steps write files: storing and reporting append, an image is
  written only where its path leads to nothing, and the snapshot of the baseline replaces what is
  there. So the dataset loses no byte in any run of operations, whatever fails and whichever paths
  coincide, except in two ways (`Guarded`): the snapshot replaces it if its path leads there
  (`observe_overwrites`), and an image replaces it if the image folder is not there yet and its
  path leads there by a detour over double dots (`operateAll_image_overwrites`).
-/
namespace ClipLedger

open FileTree (Apart Extends Grows SameLinks)

namespace Dataset

theorem append_extends (t : FileTree) (q : Path) (m : ModelInfo) (stamp : Stamp) (item : Item)
    (r : Record Float) (w : Writing) (p : Path) :
    Extends t (Dataset.append t q m stamp item r w).2 p := by
  unfold append
  split
  · exact .refl t p
  · next line _ =>
    have happend := FileTree.append_extends t q (Utf8.encode (line ++ ['\n'])) w p
    unfold appendLine
    split
    · next h => exact snd_of_eq h happend
    · next h => exact snd_of_eq h happend

end Dataset

theorem EventLog.append_extends (t : FileTree) (q : Path) (timestamp kind content : Text)
    (w : Writing) (p : Path) : Extends t (EventLog.append t q timestamp kind content w).2 p := by
  rw [EventLog.append_files]
  exact FileTree.append_extends t q _ w p

namespace Pipeline

/-! ## Operations -/

/-- What may be done with a pipeline. -/
inductive Operation where
  | collect (reading : Reading)
  | nextBatch
  | process (item : Item)
  | report (item : Item)

/-- The state after `o`, whether it succeeds or fails. -/
def operate (p : Pipeline) (s : PipelineState) : Operation → PipelineState
  | .collect reading => (p.collect reading s).2
  | .nextBatch => (p.nextBatch s).2
  | .process item => (p.process item s).2
  | .report item => (p.report item s).2

/-- The state after operations one after the other. -/
def operateAll (p : Pipeline) (s : PipelineState) (os : List Operation) : PipelineState :=
  os.foldl p.operate s

/-! ## What an operation preserves -/

/-- Nothing is written over the dataset: no snapshot is to come or it goes elsewhere, and storing an
image is `Harmless` to it. -/
structure Guarded (p : Pipeline) (s : PipelineState) : Prop where
  snapshot : s.tracker.collected = none ∨ Apart s.files p.baseline p.dataset
  images : Assets.Harmless s.files p.source.assets p.dataset

/-- The content of the dataset is continued from `s` to `s'`, and stays `Guarded`. -/
structure Appends (p : Pipeline) (s s' : PipelineState) : Prop where
  files : Extends s.files s'.files p.dataset
  snapshot : s.tracker.collected = none → s'.tracker.collected = none

theorem Appends.refl (p : Pipeline) (s : PipelineState) : Appends p s s := ⟨.refl _ _, id⟩

theorem Appends.trans {p : Pipeline} {s s' s'' : PipelineState} (h : Appends p s s')
    (h' : Appends p s' s'') : Appends p s s'' :=
  ⟨h.files.trans h'.files, h'.snapshot ∘ h.snapshot⟩

theorem Appends.guarded {p : Pipeline} {s s' : PipelineState} (h : Appends p s s')
    (hs : Guarded p s) : Guarded p s' := by
  refine ⟨?_, hs.images.of_grows h.files.grows⟩
  rcases hs.snapshot with hnone | hapart
  · exact .inl (h.snapshot hnone)
  · exact .inr (h.files.grows.links.apart hapart)

theorem enqueue_appends (p : Pipeline) (item : Item) (s : PipelineState) :
    Appends p s (enqueue item s).2 := by
  unfold enqueue
  split
  · exact .refl p s
  · split
    · exact ⟨.refl _ _, id⟩
    · exact ⟨.refl _ _, id⟩

theorem collect_appends {p : Pipeline} {s : PipelineState} (h : Guarded p s) (reading : Reading) :
    Appends p s (p.collect reading s).2 := by
  have hcapture := Source.capture_extends h.images reading
  unfold collect
  split
  · next hc => exact ⟨snd_of_eq hc hcapture, id⟩
  · next hc => exact ⟨snd_of_eq hc hcapture, id⟩
  · next item files hc =>
    have hfiles : Appends p s { s with files := files } := ⟨snd_of_eq hc hcapture, id⟩
    exact hfiles.trans (enqueue_appends p item _)

theorem observe_appends {p : Pipeline} {s : PipelineState} (h : Guarded p s)
    {a : Analysis Float} (ha : s.tracker.observe a.record = (a.tracker, a.baseline)) :
    Appends p s (p.observe a s) := by
  have hdone : s.tracker.collected = none → a.tracker.collected = none ∧ a.baseline = none := by
    intro hnone
    have := Tracker.observe_of_complete hnone a.record
    rwa [ha] at this
  have htracker : Appends p s { s with tracker := a.tracker } :=
    ⟨.refl _ _, fun hnone => (hdone hnone).1⟩
  unfold observe
  dsimp only
  split
  · exact htracker
  · next m hm =>
    refine ⟨?_, htracker.snapshot⟩
    rcases h.snapshot with hnone | hapart
    · rw [(hdone hnone).2] at hm
      cases hm
    · have hwrite := FileTree.write_puts s.files p.baseline
        (Utf8.encode (m.toJson (p.stamp s.stamped).timestamp).pretty)
      exact hwrite.grows.extends_of_keeps (hwrite.keeps hapart)

theorem finish_appends {p : Pipeline} {s : PipelineState} (h : Guarded p s) (item : Item)
    {a : Analysis Float} (ha : s.tracker.observe a.record = (a.tracker, a.baseline)) :
    Appends p s (p.finish item a s).2 := by
  have hobserve := observe_appends h ha
  unfold finish
  dsimp only
  split
  · exact hobserve
  have hstore : Appends p (p.observe a s) (p.store item a.record (p.observe a s)).2 :=
    ⟨Dataset.append_extends _ _ _ _ _ _ _ _, id⟩
  split
  · next hs => exact hobserve.trans (snd_of_eq hs hstore)
  · next hs => exact hobserve.trans (snd_of_eq hs hstore)

/-- `analyse` changes nothing but the conversation, and answers what its record was observed
as. -/
theorem analyse_cases (p : Pipeline) (item : Item) (s : PipelineState) :
    ∃ result session, p.analyse item s = (result, { s with session := session }) ∧
      ∀ a, result = .ok a → s.tracker.observe a.record = (a.tracker, a.baseline) := by
  unfold analyse Analyzer.analyze
  dsimp only
  cases p.analyzer.askAll p.client s.tracker item Persona.roster [] s.session with
  | mk result session =>
    cases result with
    | error e =>
      cases e with
      | template e => exact ⟨_, _, rfl, fun a ha => by cases ha⟩
      | halt h => exact ⟨_, _, rfl, fun a ha => by cases ha⟩
    | ok r =>
      refine ⟨_, _, rfl, fun a ha => ?_⟩
      cases ha
      rfl

theorem process_appends {p : Pipeline} {s : PipelineState} (h : Guarded p s) (item : Item) :
    Appends p s (p.process item s).2 := by
  obtain ⟨result, session, hanalyse, hresult⟩ := analyse_cases p item s
  have hsession : Appends p s { s with session := session } := ⟨.refl _ _, id⟩
  unfold process
  rw [hanalyse]
  cases result with
  | error e => exact hsession
  | ok a =>
    dsimp only
    have hfinish := finish_appends (hsession.guarded h) item (hresult a rfl)
    split
    · next hf => exact hsession.trans (snd_of_eq hf hfinish)
    · next hf => exact hsession.trans (snd_of_eq hf hfinish)

/-- Each operation `Appends`, whatever comes of it. -/
theorem operate_appends {p : Pipeline} {s : PipelineState} (h : Guarded p s) (o : Operation) :
    Appends p s (p.operate s o) := by
  cases o with
  | collect reading => exact collect_appends h reading
  | nextBatch => exact ⟨.refl _ _, id⟩
  | process item => exact process_appends h item
  | report item => exact ⟨EventLog.append_extends _ _ _ _ _ _ _, id⟩

/-! ## Runs -/

theorem operateAll_spec {p : Pipeline} {s : PipelineState} (h : Guarded p s)
    (os : List Operation) : Appends p s (p.operateAll s os) := by
  induction os generalizing s with
  | nil => exact .refl p s
  | cons o os ih =>
    have hfirst := operate_appends h o
    exact hfirst.trans (ih (hfirst.guarded h))

/-- **No operation takes a byte from the dataset**, if it is `Guarded` at the start. Between any two
moments of a run its content is continued, and where it could be read at the first, it can be read
at the second. -/
theorem operateAll_appends {p : Pipeline} {s : PipelineState} (h : Guarded p s)
    (before after : List Operation) :
    let t := (p.operateAll s before).files
    let t' := (p.operateAll s (before ++ after)).files
    t.contentOf p.dataset <+: t'.contentOf p.dataset ∧
      ∀ bytes, t.read p.dataset = .ok bytes → ∃ more, t'.read p.dataset = .ok (bytes ++ more) := by
  have hafter := operateAll_spec ((operateAll_spec h before).guarded h) after
  have hsplit : p.operateAll s (before ++ after) = p.operateAll (p.operateAll s before) after :=
    List.foldl_append
  dsimp only
  rw [hsplit]
  exact ⟨hafter.files.content, fun _ hr => hafter.files.read hr⟩

/-- Events are logged in the dataset itself, and nothing is there yet. -/
theorem operateAll_appends_shared_log :
    let p : Pipeline :=
      { performance := .default
        source := ⟨.ofString "shots", .ofString "assets"⟩
        analyzer := .ofSettings .default .default
        client := .script [.stream [.delta "topic: ships".toList]] true
        modelInfo := ModelSettings.default.info
        dataset := .ofString "data.jsonl"
        log := .ofString "data.jsonl"
        baseline := .ofString "baseline.json"
        stamp := fun _ => ⟨[], []⟩ }
    let files := FileTree.empty 0
    let item := Item.text "first".toList
    ∃ s, p.start files = .ok s ∧ Guarded p s ∧
      let t := (p.operateAll s [.report item]).files
      let t' := (p.operateAll s [.report item, .process item, .report item]).files
      t.contentOf p.dataset <+: t'.contentOf p.dataset ∧
        ∀ bytes, t.read p.dataset = .ok bytes →
          ∃ more, t'.read p.dataset = .ok (bytes ++ more) := by
  intro p files item
  have hapart : Apart files p.baseline p.dataset := by
    have hdataset : files.aim p.dataset = some [Utf8.encode "data.jsonl".toList] := by
      decide +kernel
    intro loc hloc
    rw [hdataset] at hloc
    cases hloc
    decide +kernel
  have hguarded : ∀ s, p.start files = .ok s → Guarded p s := by
    intro s hs
    cases hs
    exact ⟨.inr hapart, .inr (.inr ⟨FileTree.housed_empty 0, by decide +kernel⟩)⟩
  refine ⟨_, rfl, hguarded _ rfl, ?_⟩
  exact operateAll_appends (hguarded _ rfl) [.report item] [.process item, .report item]

/-! ## What is not guarded -/

/-- A snapshot takes the place of the dataset if `p.baseline` aims where `p.dataset` does. -/
theorem observe_overwrites {p : Pipeline} {s : PipelineState} {a : Analysis Float}
    {m : BaselineMetrics} (hbaseline : a.baseline = some m)
    (hsame : s.files.aim p.baseline = s.files.aim p.dataset) {loc : Location} {content : Bytes}
    (htarget : s.files.target p.baseline = .ok (loc, content)) :
    (p.observe a s).files.contentOf p.dataset =
      Utf8.encode (m.toJson (p.stamp s.stamped).timestamp).pretty := by
  obtain ⟨haim, -, hne, hnl⟩ := FileTree.target_spec htarget
  have hlinks : SameLinks s.files (s.files.put loc (.file (Utf8.encode
      (m.toJson (p.stamp s.stamped).timestamp).pretty) s.files.clock)) :=
    .put hne hnl (fun _ h => by cases h)
  unfold observe
  rw [hbaseline]
  dsimp only
  unfold BaselineMetrics.writeTo FileTree.write FileTree.update
  rw [htarget]
  dsimp only
  unfold FileTree.contentOf
  rw [hlinks.aim, ← hsame, haim]
  exact FileTree.bytesAt_put_file hne _ _

/-- A dataset named as the image is stored, in a folder that the image folder leads back to. -/
theorem operateAll_image_overwrites :
    let image := Utf8.encode "png".toList
    let name := (Assets.fileName (Fingerprint.of image)).bytes
    let p : Pipeline :=
      { performance := .default
        source := ⟨.ofString "shots", .ofString "a/.."⟩
        analyzer := .ofSettings .default .default
        client := .script [] true
        modelInfo := ModelSettings.default.info
        dataset := ⟨name⟩
        log := .ofString "log.txt"
        baseline := .ofString "baseline.json"
        stamp := fun _ => ⟨[], []⟩ }
    let shots := Utf8.encode "shots".toList
    let kept := Utf8.encode "kept".toList
    let files : FileTree :=
      ⟨[([name], .file kept 0), ([shots], .folder),
        ([shots, Utf8.encode "x.png".toList], .file image 0)], [], 0⟩
    ∃ s, p.start files = .ok s ∧ files.read p.dataset = .ok kept ∧
      (p.operateAll s [.collect .empty]).files.read p.dataset = .ok image := by
  intro image name p shots kept files
  refine ⟨_, rfl, ?_, ?_⟩
  · decide +kernel
  · decide +kernel

end Pipeline
end ClipLedger
