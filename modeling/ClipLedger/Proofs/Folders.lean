import ClipLedger.Proofs.Files.Fresh
import ClipLedger.Proofs.Files.Within
import ClipLedger.Proofs.Storage.Dataset
import ClipLedger.Settings.Basic

/-
  Making the folders that are worked with. Whether or not all of them can be made, nothing but
  folders comes to the tree (`AddsFolders`). Once they are made, making them again does nothing, and
  what is appended to the dataset and to the log goes into files that are there or can be
  (`Paths.ensureFolders_prepares`).
-/
namespace ClipLedger

namespace FileTree

/-- `t'` is `t` with folders where nothing was. -/
structure AddsFolders (t t' : FileTree) : Prop where
  workingFolder : t'.workingFolder = t.workingFolder
  clock : t'.clock = t.clock
  nodes : ∀ loc, t'.node? loc = t.node? loc ∨ t.node? loc = none ∧ t'.node? loc = some .folder

theorem AddsFolders.refl (t : FileTree) : AddsFolders t t := ⟨rfl, rfl, fun _ => .inl rfl⟩

theorem AddsFolders.trans {t t' t'' : FileTree} (h : AddsFolders t t') (h' : AddsFolders t' t'') :
    AddsFolders t t'' := by
  refine ⟨h'.workingFolder.trans h.workingFolder, h'.clock.trans h.clock, fun loc => ?_⟩
  rcases h.nodes loc with hsame | ⟨hnone, hfolder⟩
  · rw [← hsame]
    exact h'.nodes loc
  · rcases h'.nodes loc with hsame | ⟨hnone', -⟩
    · exact .inr ⟨hnone, hsame.trans hfolder⟩
    · rw [hfolder] at hnone'
      cases hnone'

/-- What stood somewhere in `t` stands there in `t'`. -/
theorem AddsFolders.keeps {t t' : FileTree} (h : AddsFolders t t') {loc : Location} {node : Node}
    (hnode : t.node? loc = some node) : t'.node? loc = some node := by
  rcases h.nodes loc with hsame | ⟨hnone, -⟩
  · exact hsame.trans hnode
  · rw [hnode] at hnone
    cases hnone

theorem makeFolder_addsFolders (t : FileTree) (p : Path) : AddsFolders t (t.makeFolder p).2 := by
  unfold makeFolder
  split
  · exact .refl t
  · next loc h =>
    obtain ⟨hnone, hne⟩ := freePlace_spec h
    refine ⟨rfl, rfl, fun l => ?_⟩
    rw [node?_put hne]
    split
    · next hl => exact .inr ⟨hl ▸ hnone, rfl⟩
    · exact .inl rfl

theorem makeFolders_addsFolders (t : FileTree) (p : Path) : AddsFolders t (t.makeFolders p).2 :=
  makeAll_rel AddsFolders.refl AddsFolders.trans (fun t q _ => makeFolder_addsFolders t q) t

/-- Where `makeFolders` succeeds, the folder is there. -/
theorem makeFolders_eq_ok {t t' : FileTree} {p : Path} (h : t.makeFolders p = (.ok (), t')) :
    p.bytes = [] ∨ t'.isFolder p = true := by
  have hmade : ∀ {t t' : FileTree}, t.makeFolder p = (.ok (), t') → t'.isFolder p = true := by
    intro t t' hfolder
    unfold makeFolder at hfolder
    split at hfolder
    · cases hfolder
    · next hfree =>
      cases hfolder
      exact isFolder_iff.2 ⟨_, find_of_freePlace hfree⟩
  rcases makeAll_eq_ok h with ⟨rfl, hthere⟩ | hnew | ⟨-, t₁, -, hnew | ⟨hthere, rfl⟩⟩
  · exact hthere
  · exact .inr (hmade hnew)
  · exact .inr (hmade hnew)
  · exact .inr hthere

theorem isFolder_standsFor {t : FileTree} {p : Path} (h : p.bytes = [] ∨ t.isFolder p = true) :
    t.isFolder (standsFor p) = true := by
  unfold standsFor
  split
  · rfl
  · next hne => exact h.resolve_left hne

theorem makeFolders_again {t : FileTree} {p : Path} (h : p.bytes = [] ∨ t.isFolder p = true) :
    t.makeFolders p = (.ok (), t) := by
  rcases h with hempty | hfolder
  · unfold makeFolders makeAll
    rw [if_pos hempty]
  · exact makeFolders_of_isFolder hfolder

/-! ## Several folders -/

/-- `makeEach` lies in every relation that is reflexive, transitive and holds for
`makeFolders`. -/
theorem makeEach_rel {R : FileTree → FileTree → Prop} (hrefl : ∀ t, R t t)
    (htrans : ∀ {t t' t''}, R t t' → R t' t'' → R t t'') (hstep : ∀ t p, R t (t.makeFolders p).2)
    (t : FileTree) (ps : List Path) : R t (t.makeEach ps).2 := by
  induction ps generalizing t with
  | nil => exact hrefl t
  | cons p ps ih =>
    unfold makeEach
    split
    · next h => exact snd_of_eq h (hstep t p)
    · next t₁ h =>
      have hfirst : R t t₁ := snd_of_eq h (hstep t p)
      exact htrans hfirst (ih t₁)

theorem makeEach_addsFolders (t : FileTree) (ps : List Path) : AddsFolders t (t.makeEach ps).2 :=
  makeEach_rel AddsFolders.refl AddsFolders.trans makeFolders_addsFolders t ps

theorem makeEach_grows (t : FileTree) (ps : List Path) : Grows t (t.makeEach ps).2 :=
  makeEach_rel Grows.refl Grows.trans makeFolders_grows t ps

/-- Where `makeEach` succeeds, every folder is there. -/
theorem makeEach_eq_ok {t t' : FileTree} {ps : List Path} (h : t.makeEach ps = (.ok (), t')) :
    ∀ p ∈ ps, p.bytes = [] ∨ t'.isFolder p = true := by
  induction ps generalizing t with
  | nil => exact List.forall_mem_nil _
  | cons p ps ih =>
    unfold makeEach at h
    split at h
    · cases h
    · next t₁ hfirst =>
      refine List.forall_mem_cons.2 ⟨(makeFolders_eq_ok hfirst).imp_right fun hfolder => ?_, ih h⟩
      have hgrows : Grows t₁ t' := snd_of_eq h (makeEach_grows t₁ ps)
      exact hgrows.isFolder hfolder

/-- Where every folder is there, `makeEach` succeeds and does nothing. -/
theorem makeEach_again {t : FileTree} {ps : List Path}
    (h : ∀ p ∈ ps, p.bytes = [] ∨ t.isFolder p = true) : t.makeEach ps = (.ok (), t) := by
  induction ps with
  | nil => rfl
  | cons p ps ih =>
    rw [List.forall_mem_cons] at h
    rw [makeEach, makeFolders_again h.1]
    exact ih h.2

end FileTree

open FileTree

namespace Paths

/-- Each of the four paths ends in a name. -/
structure Named (p : Paths) : Prop where
  assets : p.assets.EndsInName
  log : p.log.EndsInName
  dataset : p.dataset.EndsInName
  screenshots : p.screenshots.EndsInName

theorem ensureFolders_eq_ok {t : FileTree} {p : Paths} (h : (p.ensureFolders t).1 = .ok ()) :
    p.ensureFolders t = (.ok (), (p.ensureFolders t).2) := Prod.ext h rfl

/-- **Making the folders of the paths `p`.** `ensureFolders` adds folders and nothing else, also
where it fails. If it succeeds, the folders are there, and making them again succeeds and does
nothing. An append of an item that has a `line?`, or to the log, then fails only where a folder or a
link is at the path, or the path does not `Fits` a file. -/
theorem ensureFolders_prepares (t : FileTree) {p : Paths} (h : p.Named) :
    AddsFolders t (p.ensureFolders t).2 ∧
      ∀ t', p.ensureFolders t = (.ok (), t') →
        t'.isFolder p.assets = true ∧ t'.isFolder p.screenshots = true ∧
        (∃ q, p.log.parent? = some q ∧ t'.isFolder (standsFor q) = true) ∧
        (∃ q, p.dataset.parent? = some q ∧ t'.isFolder (standsFor q) = true) ∧
        p.ensureFolders t' = (.ok (), t') ∧
        (p.log.Fits → t'.isLink p.log = false → ∀ timestamp kind content e,
          (EventLog.append t' p.log timestamp kind content).1 = .error e →
          t'.isFolder p.log = true) ∧
        (p.dataset.Fits → t'.isLink p.dataset = false → ∀ m stamp item r e,
          (Dataset.append t' p.dataset m stamp item r).1 = .error e →
          t'.isFolder p.dataset = true ∨ Dataset.line? m stamp item r = none) := by
  refine ⟨makeEach_addsFolders t p.folders, fun t' hmade => ?_⟩
  have hthere := makeEach_eq_ok hmade
  have hagain : p.ensureFolders t' = (.ok (), t') := makeEach_again hthere
  obtain ⟨logFolder, -, hlog, -⟩ := h.log.parent
  obtain ⟨datasetFolder, -, hdataset, -⟩ := h.dataset.parent
  simp only [folders, hlog, hdataset, Option.toList_some, List.cons_append, List.nil_append,
    List.forall_mem_cons] at hthere
  obtain ⟨hassets, hscreenshots, hlogFolder, hdatasetFolder, -⟩ := hthere
  have hlogThere := isFolder_standsFor hlogFolder
  have hdatasetThere := isFolder_standsFor hdatasetFolder
  refine ⟨hassets.resolve_left h.assets.bytes_ne_nil,
    hscreenshots.resolve_left h.screenshots.bytes_ne_nil, ⟨_, hlog, hlogThere⟩,
    ⟨_, hdataset, hdatasetThere⟩, hagain, ?_, ?_⟩
  · intro hfits hlink timestamp kind content e hfails
    rw [← Bool.not_eq_false]
    intro hfolder
    have hwritable := writable_of_parent h.log hfits hlog hlogThere hlink hfolder
    rw [EventLog.append_eq_ok hwritable] at hfails
    cases hfails
  · intro hfits hlink m stamp item r e hfails
    rw [or_iff_not_imp_left, Bool.not_eq_true]
    intro hfolder
    have hwritable := writable_of_parent h.dataset hfits hdataset hdatasetThere hlink hfolder
    cases hline : Dataset.line? m stamp item r with
    | none => rfl
    | some line =>
      rw [Dataset.append_eq_ok hwritable hline] at hfails
      cases hfails

/-- Folders inside one another, a dataset that is named without any folder, and a log whose path is
that of a folder. -/
theorem ensureFolders_prepares_nested :
    let t := FileTree.inside [Utf8.encode "w".toList] 0
    let p : Paths := ⟨.ofString "pile/./a", .ofString "pile/log", .ofString "data.jsonl",
      .ofString "pile/log/../log"⟩
    let t' := (p.ensureFolders t).2
    p.Named ∧ p.ensureFolders t = (.ok (), t') ∧ p.log.Fits ∧ p.dataset.Fits ∧
      t'.isFolder p.log = true ∧ t'.isFolder p.dataset = false ∧ t'.isFolder p.assets = true ∧
      p.ensureFolders t' = (.ok (), t') ∧
      (Dataset.append t' p.dataset ModelSettings.default.info ⟨[], []⟩ (.text ['x']) []).1 =
        .ok () := by
  intro t p t'
  have hnamed : p.Named :=
    ⟨by decide +kernel, by decide +kernel, by decide +kernel, by decide +kernel⟩
  have hmade : (p.ensureFolders t).1 = .ok () := by decide +kernel
  have hok := ensureFolders_eq_ok hmade
  have hlog : p.log.Fits := ⟨by decide +kernel, by decide +kernel⟩
  have hdataset : p.dataset.Fits := ⟨by decide +kernel, by decide +kernel⟩
  have hfolder : t'.isFolder p.dataset = false := by decide +kernel
  have hlink : t'.isLink p.dataset = false := by decide +kernel
  obtain ⟨hassets, -, -, -, hagain, -, happend⟩ := (ensureFolders_prepares t hnamed).2 t' hok
  refine ⟨hnamed, hok, hlog, hdataset, by decide +kernel, hfolder, hassets, hagain, ?_⟩
  cases hresult : (Dataset.append t' p.dataset ModelSettings.default.info ⟨[], []⟩
    (.text ['x']) []).1 with
  | ok => rfl
  | error e =>
    rcases happend hdataset hlink _ _ _ _ _ hresult with hthere | hnone
    · rw [hfolder] at hthere
      cases hthere
    · cases hnone

/-- **A name may be too long for a file.** In a tree without links, the folders of these paths can
be made, no folder is where the dataset is to be, and still nothing can be appended to it. -/
theorem ensureFolders_long_name :
    let t := FileTree.inside [Utf8.encode "w".toList] 0
    let p : Paths := { Paths.under ⟨[]⟩ with dataset := ⟨List.replicate 256 0x61⟩ }
    let t' := (p.ensureFolders t).2
    p.Named ∧ (∀ e ∈ t.nodes, e.2 = .folder) ∧ (p.ensureFolders t).1 = .ok () ∧
      t'.isFolder p.dataset = false ∧
      (Dataset.append t' p.dataset ModelSettings.default.info ⟨[], []⟩ (.text ['x']) []).1 =
        .error (.file .nameTooLong) := by
  intro t p t'
  have hnamed : p.Named :=
    ⟨by decide +kernel, by decide +kernel, by decide +kernel, by decide +kernel⟩
  have htarget : t'.target p.dataset = .error .nameTooLong := by decide +kernel
  refine ⟨hnamed, by decide +kernel, by decide +kernel, by decide +kernel, ?_⟩
  have happend : ∀ line, Dataset.appendLine t' p.dataset line = (.error .nameTooLong, t') := by
    intro line
    unfold Dataset.appendLine
    rw [FileTree.append_whole]
    unfold FileTree.update
    rw [htarget]
  obtain ⟨line, hline⟩ :
      ∃ line, Dataset.line? ModelSettings.default.info ⟨[], []⟩ (.text ['x']) [] =
        some line := ⟨_, rfl⟩
  unfold Dataset.append
  rw [hline]
  dsimp only
  rw [happend]

end Paths
end ClipLedger
