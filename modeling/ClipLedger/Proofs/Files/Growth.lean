import ClipLedger.Proofs.Files.Housed

/-
  What is there stays there. Writing, appending and making folders leave every folder a folder,
  every link as it is and every file a file (`Grows`), so whatever a path leads to it leads to
  afterwards (`Grows.find`). A file that is written where nothing was costs no other file a byte,
  nor does anything that is appended anywhere: the bytes of each file only become more (`Extends`).
-/
namespace ClipLedger

/-- A node is as it was, or it is a file and has been one. -/
inductive Node.Became : Node → Node → Prop
  | same (node : Node) : Became node node
  | file (content : Bytes) (modified : Int) (content' : Bytes) (modified' : Int) :
      Became (.file content modified) (.file content' modified')

theorem Node.Became.trans {a b c : Node} (h : a.Became b) (h' : b.Became c) : a.Became c := by
  cases h with
  | same => exact h'
  | file content modified =>
    cases h' with
    | same => exact .file _ _ _ _
    | file => exact .file _ _ _ _

namespace FileTree

/-! ## Trees that grow -/

/-- From `t` to `t'`: every path aims where it did, whatever stood somewhere stands there still, and
the tree stays `Housed`. -/
structure Grows (t t' : FileTree) : Prop where
  links : SameLinks t t'
  nodes : ∀ loc node, t.node? loc = some node →
    ∃ node', t'.node? loc = some node' ∧ node.Became node'
  housed : Housed t → Housed t'

theorem Grows.refl (t : FileTree) : Grows t t :=
  ⟨.refl t, fun _ node h => ⟨node, h, .same node⟩, id⟩

theorem Grows.trans {t t' t'' : FileTree} (h : Grows t t') (h' : Grows t' t'') : Grows t t'' := by
  refine ⟨h.links.trans h'.links, fun loc node hn => ?_, h'.housed ∘ h.housed⟩
  obtain ⟨node', hn', hb⟩ := h.nodes loc node hn
  obtain ⟨node'', hn'', hb'⟩ := h'.nodes loc node' hn'
  exact ⟨node'', hn'', hb.trans hb'⟩

theorem Grows.put {t : FileTree} {loc : Location} {node : Node} (hne : loc ≠ [])
    (hold : ∀ n, t.node? loc = some n → n.Became node) (hnew : ∀ target, node ≠ .link target)
    (hhoused : Housed t → Housed (t.put loc node)) : Grows t (t.put loc node) := by
  refine ⟨.put hne (fun target hl => ?_) hnew, fun l n hn => ?_, hhoused⟩
  · cases hold _ hl
    exact hnew target rfl
  · rw [node?_put hne]
    by_cases hl : l = loc
    · rw [if_pos hl]
      rw [hl] at hn
      exact ⟨node, rfl, hold n hn⟩
    · rw [if_neg hl]
      exact ⟨n, hn, .same n⟩

/-- At the `target` of a path nothing stands, or a file. -/
theorem target_cases {t : FileTree} {p : Path} {loc : Location} {content : Bytes}
    (h : t.target p = .ok (loc, content)) :
    (t.node? loc = none ∧ content = []) ∨
      ∃ modified, t.node? loc = some (.file content modified) := by
  unfold target at h
  split at h
  · cases h
  · next hpl =>
    cases h
    exact .inl ⟨((place_arrives (by decide) hpl).vacant _ rfl).1, rfl⟩
  · next modified hpl =>
    cases h
    rcases (place_arrives (by decide) hpl).found _ _ rfl with hf | ⟨hnode, -⟩
    · cases hf
    · exact .inr ⟨modified, hnode⟩
  · cases h

theorem grows_put_file {t : FileTree} {p : Path} {loc : Location} {content : Bytes}
    (h : t.target p = .ok (loc, content)) (bytes : Bytes) (time : Int) :
    Grows t (t.put loc (.file bytes time)) := by
  refine .put (target_spec h).2.2.1 (fun n hn => ?_) (fun _ h => by cases h)
    fun ht => ht.put_file h bytes time
  rcases target_cases h with ⟨hnone, -⟩ | ⟨modified, hfile⟩
  · rw [hnone] at hn
    cases hn
  · rw [hfile] at hn
    cases hn
    exact .file _ _ _ _

theorem Puts.grows {t t' : FileTree} {q : Path} (h : Puts t q t') : Grows t t' := by
  cases h with
  | nothing => exact .refl t
  | file h bytes time => exact grows_put_file h bytes time

theorem makeFolder_grows (t : FileTree) (p : Path) : Grows t (t.makeFolder p).2 := by
  unfold makeFolder
  split
  · exact .refl t
  · next h =>
    obtain ⟨hnone, hne⟩ := freePlace_spec h
    refine .put hne (fun n hn => ?_) (fun _ h => by cases h) fun ht => ht.put_folder h
    rw [hnone] at hn
    cases hn

theorem makeFolders_grows (t : FileTree) (p : Path) : Grows t (t.makeFolders p).2 :=
  makeAll_rel Grows.refl Grows.trans (fun t q _ => makeFolder_grows t q) t

/-! ## Walks in a tree that grows -/

theorem Grows.walkFrom {t t' : FileTree} (h : Grows t t') {purpose : Purpose}
    {d d' : Location → List Bytes → Except FileError Place}
    (hd : ∀ loc steps l node, d loc steps = .ok (.found l node) →
      ∃ node', d' loc steps = .ok (.found l node') ∧ node.Became node')
    (loc : Location) (steps : List Bytes) {l : Location} {node : Node}
    (hw : t.walkFrom purpose d loc steps = .ok (.found l node)) :
    ∃ node', t'.walkFrom purpose d' loc steps = .ok (.found l node') ∧ node.Became node' := by
  simp only [walkFrom_eq_ok] at hw ⊢
  generalize hplace : Place.found l node = place at hw
  induction hw with
  | stop loc =>
    cases hplace
    exact ⟨.folder, .stop _, .same _⟩
  | stay hdot _ ih =>
    obtain ⟨node', hgoes, hb⟩ := ih hplace
    exact ⟨node', .stay hdot hgoes, hb⟩
  | up _ ih =>
    obtain ⟨node', hgoes, hb⟩ := ih hplace
    exact ⟨node', .up hgoes, hb⟩
  | vacant => cases hplace
  | enter hnamed hnode _ ih =>
    obtain ⟨_, hnode', hb⟩ := h.nodes _ _ hnode
    cases hb
    obtain ⟨node', hgoes, hb⟩ := ih hplace
    exact ⟨node', .enter hnamed hnode' hgoes, hb⟩
  | file hnamed hnode =>
    cases hplace
    obtain ⟨node', hnode', hb⟩ := h.nodes _ _ hnode
    cases hb with
    | same => exact ⟨_, .file hnamed hnode', .same _⟩
    | file => exact ⟨_, .file hnamed hnode', .file _ _ _ _⟩
  | link hnamed hnode hlook =>
    cases hplace
    exact ⟨_, .link hnamed ((h.links.links _ _).2 hnode) hlook, .same _⟩
  | follow hnamed hnode hon hnext =>
    obtain ⟨node', hnext', hb⟩ := hd _ _ _ _ (hplace ▸ hnext)
    exact ⟨node', .follow hnamed ((h.links.links _ _).2 hnode) hon hnext', hb⟩

theorem Grows.walk {t t' : FileTree} (h : Grows t t') {purpose : Purpose} (n : Nat)
    (loc : Location) (steps : List Bytes) {l : Location} {node : Node}
    (hw : t.walk purpose n loc steps = .ok (.found l node)) :
    ∃ node', t'.walk purpose n loc steps = .ok (.found l node') ∧ node.Became node' := by
  induction n generalizing loc steps l node with
  | zero => exact h.walkFrom (fun _ _ _ _ hx => by cases hx) loc steps hw
  | succ n ih => exact h.walkFrom (fun loc steps _ _ hx => ih loc steps hx) loc steps hw

theorem Grows.origin {t t' : FileTree} (h : Grows t t') (p : Path) : t'.origin p = t.origin p := by
  unfold FileTree.origin
  rw [h.links.folder]

/-- **A path that leads to something leads there in a tree that has grown.** -/
theorem Grows.place {t t' : FileTree} (h : Grows t t') {purpose : Purpose} {p : Path}
    {l : Location} {node : Node} (hw : t.place purpose p = .ok (.found l node)) :
    ∃ node', t'.place purpose p = .ok (.found l node') ∧ node.Became node' := by
  unfold FileTree.place at hw ⊢
  split at hw
  · cases hw
  · rw [h.origin]
    exact h.walk _ _ _ hw

theorem Grows.find {t t' : FileTree} (h : Grows t t') {p : Path} {l : Location} {node : Node}
    (hf : t.find p = .ok (l, node)) : ∃ node', t'.find p = .ok (l, node') ∧ node.Became node' := by
  obtain ⟨node', hp, hb⟩ := h.place (find_eq_ok.1 hf)
  exact ⟨node', find_eq_ok.2 hp, hb⟩

theorem Grows.isFolder {t t' : FileTree} (h : Grows t t') {p : Path} (hf : t.isFolder p = true) :
    t'.isFolder p = true := by
  obtain ⟨l, hl⟩ := isFolder_iff.1 hf
  obtain ⟨node', hl', hb⟩ := h.find hl
  cases hb
  exact isFolder_iff.2 ⟨l, hl'⟩

/-- A file that can be read can be read in a tree that has grown. -/
theorem Grows.read {t t' : FileTree} (h : Grows t t') {p : Path} {bytes : Bytes}
    (hr : t.read p = .ok bytes) : ∃ bytes', t'.read p = .ok bytes' := by
  obtain ⟨l, modified, hl⟩ := read_eq_ok.1 hr
  obtain ⟨node', hl', hb⟩ := h.find hl
  cases hb with
  | same => exact ⟨bytes, read_eq_ok.2 ⟨l, modified, hl'⟩⟩
  | file _ _ bytes' modified' => exact ⟨bytes', read_eq_ok.2 ⟨l, modified', hl'⟩⟩

/-! ## Folders that are made -/

/-- A folder that was put at the `freePlace` of `p` is where `p` leads. -/
theorem find_of_freePlace {t : FileTree} {p : Path} {loc : Location}
    (h : t.freePlace p = .ok loc) : (t.put loc .folder).find p = .ok (loc, .folder) := by
  have hgrows : Grows t (t.put loc .folder) := by
    have hmade := makeFolder_grows t p
    unfold makeFolder at hmade
    rwa [h] at hmade
  obtain ⟨hnone, hne⟩ := freePlace_spec h
  obtain ⟨before, name, l, hfault, hsteps, hwalk, hnamed, rfl, -⟩ := freePlace_eq_ok h
  obtain ⟨node', hwalk', hb⟩ := hgrows.walk _ _ _ hwalk
  cases hb
  have hnode : (t.put (l ++ [name]) .folder).node? (l ++ [name]) = some .folder := by
    rw [node?_put hne, if_pos rfl]
  rw [find_folder_iff, hgrows.origin, hsteps]
  exact ⟨hfault, walk_then (fun d => .enter hnamed hnode (.stop _)) _ _ _ hwalk'⟩

theorem aim_of_freePlace {t : FileTree} {p : Path} {loc : Location}
    (h : t.freePlace p = .ok loc) : t.aim p = some loc := by
  obtain ⟨hnone, hne⟩ := freePlace_spec h
  have hlinks : SameLinks t (t.put loc .folder) :=
    .put hne (fun _ h => by rw [hnone] at h; cases h) (fun _ h => by cases h)
  have harrives := place_arrives (by decide) (find_eq_ok.1 (find_of_freePlace h))
  exact (hlinks.aim p).symm.trans harrives.loc

/-! ## Files that only become longer -/

/-- `t` grows to `t'`, and the content at `p` is continued. -/
structure Extends (t t' : FileTree) (p : Path) : Prop where
  grows : Grows t t'
  content : t.contentOf p <+: t'.contentOf p

theorem Extends.refl (t : FileTree) (p : Path) : Extends t t p := ⟨.refl t, List.prefix_rfl⟩

theorem Extends.trans {t t' t'' : FileTree} {p : Path} (h : Extends t t' p)
    (h' : Extends t' t'' p) : Extends t t'' p :=
  ⟨h.grows.trans h'.grows, h.content.trans h'.content⟩

theorem Grows.extends_of_keeps {t t' : FileTree} {p : Path} (h : Grows t t')
    (hkeeps : Keeps t t' p) : Extends t t' p :=
  ⟨h, hkeeps.content ▸ List.prefix_rfl⟩

/-- What `read` answered is what it answers now, with something behind it. -/
theorem Extends.read {t t' : FileTree} {p : Path} (h : Extends t t' p) {bytes : Bytes}
    (hr : t.read p = .ok bytes) : ∃ more, t'.read p = .ok (bytes ++ more) := by
  obtain ⟨bytes', hr'⟩ := h.grows.read hr
  have hcontent := h.content
  rw [contentOf_of_read hr, contentOf_of_read hr'] at hcontent
  obtain ⟨more, rfl⟩ := hcontent
  exact ⟨more, hr'⟩

/-- Putting `bytes` behind the content at the target of `q` extends every path. -/
theorem extends_put_file {t : FileTree} {q : Path} {loc : Location} {content : Bytes}
    (h : t.target q = .ok (loc, content)) (bytes : Bytes) (time : Int) (p : Path) :
    Extends t (t.put loc (.file (content ++ bytes) time)) p := by
  have hgrows := grows_put_file h (content ++ bytes) time
  obtain ⟨-, hb, hne, -⟩ := target_spec h
  refine ⟨hgrows, ?_⟩
  unfold contentOf
  rw [hgrows.links.aim]
  cases t.aim p with
  | none => exact List.prefix_rfl
  | some l =>
    dsimp only
    by_cases hl : l = loc
    · rw [hl, bytesAt_put_file hne, hb]
      exact List.prefix_append content bytes
    · exact (bytesAt_put hne (.file (content ++ bytes) time) hl) ▸ List.prefix_rfl

/-- **Appending takes no byte from any file**, whatever becomes of the write `w`. -/
theorem append_extends (t : FileTree) (q : Path) (bytes : Bytes) (w : Writing) (p : Path) :
    Extends t (t.append q bytes w).2 p := by
  rcases append_cases t q bytes w with ⟨e, -, he⟩ | ⟨loc, content, h, -, hcases⟩
  · rw [he]
    exact .refl t p
  · rcases hcases with ⟨-, hsame⟩ | ⟨-, -, rfl, hmade⟩ | ⟨added, -, hput⟩
    · rw [hsame]
      exact .refl t p
    · rw [hmade]
      exact extends_put_file h [] _ p
    · rw [hput]
      exact extends_put_file h added _ p

/-- Writing extends every path if nothing was at `q`. -/
theorem write_extends {t : FileTree} {q : Path} (hnot : t.holds q = false) (bytes : Bytes)
    (p : Path) : Extends t (t.write q bytes).2 p := by
  unfold write update
  split
  · exact .refl t p
  · next loc content h =>
    have hnone := target_of_not_holds hnot h
    rcases target_cases h with ⟨-, rfl⟩ | ⟨modified, hfile⟩
    · exact extends_put_file h bytes _ p
    · rw [hnone] at hfile
      cases hfile

end FileTree
end ClipLedger
