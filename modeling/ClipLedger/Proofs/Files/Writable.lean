import ClipLedger.Proofs.Files.Growth

/-
  Paths at which a file can be written. Such a path stays one while files are written anywhere
  (`Puts.writable`), and while folders are made elsewhere
  (`makeFolders_writable`).
-/
namespace ClipLedger.FileTree

/-- At `loc` is a file, or one can be made. -/
def Takes (loc : Location) : Place → Prop
  | .vacant l => l = loc
  | .found l (.file _ _) => l = loc
  | _ => False

/-- A file can be written at `p`. -/
def Writable (t : FileTree) (p : Path) : Prop :=
  ∃ loc place, t.place .make p = .ok place ∧ Takes loc place

theorem writable_iff {t : FileTree} {p : Path} :
    t.Writable p ↔ ∃ loc content, t.target p = .ok (loc, content) := by
  unfold Writable target
  constructor
  · rintro ⟨loc, place, hplace, htakes⟩
    rw [hplace]
    cases place with
    | vacant l => exact ⟨_, _, rfl⟩
    | found l node =>
      cases node with
      | file content modified => exact ⟨_, _, rfl⟩
      | folder => exact htakes.elim
      | link target => exact htakes.elim
  · rintro ⟨loc, content, h⟩
    split at h
    · cases h
    · next hplace => exact ⟨_, _, hplace, rfl⟩
    · next hplace => exact ⟨_, _, hplace, rfl⟩
    · cases h

/-- Where a file could be written it can be written after the tree has grown, unless a folder is
there now. -/
theorem Grows.walkFrom_takes {t t' : FileTree} (h : Grows t t')
    {d d' : Location → List Bytes → Except FileError Place} {l : Location}
    (hclear : t'.node? l ≠ some .folder)
    (hd : ∀ loc steps place, d loc steps = .ok place → Takes l place →
      ∃ place', d' loc steps = .ok place' ∧ Takes l place')
    (loc : Location) (steps : List Bytes) {place : Place}
    (hw : t.walkFrom .make d loc steps = .ok place) (htakes : Takes l place) :
    ∃ place', t'.walkFrom .make d' loc steps = .ok place' ∧ Takes l place' := by
  simp only [walkFrom_eq_ok] at hw ⊢
  induction hw with
  | stop loc => exact htakes.elim
  | stay hdot _ ih =>
    obtain ⟨place', hgoes, ht⟩ := ih htakes
    exact ⟨place', .stay hdot hgoes, ht⟩
  | up _ ih =>
    obtain ⟨place', hgoes, ht⟩ := ih htakes
    exact ⟨place', .up hgoes, ht⟩
  | @vacant loc name hnamed hnode =>
    cases htakes
    cases hnode' : t'.node? (loc ++ [name]) with
    | none => exact ⟨_, .vacant hnamed hnode', rfl⟩
    | some node =>
      cases node with
      | folder => exact absurd hnode' hclear
      | file content modified => exact ⟨_, .file hnamed hnode', rfl⟩
      | link target =>
        have hlink := (h.links.links _ _).1 hnode'
        rw [hnode] at hlink
        cases hlink
  | enter hnamed hnode _ ih =>
    obtain ⟨_, hnode', hb⟩ := h.nodes _ _ hnode
    cases hb
    obtain ⟨place', hgoes, ht⟩ := ih htakes
    exact ⟨place', .enter hnamed hnode' hgoes, ht⟩
  | file hnamed hnode =>
    obtain ⟨node', hnode', hb⟩ := h.nodes _ _ hnode
    cases hb with
    | same => exact ⟨_, .file hnamed hnode', htakes⟩
    | file => exact ⟨_, .file hnamed hnode', htakes⟩
  | link _ _ hlook => cases hlook
  | follow hnamed hnode hon hnext =>
    obtain ⟨place', hnext', ht⟩ := hd _ _ _ hnext htakes
    exact ⟨place', .follow hnamed ((h.links.links _ _).2 hnode) hon hnext', ht⟩

theorem Grows.writable {t t' : FileTree} (h : Grows t t') {p : Path} (hp : t.Writable p)
    (hclear : ∀ loc, t.aim p = some loc → t'.node? loc ≠ some .folder) : t'.Writable p := by
  obtain ⟨loc, place, hplace, htakes⟩ := hp
  have haim : t.aim p = some loc := by
    have harrives := place_arrives (by decide) hplace
    cases place with
    | vacant l => exact htakes ▸ harrives.loc
    | found l node =>
      cases node with
      | file content modified => exact htakes ▸ harrives.loc
      | folder => exact htakes.elim
      | link target => exact htakes.elim
  have hwalk : ∀ n from_ steps place, t.walk .make n from_ steps = .ok place →
      Takes loc place →
      ∃ place', t'.walk .make n from_ steps = .ok place' ∧ Takes loc place' := by
    intro n
    induction n with
    | zero =>
      exact fun _ _ _ hw => h.walkFrom_takes (hclear loc haim) (fun _ _ _ hx => by cases hx) _ _ hw
    | succ n ih => exact fun _ _ _ hw => h.walkFrom_takes (hclear loc haim) ih _ _ hw
  unfold FileTree.place at hplace
  unfold Writable FileTree.place
  split at hplace
  · cases hplace
  · rw [h.origin]
    obtain ⟨place', hplace', htakes'⟩ := hwalk _ _ _ _ hplace htakes
    exact ⟨loc, place', hplace', htakes'⟩

/-- Where `p` aims, no folder is. -/
theorem Writable.clear {t : FileTree} {p : Path} (hp : t.Writable p) {loc : Location}
    (haim : t.aim p = some loc) : t.node? loc ≠ some .folder := by
  obtain ⟨l, content, htarget⟩ := writable_iff.1 hp
  have hl := (target_spec htarget).1
  rw [haim] at hl
  cases hl
  intro hfolder
  rcases target_cases htarget with ⟨hnone, -⟩ | ⟨modified, hfile⟩
  · rw [hfolder] at hnone
    cases hnone
  · rw [hfolder] at hfile
    cases hfile

/-- Putting a file leaves `p` writable. -/
theorem writable_put_file {t : FileTree} {p q : Path} {loc : Location} {content : Bytes}
    (h : t.target q = .ok (loc, content)) (bytes : Bytes) (time : Int) (hp : t.Writable p) :
    (t.put loc (.file bytes time)).Writable p := by
  refine (grows_put_file h bytes time).writable hp fun l haim => ?_
  rw [node?_put (target_spec h).2.2.1]
  split
  · exact fun h => by cases h
  · exact hp.clear haim

theorem Puts.writable {t t' : FileTree} {p q : Path} (h : Puts t q t') (hp : t.Writable p) :
    t'.Writable p := by
  cases h with
  | nothing => exact hp
  | file h bytes time => exact writable_put_file h bytes time hp

theorem append_eq_ok {t : FileTree} {p : Path} (h : t.Writable p) (bytes : Bytes) :
    (t.append p bytes).1 = .ok () := by
  obtain ⟨loc, content, htarget⟩ := writable_iff.1 h
  rw [append_whole]
  unfold update
  rw [htarget]

/-- Making a folder `Apart` from `p` leaves `p` writable. -/
theorem makeFolder_writable {t : FileTree} {p q : Path} (hp : t.Writable p) (ha : Apart t q p) :
    (t.makeFolder q).2.Writable p := by
  have hgrows := makeFolder_grows t q
  unfold makeFolder at hgrows ⊢
  split
  · exact hp
  · next loc h =>
    rw [h] at hgrows
    refine hgrows.writable hp fun l haim => ?_
    rw [node?_put (freePlace_spec h).2]
    split
    · next hl => exact absurd (hl ▸ aim_of_freePlace h) (ha l haim)
    · exact hp.clear haim

/-- Making a folder and those that contain it leaves `p` writable if all of them are `Apart` from
it. -/
theorem makeFolders_writable {t : FileTree} {p q : Path} (hp : t.Writable p)
    (ha : ∀ q' ∈ q :: q.parents, Apart t q' p) : (t.makeFolders q).2.Writable p := by
  let R (t t' : FileTree) : Prop := SameLinks t t' ∧
    (t.Writable p → (∀ q' ∈ q :: q.parents, Apart t q' p) → t'.Writable p)
  have hstep : ∀ t, ∀ q' ∈ q :: q.parents, R t (t.makeFolder q').2 := fun t q' hq' =>
    ⟨(makeFolder_grows t q').links, fun hp ha => makeFolder_writable hp (ha q' hq')⟩
  have htrans : ∀ {t t' t''}, R t t' → R t' t'' → R t t'' := fun h h' =>
    ⟨h.1.trans h'.1, fun hp ha => h'.2 (h.2 hp ha) fun q' hq' => h.1.apart (ha q' hq')⟩
  have hmade : R t (t.makeFolders q).2 :=
    @makeAll_rel R (fun t => ⟨.refl t, fun hp _ => hp⟩) htrans _ hstep t
  exact hmade.2 hp ha

end ClipLedger.FileTree
