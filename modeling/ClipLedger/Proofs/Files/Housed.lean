import ClipLedger.Proofs.Files.Way

/-
  Trees as they are on a disk: whatever stands somewhere stands in a folder, and the working folder
  is one (`Housed`). In such a tree a walk comes to what stands at its end, or to a name in a
  folder (`place_stands`), so what is written or made there stands in a folder too.
-/
namespace ClipLedger.FileTree

/-- Every node stands in a folder, and the working folder is one. -/
structure Housed (t : FileTree) : Prop where
  working : t.node? t.workingFolder = some .folder
  above : ∀ loc name node, t.node? (loc ++ [name]) = some node → t.node? loc = some .folder

theorem housed_empty (clock : Int) : Housed (FileTree.empty clock) := by
  refine ⟨rfl, fun loc name node hnode => ?_⟩
  unfold node? at hnode
  rw [if_neg (by simp)] at hnode
  cases hnode

theorem Housed.dropLast {t : FileTree} (h : Housed t) {loc : Location}
    (hloc : t.node? loc = some .folder) : t.node? loc.dropLast = some .folder := by
  rcases List.eq_nil_or_concat' loc with rfl | ⟨before, name, rfl⟩
  · exact hloc
  · rw [List.dropLast_concat]
    exact h.above _ _ _ hloc

theorem Housed.origin {t : FileTree} (h : Housed t) (p : Path) :
    t.node? (t.origin p) = some .folder := by
  unfold FileTree.origin
  split
  · rfl
  · exact h.working

/-! ## Where walks end -/

/-- What is found stands there, and a vacant name is one in a folder. -/
def Stands (t : FileTree) : Place → Prop
  | .found loc node => t.node? loc = some node
  | .vacant loc => ∃ folder name, loc = folder ++ [name] ∧ t.node? folder = some .folder

theorem walkFrom_stands {t : FileTree} (h : Housed t) {purpose : Purpose}
    {d : Location → List Bytes → Except FileError Place}
    (hd : ∀ loc steps place, t.node? loc = some .folder → d loc steps = .ok place →
      Stands t place)
    (loc : Location) (steps : List Bytes) (place : Place) (hloc : t.node? loc = some .folder)
    (hw : t.walkFrom purpose d loc steps = .ok place) : Stands t place := by
  rw [walkFrom_eq_ok] at hw
  induction hw with
  | stop loc => exact hloc
  | stay _ _ ih => exact ih hloc
  | up _ ih => exact ih (h.dropLast hloc)
  | vacant => exact ⟨_, _, rfl, hloc⟩
  | enter _ hnode _ ih => exact ih hnode
  | file _ hnode => exact hnode
  | link _ hnode => exact hnode
  | follow _ _ _ hnext =>
    refine hd _ _ _ ?_ hnext
    split
    · rfl
    · exact hloc

theorem walk_stands {t : FileTree} (h : Housed t) {purpose : Purpose} (n : Nat) (loc : Location)
    (steps : List Bytes) (place : Place) (hloc : t.node? loc = some .folder)
    (hw : t.walk purpose n loc steps = .ok place) : Stands t place := by
  induction n generalizing loc steps place with
  | zero => exact walkFrom_stands h (fun _ _ _ _ hx => by cases hx) loc steps place hloc hw
  | succ n ih => exact walkFrom_stands h ih loc steps place hloc hw

theorem place_stands {t : FileTree} (h : Housed t) {purpose : Purpose} {p : Path} {place : Place}
    (hp : t.place purpose p = .ok place) : Stands t place := by
  unfold FileTree.place at hp
  split at hp
  · cases hp
  · exact walk_stands h _ _ _ _ (h.origin p) hp

/-! ## Nodes put in folders -/

theorem Housed.put {t : FileTree} (h : Housed t) {folder : Location} {name : Bytes}
    (hfolder : t.node? folder = some .folder) (hold : t.node? (folder ++ [name]) ≠ some .folder)
    (node : Node) : Housed (t.put (folder ++ [name]) node) := by
  have hne : folder ++ [name] ≠ [] := List.append_ne_nil_of_right_ne_nil _ (List.cons_ne_nil _ _)
  have hstays : ∀ loc, t.node? loc = some .folder →
      (t.put (folder ++ [name]) node).node? loc = some .folder := by
    intro loc hloc
    rw [node?_put hne]
    split
    · next he => exact absurd (he ▸ hloc) hold
    · exact hloc
  refine ⟨hstays _ h.working, fun loc x n hn => hstays _ ?_⟩
  rw [node?_put hne] at hn
  by_cases he : loc ++ [x] = folder ++ [name]
  · rw [List.append_inj_left' he rfl]
    exact hfolder
  · rw [if_neg he] at hn
    exact h.above _ _ _ hn

/-- A file put at a `target` stands in a folder. -/
theorem Housed.put_file {t : FileTree} (h : Housed t) {p : Path} {loc : Location}
    {content : Bytes} (ht : t.target p = .ok (loc, content)) (bytes : Bytes) (time : Int) :
    Housed (t.put loc (.file bytes time)) := by
  unfold target at ht
  split at ht
  · cases ht
  · next hp =>
    cases ht
    obtain ⟨folder, name, rfl, hfolder⟩ := place_stands h hp
    have hnone := ((place_arrives (by decide) hp).vacant _ rfl).1
    exact h.put hfolder (by rw [hnone]; exact fun he => by cases he) _
  · next hp =>
    cases ht
    have hnode : t.node? loc = some _ := place_stands h hp
    rcases List.eq_nil_or_concat' loc with rfl | ⟨folder, name, rfl⟩
    · cases hnode
    · exact h.put (h.above _ _ _ hnode) (by rw [hnode]; exact fun he => by cases he) _
  · cases ht

/-- A folder put at a `freePlace` stands in a folder. -/
theorem Housed.put_folder {t : FileTree} (h : Housed t) {p : Path} {loc : Location}
    (hf : t.freePlace p = .ok loc) : Housed (t.put loc .folder) := by
  obtain ⟨before, name, folder, -, -, hwalk, -, rfl, hnone⟩ := freePlace_eq_ok hf
  have hfolder : t.node? folder = some .folder := walk_stands h _ _ _ _ (h.origin p) hwalk
  exact h.put hfolder (by rw [hnone]; exact fun he => by cases he) _

end ClipLedger.FileTree
