import ClipLedger.Proofs.Files.Content
import Mathlib.Data.Option.Basic

/-
  Trees that differ in nothing but what files hold. Every path leads to the same place in both, or
  to the same error (`Alike.place`); so an operation on both succeeds in both or fails in both, and
  leaves them alike if what it puts there is related (`Alike.update`).
-/
namespace ClipLedger

/-- Two outcomes agree: they are the same error, or values that `R` relates. -/
inductive Agree {ε α : Type} (R : α → α → Prop) : Except ε α → Except ε α → Prop
  | error (e : ε) : Agree R (.error e) (.error e)
  | ok {a b : α} (h : R a b) : Agree R (.ok a) (.ok b)

/-- Two nodes are the same, or files whose bytes `R` relates, whenever they were written. -/
inductive Node.Alike (R : Bytes → Bytes → Prop) : Node → Node → Prop
  | folder : Alike R .folder .folder
  | file {content content' : Bytes} (h : R content content') (modified modified' : Int) :
      Alike R (.file content modified) (.file content' modified')
  | link (target : Path) : Alike R (.link target) (.link target)

/-- Two places are the same, with nodes that are alike. -/
inductive Place.Alike (R : Bytes → Bytes → Prop) : Place → Place → Prop
  | found (loc : Location) {node node' : Node} (h : node.Alike R node') :
      Alike R (.found loc node) (.found loc node')
  | vacant (loc : Location) : Alike R (.vacant loc) (.vacant loc)

namespace FileTree

variable {R : Bytes → Bytes → Prop} {t t' : FileTree}

/-- Two trees have the same nodes, but for what files hold and when they were written. -/
structure Alike (R : Bytes → Bytes → Prop) (t t' : FileTree) : Prop where
  folder : t'.workingFolder = t.workingFolder
  nodes : ∀ loc, Option.Rel (Node.Alike R) (t.node? loc) (t'.node? loc)

theorem Alike.refl (hrefl : ∀ bytes, R bytes bytes) (t : FileTree) : Alike R t t := by
  refine ⟨rfl, fun loc => ?_⟩
  cases t.node? loc with
  | none => exact .none
  | some node =>
    cases node with
    | folder => exact .some .folder
    | file content modified => exact .some (.file (hrefl content) modified modified)
    | link target => exact .some (.link target)

/-! ## Paths -/

theorem Alike.walkFrom (h : Alike R t t') {purpose : Purpose}
    {d d' : Location → List Bytes → Except FileError Place}
    (hd : ∀ loc steps, Agree (Place.Alike R) (d loc steps) (d' loc steps))
    (loc : Location) (steps : List Bytes) :
    Agree (Place.Alike R) (t.walkFrom purpose d loc steps) (t'.walkFrom purpose d' loc steps) := by
  induction steps generalizing loc with
  | nil => exact .ok (.found loc .folder)
  | cons name rest ih =>
    rw [FileTree.walkFrom, FileTree.walkFrom]
    split
    · exact ih loc
    split
    · exact ih loc.dropLast
    split
    · exact .error _
    split
    · exact .error _
    dsimp only
    have hnode := h.nodes (loc ++ [name])
    generalize t.node? (loc ++ [name]) = node at hnode ⊢
    generalize t'.node? (loc ++ [name]) = node' at hnode ⊢
    cases hnode with
    | none =>
      dsimp only
      split
      · exact .ok (.vacant _)
      · exact .error _
    | some hnode =>
      cases hnode with
      | folder => exact ih (loc ++ [name])
      | file hbytes modified modified' =>
        dsimp only
        split
        · exact .ok (.found _ (.file hbytes modified modified'))
        · exact .error _
      | link target =>
        dsimp only
        split
        · exact .ok (.found _ (.link target))
        · exact hd _ _

/-- **Every path leads to the same place in trees that are alike.** -/
theorem Alike.place (h : Alike R t t') (purpose : Purpose) (p : Path) :
    Agree (Place.Alike R) (t.place purpose p) (t'.place purpose p) := by
  have hwalk : ∀ n loc steps,
      Agree (Place.Alike R) (t.walk purpose n loc steps) (t'.walk purpose n loc steps) := by
    intro n
    induction n with
    | zero => exact h.walkFrom fun _ _ => .error _
    | succ n ih => exact h.walkFrom ih
  unfold FileTree.place origin
  rw [h.folder]
  split
  · exact .error _
  · exact hwalk _ _ _

theorem Alike.target (h : Alike R t t') (hempty : R [] []) (p : Path) :
    Agree (fun a b : Location × Bytes => a.1 = b.1 ∧ R a.2 b.2) (t.target p) (t'.target p) := by
  have hplace := h.place .make p
  unfold FileTree.target
  generalize t.place .make p = place at hplace ⊢
  generalize t'.place .make p = place' at hplace ⊢
  cases hplace with
  | error e => exact .error e
  | ok hplace =>
    cases hplace with
    | vacant loc => exact .ok ⟨rfl, hempty⟩
    | found loc hnode =>
      cases hnode with
      | folder => exact .error _
      | file hbytes => exact .ok ⟨rfl, hbytes⟩
      | link target => exact .error _

/-! ## Contents -/

theorem Alike.sameLinks (h : Alike R t t') : SameLinks t t' := by
  refine ⟨h.folder, fun loc target => ?_⟩
  have hnode := h.nodes loc
  generalize t.node? loc = node at hnode ⊢
  generalize t'.node? loc = node' at hnode ⊢
  cases hnode with
  | none => exact Iff.rfl
  | some hnode => cases hnode <;> simp

theorem Alike.contentOf (h : Alike R t t') (hempty : R [] []) (p : Path) :
    R (t.contentOf p) (t'.contentOf p) := by
  unfold FileTree.contentOf
  rw [h.sameLinks.aim]
  cases t.aim p with
  | none => exact hempty
  | some loc =>
    dsimp only
    unfold bytesAt
    have hnode := h.nodes loc
    generalize t.node? loc = node at hnode ⊢
    generalize t'.node? loc = node' at hnode ⊢
    cases hnode with
    | none => exact hempty
    | some hnode =>
      cases hnode with
      | folder => exact hempty
      | file hbytes => exact hbytes
      | link target => exact hempty

/-! ## Operations -/

theorem Alike.put (h : Alike R t t') {loc : Location} (hne : loc ≠ []) {node node' : Node}
    (hnode : node.Alike R node') : Alike R (t.put loc node) (t'.put loc node') := by
  refine ⟨h.folder, fun l => ?_⟩
  rw [node?_put hne, node?_put hne]
  split
  · exact .some hnode
  · exact h.nodes l

/-- An update that relates what the file at `p` holds in both trees succeeds in both, or in neither
for the same reason. -/
theorem Alike.update (h : Alike R t t') (hempty : R [] []) (p : Path) {f f' : Bytes → Bytes}
    (hf : ∀ content content', R content content' → R (f content) (f' content')) :
    (t.update p f).1 = (t'.update p f').1 ∧ Alike R (t.update p f).2 (t'.update p f').2 := by
  have htarget := h.target hempty p
  unfold FileTree.update
  generalize hp : t.target p = place at htarget ⊢
  generalize t'.target p = place' at htarget ⊢
  cases htarget with
  | error e => exact ⟨rfl, h⟩
  | @ok a b hplace =>
    obtain ⟨loc, content⟩ := a
    obtain ⟨loc', content'⟩ := b
    obtain ⟨rfl, hcontent⟩ : loc = loc' ∧ _ := hplace
    exact ⟨rfl, h.put (target_spec hp).2.2.1 (.file (hf _ _ hcontent) _ _)⟩

end FileTree
end ClipLedger
