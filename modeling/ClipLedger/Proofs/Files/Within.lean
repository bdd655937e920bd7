import ClipLedger.Proofs.Files.Added

/-
  Files and the folders that they are in. A path that ends in a name goes where the path without
  that name goes, and from there to the name (`EndsInName.parent`). So where its folder is there, a
  file can be written at such a path, unless a folder or a link has the name already or the name is
  one that no file can have (`writable_of_parent`).
-/
namespace ClipLedger

namespace Path

/-! ## Last names -/

/-- What stands behind the last slash of `p`. -/
def lastName (p : Path) : Bytes := (p.bytes.splitOn slash).getLast?.getD []

/-- `p` ends in a name: `lastName` is neither empty nor dots. -/
def EndsInName (p : Path) : Prop :=
  p.lastName ≠ [] ∧ p.lastName ≠ [dot] ∧ p.lastName ≠ [dot, dot]

instance (p : Path) : Decidable p.EndsInName := inferInstanceAs (Decidable (_ ∧ _))

/-- `p` can be the path of a file: it has no fault, and its last name is not too long. -/
def Fits (p : Path) : Prop := p.fault? = none ∧ p.lastName.length ≤ nameLimit

theorem splitOn_lastName (p : Path) : ∃ names, p.bytes.splitOn slash = names ++ [p.lastName] := by
  rcases List.eq_nil_or_concat' (p.bytes.splitOn slash) with hnil | ⟨names, name, hsplit⟩
  · exact absurd hnil (List.splitOn_ne_nil slash p.bytes)
  · exact ⟨names, by rw [lastName, hsplit, List.getLast?_concat, Option.getD_some]⟩

theorem EndsInName.bytes_ne_nil {p : Path} (h : p.EndsInName) : p.bytes ≠ [] := by
  intro hempty
  exact h.1 (by rw [lastName, hempty]; rfl)

theorem EndsInName.endsInSlash {p : Path} (h : p.EndsInName) : p.endsInSlash = false := by
  rw [Bool.eq_false_iff]
  intro hslash
  obtain ⟨front, hfront⟩ := List.getLast?_eq_some_iff.1 (eq_of_beq hslash)
  refine h.1 ?_
  rw [lastName, hfront, List.splitOn_append_cons_self, List.splitOn_nil, List.getLast?_concat,
    Option.getD_some]

theorem segments_concat (start : Nat) (names : List Bytes) (name : Bytes) :
    ∃ stop, segments start (names ++ [name]) = segments start names ++ [⟨name, stop⟩] := by
  induction names generalizing start with
  | nil => exact ⟨start + name.length, rfl⟩
  | cons first names ih =>
    obtain ⟨stop, hstop⟩ := ih (start + first.length + 1)
    exact ⟨stop, by rw [List.cons_append, segments, segments, hstop, List.cons_append]⟩

/-- Where there is no component, there are only dots besides empty names. -/
theorem dots_of_no_component {start : Nat} {names : List Bytes}
    (h : (segments start names).filter Component.isReal = []) :
    ∀ x ∈ names.filter (· != []), x = [dot] := by
  intro x hx
  obtain ⟨hmem, hne⟩ := List.mem_filter.1 hx
  rw [← map_name_segments start names] at hmem
  obtain ⟨c, hc, rfl⟩ := List.mem_map.1 hmem
  have hnot := List.filter_eq_nil_iff.1 h c hc
  exact (name_of_not_isReal (Bool.eq_false_iff.2 hnot)).resolve_left (bne_iff_ne.1 hne)

theorem isReal_of_name {name : Bytes} (hne : name ≠ []) (hdot : name ≠ [dot]) (stop : Nat) :
    Component.isReal ⟨name, stop⟩ = true := by
  simp [Component.isReal, hne, hdot]

section Parent

variable {p : Path} {names : List Bytes}

theorem EndsInName.steps_eq (h : p.EndsInName)
    (hnames : p.bytes.splitOn slash = names ++ [p.lastName]) :
    p.steps = names.filter (· != []) ++ [p.lastName] := by
  rw [steps, h.endsInSlash, hnames, List.filter_append,
    List.filter_cons_of_pos (by simpa using h.1)]
  simp

theorem EndsInName.components_eq (h : p.EndsInName)
    (hnames : p.bytes.splitOn slash = names ++ [p.lastName]) :
    ∃ stop, p.components =
      (segments 0 names).filter Component.isReal ++ [⟨p.lastName, stop⟩] := by
  obtain ⟨stop, hsegments⟩ := segments_concat 0 names p.lastName
  refine ⟨stop, ?_⟩
  rw [components, hnames, hsegments, List.filter_append,
    List.filter_cons_of_pos (isReal_of_name h.1 h.2.1 stop)]
  rfl

theorem isAbsolute_origin (p : Path) : p.origin.isAbsolute = p.isAbsolute := by
  unfold origin
  cases p.isAbsolute <;> rfl

theorem steps_origin (p : Path) : p.origin.withoutSlashes.steps = [] := by
  unfold origin
  split <;> decide

/-- What comes behind the component before `lastName`: some `zs` without a component, and
`lastName`. -/
theorem EndsInName.after_component (h : p.EndsInName)
    (hnames : p.bytes.splitOn slash = names ++ [p.lastName]) {xs ys : List Bytes} {name : Bytes}
    {start stop : Nat} (hsplit : p.bytes.splitOn slash = xs ++ name :: ys)
    (hlast : (segments start ys).filter Component.isReal = [⟨p.lastName, stop⟩]) :
    ∃ zs, names = xs ++ name :: zs ∧ ys = zs ++ [p.lastName] ∧
      (segments start zs).filter Component.isReal = [] := by
  rcases List.eq_nil_or_concat' ys with rfl | ⟨zs, z, rfl⟩
  · cases hlast
  have hends : names ++ [p.lastName] = (xs ++ name :: zs) ++ [z] := by
    rw [← hnames, hsplit, List.append_assoc]
    rfl
  obtain ⟨hfront, hz⟩ := List.append_inj' hends rfl
  obtain rfl := List.singleton_inj.1 hz
  obtain ⟨stop', hzs⟩ := segments_concat start zs p.lastName
  rw [hzs, List.filter_append, List.filter_cons_of_pos (isReal_of_name h.1 h.2.1 stop')] at hlast
  exact ⟨zs, hfront, rfl, (List.append_inj' (hlast.trans (List.nil_append _).symm) rfl).1⟩

/-- **The way along a path that ends in a name goes along its parent `q` first, then over `dots`,
and then to `lastName`.** -/
theorem EndsInName.parent (h : p.EndsInName) :
    ∃ q dots, p.parent? = some q ∧ q.isAbsolute = p.isAbsolute ∧
      p.steps = q.withoutSlashes.steps ++ (dots ++ [p.lastName]) ∧ ∀ x ∈ dots, x = [dot] := by
  obtain ⟨names, hnames⟩ := p.splitOn_lastName
  obtain ⟨stop, hcomponents⟩ := h.components_eq hnames
  have hsteps := h.steps_eq hnames
  rcases List.eq_nil_or_concat' ((segments 0 names).filter Component.isReal) with
    hnone | ⟨cs, c, hcs⟩
  · rw [hnone] at hcomponents
    refine ⟨p.origin, names.filter (· != []), ?_, p.isAbsolute_origin, ?_,
      dots_of_no_component hnone⟩
    · rw [parent?, parents_concat hcomponents]
      rfl
    · rw [hsteps, p.steps_origin, List.nil_append]
  · rw [hcs] at hcomponents
    have hc : p.components = cs ++ c :: [⟨p.lastName, stop⟩] := by
      rw [hcomponents, List.append_assoc]
      rfl
    obtain ⟨xs, ys, hsplit, hupTo, -, -, hlast⟩ := splitOn_upTo hc
    have hmem : c ∈ p.components := hc ▸ List.mem_append_right _ List.mem_cons_self
    obtain ⟨zs, hfront, -, hnone⟩ := h.after_component hnames hsplit hlast
    refine ⟨p.upTo c, zs.filter (· != []), ?_, isAbsolute_upTo hmem, ?_,
      dots_of_no_component hnone⟩
    · rw [parent?, parents_upTo hcomponents]
      rfl
    · rw [hsteps, steps_withoutSlashes, hupTo, hfront, ← List.append_assoc, ← List.filter_append,
        List.append_assoc]
      rfl

end Parent

end Path

namespace FileTree

/-! ## Names in folders -/

theorem goesOn_name (purpose : Purpose) {name : Bytes} (hname : name ≠ []) (dots : List Bytes) :
    GoesOn purpose (dots ++ [name]) := by
  intro rest
  rw [← List.append_assoc]
  refine ⟨fun hmade => ?_, fun hlook => ?_⟩
  · have hends := List.append_inj' (hmade.2.trans (List.nil_append _).symm) rfl
    exact hname (List.singleton_inj.1 hends.2)
  · exact List.append_ne_nil_of_right_ne_nil _ (List.cons_ne_nil _ _) hlook.1

/-- Whether `p`, not followed, leads to a link. -/
def isLink (t : FileTree) (p : Path) : Bool :=
  match t.place .look p with
  | .ok (.found _ (.link _)) => true
  | _ => false

/-- The folder that `p` stands for: an empty path stands for the working folder. -/
def standsFor (p : Path) : Path := if p.bytes = [] then .ofString "." else p

/-- The folder that `q` stands for is where walks along `q` lead. -/
theorem walk_of_isFolder {t : FileTree} {p q : Path} (habsolute : q.isAbsolute = p.isAbsolute)
    (h : t.isFolder (standsFor q) = true) :
    ∃ l, t.walk .follow linkLimit (t.origin p) q.withoutSlashes.steps = .ok (.found l .folder) := by
  have horigin : t.origin p = t.origin q := by
    unfold FileTree.origin
    rw [habsolute]
  unfold standsFor at h
  split at h
  · next hempty =>
    obtain rfl : q = ⟨[]⟩ := congrArg Path.mk hempty
    exact ⟨_, rfl⟩
  · obtain ⟨l, hl⟩ := isFolder_iff.1 h
    rw [horigin]
    exact ⟨l, (find_folder_iff.1 hl).2⟩

/-- A way to a name goes there over dots in front of it too. -/
theorem goes_dots {t : FileTree} {purpose : Purpose}
    {d : Location → List Bytes → Except FileError Place} {l : Location} {dots : List Bytes}
    {name : Bytes} {place : Place} (hdots : ∀ x ∈ dots, x = [Path.dot])
    (h : Goes t purpose d l [name] place) : Goes t purpose d l (dots ++ [name]) place := by
  induction dots with
  | nil => exact h
  | cons x dots ih =>
    rw [List.forall_mem_cons] at hdots
    exact .stay (.inr hdots.1) (ih hdots.2)

/-- **If the parent of `p` leads to a folder, a file can be written at `p`**, which `EndsInName` and
`Fits`, unless a folder or a link is there. -/
theorem writable_of_parent {t : FileTree} {p q : Path} (h : p.EndsInName) (hfits : p.Fits)
    (hparent : p.parent? = some q) (hq : t.isFolder (standsFor q) = true)
    (hlink : t.isLink p = false)
    (hfolder : t.isFolder p = false) : t.Writable p := by
  obtain ⟨q', dots, hq', habsolute, hsteps, hdots⟩ := h.parent
  cases hparent.symm.trans hq'
  obtain ⟨l, hl⟩ := walk_of_isFolder habsolute hq
  -- whatever has the name is what the path leads to
  have hplace : ∀ {purpose : Purpose} {place : Place},
      (∀ d, Goes t purpose d l [p.lastName] place) → t.place purpose p = .ok place := by
    intro purpose place hgoes
    unfold FileTree.place
    rw [hfits.1, hsteps]
    exact walk_on (goesOn_name _ h.1 dots) (fun d => goes_dots hdots (hgoes d)) _ _ _ hl
  have hnamed : ∀ purpose, FileTree.Named purpose p.lastName [] := fun purpose =>
    ⟨h.1, h.2.1, h.2.2, hfits.2, fun hm => by cases hm.2⟩
  cases hnode : t.node? (l ++ [p.lastName]) with
  | none => exact ⟨_, _, hplace fun d => .vacant (hnamed _) hnode, rfl⟩
  | some node =>
    cases node with
    | file content modified => exact ⟨_, _, hplace fun d => .file (hnamed _) hnode, rfl⟩
    | folder =>
      have hfound := find_eq_ok.2 (hplace fun d => .enter (hnamed .follow) hnode (.stop _))
      rw [isFolder_iff.2 ⟨_, hfound⟩] at hfolder
      cases hfolder
    | link target =>
      have hlooks := hplace fun d => Goes.link (hnamed .look) hnode rfl
      rw [isLink, hlooks] at hlink
      cases hlink

end FileTree
end ClipLedger
