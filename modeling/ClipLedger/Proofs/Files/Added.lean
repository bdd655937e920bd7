import ClipLedger.Proofs.Files.Parents
import ClipLedger.Proofs.Files.Writable

/-
  Trees with the same nodes, and trees to which something was added. Neither the time nor the order
  in which a tree lists its nodes changes where a path leads (`SameNodes.find`). Making folders and
  writing where nothing was leave all that stood as it stood (`Adds`), so every path that led to
  something leads to it still (`Adds.find`); and a path that leads to something more after a file
  was added leads to that file (`find_put_file`). Where a folder could not be made, there is none
  (`makeFolders_eq_error`).
-/
namespace ClipLedger

namespace Path

/-- The bytes of a path begin with those of its parents. -/
theorem parents_prefix {p q : Path} (h : q ∈ p.parents) : q.bytes <+: p.bytes := by
  rcases List.eq_nil_or_concat' p.components with hnil | ⟨cs, c, hcomponents⟩
  · rw [parents, hnil] at h
    exact absurd h List.not_mem_nil
  rw [parents_concat hcomponents, List.mem_append, List.mem_map, List.mem_singleton] at h
  rcases h with ⟨c, -, rfl⟩ | rfl
  · exact List.take_prefix _ _
  · unfold origin
    split
    · next habsolute =>
      unfold isAbsolute at habsolute
      obtain ⟨rest, hbytes⟩ := List.head?_eq_some_iff.1 (eq_of_beq habsolute)
      exact ⟨rest, hbytes.symm⟩
    · exact List.nil_prefix

/-- If `p` has no fault, neither has a path that `p` begins with. -/
theorem fault?_prefix {p q : Path} (h : q.bytes <+: p.bytes) (hne : q.bytes ≠ [])
    (hp : p.fault? = none) : q.fault? = none := by
  unfold fault? at hp ⊢
  split at hp
  · cases hp
  next hnul =>
  split at hp
  · cases hp
  split at hp
  · cases hp
  next hlong =>
  have hq : q.bytes.contains 0 = false := by
    rw [Bool.eq_false_iff]
    intro hmem
    exact hnul (List.contains_iff_mem.2 (h.subset (List.contains_iff_mem.1 hmem)))
  have hlength := h.length_le
  rw [if_neg (by rw [hq]; decide), if_neg hne, if_neg (by omega)]

end Path

namespace FileTree

/-! ## The same nodes -/

/-- The trees have the same nodes, in whatever order each lists them, and at whatever time. -/
structure SameNodes (t t' : FileTree) : Prop where
  folder : t'.workingFolder = t.workingFolder
  nodes : ∀ loc, t'.node? loc = t.node? loc

theorem SameNodes.walk {t t' : FileTree} (h : SameNodes t t') (purpose : Purpose) (n : Nat)
    (loc : Location) (steps : List Bytes) :
    t'.walk purpose n loc steps = t.walk purpose n loc steps := by
  have hfrom : ∀ {d d' : Location → List Bytes → Except FileError Place},
      (∀ loc steps, d' loc steps = d loc steps) → ∀ loc steps,
      t'.walkFrom purpose d' loc steps = t.walkFrom purpose d loc steps := by
    intro d d' hd loc steps
    induction steps generalizing loc with
    | nil => rfl
    | cons name rest ih => simp only [FileTree.walkFrom, ih, h.nodes, hd]
  induction n generalizing loc steps with
  | zero => exact hfrom (fun _ _ => rfl) loc steps
  | succ n ih => exact hfrom ih loc steps

/-- Every path leads to the same in both trees. -/
theorem SameNodes.find {t t' : FileTree} (h : SameNodes t t') (p : Path) :
    t'.find p = t.find p := by
  unfold FileTree.find FileTree.place origin
  rw [h.walk, h.folder]

/-- `t` with its clock at `time`. -/
def atTime (t : FileTree) (time : Int) : FileTree := { t with clock := time }

theorem sameNodes_atTime (t : FileTree) (time : Int) : SameNodes t (t.atTime time) :=
  ⟨rfl, fun _ => rfl⟩

theorem walk_atTime (t : FileTree) (time : Int) (purpose : Purpose) (n : Nat) (loc : Location)
    (steps : List Bytes) :
    (t.atTime time).walk purpose n loc steps = t.walk purpose n loc steps :=
  (t.sameNodes_atTime time).walk purpose n loc steps

theorem find_atTime (t : FileTree) (time : Int) (p : Path) :
    (t.atTime time).find p = t.find p := (t.sameNodes_atTime time).find p

theorem read_atTime (t : FileTree) (time : Int) (p : Path) :
    (t.atTime time).read p = t.read p := by
  unfold FileTree.read
  rw [find_atTime]

/-! ## Trees with more in them -/

/-- Whatever stands somewhere in `t` stands there in `t'` as it is. -/
structure Adds (t t' : FileTree) : Prop where
  grows : Grows t t'
  nodes : ∀ loc node, t.node? loc = some node → t'.node? loc = some node

theorem Adds.refl (t : FileTree) : Adds t t := ⟨.refl t, fun _ _ h => h⟩

theorem Adds.trans {t t' t'' : FileTree} (h : Adds t t') (h' : Adds t' t'') : Adds t t'' :=
  ⟨h.grows.trans h'.grows, fun loc node hnode => h'.nodes loc node (h.nodes loc node hnode)⟩

/-- Putting a node where nothing was adds it. -/
theorem adds_put {t : FileTree} {loc : Location} {node : Node} (hnone : t.node? loc = none)
    (hne : loc ≠ []) (h : Grows t (t.put loc node)) : Adds t (t.put loc node) := by
  refine ⟨h, fun l n hn => ?_⟩
  rw [node?_put hne]
  split
  · next hl =>
    rw [hl, hnone] at hn
    cases hn
  · exact hn

/-- Writing a file where nothing was adds it. -/
theorem adds_put_file {t : FileTree} {p : Path} {loc : Location} {content : Bytes}
    (h : t.target p = .ok (loc, content)) (hnone : t.node? loc = none) (bytes : Bytes)
    (time : Int) : Adds t (t.put loc (.file bytes time)) :=
  adds_put hnone (target_spec h).2.2.1 (grows_put_file h bytes time)

theorem makeFolder_adds (t : FileTree) (p : Path) : Adds t (t.makeFolder p).2 := by
  have hgrows := makeFolder_grows t p
  unfold makeFolder at hgrows ⊢
  split
  · exact .refl t
  · next h =>
    rw [h] at hgrows
    exact adds_put (freePlace_spec h).1 (freePlace_spec h).2 hgrows

theorem makeFolders_adds (t : FileTree) (p : Path) : Adds t (t.makeFolders p).2 :=
  makeAll_rel Adds.refl Adds.trans (fun t q _ => makeFolder_adds t q) t

/-- **What a path leads to in `t`, it leads to in `t'`.** -/
theorem Adds.find {t t' : FileTree} (h : Adds t t') {p : Path} {l : Location} {node : Node}
    (hf : t.find p = .ok (l, node)) : t'.find p = .ok (l, node) := by
  obtain ⟨node', hf', hbecame⟩ := h.grows.find hf
  have hstands := (place_arrives (by decide) (find_eq_ok.1 hf)).found _ _ rfl
  have hstands' := (place_arrives (by decide) (find_eq_ok.1 hf')).found _ _ rfl
  rcases hstands with rfl | ⟨hnode, -⟩
  · cases hbecame
    exact hf'
  rcases hstands' with rfl | ⟨hnode', -⟩
  · cases hbecame
    exact hf'
  · rw [h.nodes _ _ hnode] at hnode'
    cases hnode'
    exact hf'

theorem Adds.read {t t' : FileTree} (h : Adds t t') {p : Path} {bytes : Bytes}
    (hr : t.read p = .ok bytes) : t'.read p = .ok bytes := by
  obtain ⟨l, modified, hl⟩ := read_eq_ok.1 hr
  exact read_eq_ok.2 ⟨l, modified, h.find hl⟩

/-- A tree is `Housed` if each of its nodes stands in a folder. -/
theorem housed_of_nodes {t : FileTree} (hworking : t.node? t.workingFolder = some .folder)
    (hnodes : ∀ e ∈ t.nodes, t.node? e.1.dropLast = some .folder) : Housed t := by
  refine ⟨hworking, fun loc name node hnode => ?_⟩
  unfold node? at hnode
  rw [if_neg (List.append_ne_nil_of_right_ne_nil _ (List.cons_ne_nil _ _))] at hnode
  obtain ⟨l₁, l₂, hsplit, -⟩ := List.lookup_eq_some_iff.1 hnode
  have hfolder := hnodes (loc ++ [name], node)
    (hsplit ▸ List.mem_append_right _ List.mem_cons_self)
  rwa [List.dropLast_concat] at hfolder

/-! ## One file more -/

/-- A way that does not end at the new file is there without it. -/
theorem walkFrom_put_file {t : FileTree} {loc : Location} {bytes : Bytes} {time : Int}
    (hne : loc ≠ []) {purpose : Purpose} {d d' : Location → List Bytes → Except FileError Place}
    {l : Location} {node : Node} (hl : l ≠ loc)
    (hd : ∀ l₁ steps, d' l₁ steps = .ok (.found l node) → d l₁ steps = .ok (.found l node))
    (l₀ : Location) (steps : List Bytes)
    (hw : (t.put loc (.file bytes time)).walkFrom purpose d' l₀ steps = .ok (.found l node)) :
    t.walkFrom purpose d l₀ steps = .ok (.found l node) := by
  rw [walkFrom_eq_ok] at hw ⊢
  generalize hplace : Place.found l node = place at hw
  -- what stands anywhere else stands there without the new file
  have hold : ∀ {l₁ n}, (t.put loc (.file bytes time)).node? l₁ = some n →
      (∀ content modified, n = .file content modified → l₁ ≠ loc) → t.node? l₁ = some n := by
    intro l₁ n hnode hother
    rw [node?_put hne] at hnode
    split at hnode
    · next h =>
      cases hnode
      exact absurd h (hother _ _ rfl)
    · exact hnode
  induction hw with
  | stop l₁ =>
    cases hplace
    exact .stop l
  | stay hdot _ ih => exact .stay hdot (ih hplace)
  | up _ ih => exact .up (ih hplace)
  | vacant => cases hplace
  | enter h hnode _ ih => exact .enter h (hold hnode (fun _ _ h => by cases h)) (ih hplace)
  | file h hnode =>
    cases hplace
    exact .file h (hold hnode fun _ _ _ => hl)
  | link h hnode hlook =>
    cases hplace
    exact .link h (hold hnode (fun _ _ h => by cases h)) hlook
  | follow h hnode hon hnext =>
    subst hplace
    exact .follow h (hold hnode (fun _ _ h => by cases h)) hon (hd _ _ hnext)

/-- **A path that leads somewhere once a file was put at `loc` leads to that file or led there
before.** -/
theorem find_put_file {t : FileTree} {loc : Location} {bytes : Bytes} {time : Int}
    (hne : loc ≠ []) {p : Path} {l : Location} {node : Node} (hl : l ≠ loc)
    (h : (t.put loc (.file bytes time)).find p = .ok (l, node)) : t.find p = .ok (l, node) := by
  have hwalk : ∀ n l₀ steps,
      (t.put loc (.file bytes time)).walk .follow n l₀ steps = .ok (.found l node) →
      t.walk .follow n l₀ steps = .ok (.found l node) := by
    intro n
    induction n with
    | zero => exact fun l₀ steps => walkFrom_put_file hne hl (fun _ _ h => by cases h) l₀ steps
    | succ n ih => exact fun l₀ steps => walkFrom_put_file hne hl ih l₀ steps
  rw [find_eq_ok] at h ⊢
  unfold FileTree.place at h ⊢
  split at h
  · cases h
  · exact hwalk _ _ _ h

/-- A file that was put at the `target` of `p` is where `p` leads. -/
theorem find_of_target {t : FileTree} {p : Path} {loc : Location} {content : Bytes}
    (h : t.target p = .ok (loc, content)) (bytes : Bytes) (time : Int) :
    (t.put loc (.file bytes time)).find p = .ok (loc, .file bytes time) := by
  have hgrows := grows_put_file h bytes time
  obtain ⟨haim, -, hne, -⟩ := target_spec h
  have hnode : (t.put loc (.file bytes time)).node? loc = some (.file bytes time) := by
    rw [node?_put hne, if_pos rfl]
  have hclear : ∀ l, t.aim p = some l → (t.put loc (.file bytes time)).node? l ≠ some .folder := by
    intro l hl
    rw [haim] at hl
    cases hl
    rw [hnode]
    exact fun h => by cases h
  have hwritable := hgrows.writable (writable_iff.2 ⟨loc, content, h⟩) hclear
  obtain ⟨l, place, hplace, htakes⟩ := hwritable
  have harrives := place_arrives (by decide) hplace
  have hl : place.loc = loc := by
    have hloc := harrives.loc
    rw [hgrows.links.aim, haim] at hloc
    exact (Option.some.inj hloc).symm
  refine find_eq_ok.2 (place_follow ?_)
  cases place with
  | vacant l' =>
    obtain rfl : l' = loc := hl
    rw [(harrives.vacant _ rfl).1] at hnode
    cases hnode
  | found l' node =>
    obtain rfl : l' = loc := hl
    rcases harrives.found _ _ rfl with rfl | ⟨hfound, -⟩
    · exact htakes.elim
    · rw [hfound] at hnode
      cases hnode
      exact hplace

/-! ## Folders that cannot be made -/

/-- If `p` leads to a folder, so does every path that contains it. -/
theorem isFolder_of_under {t : FileTree} {p q : Path} (hbegins : q.bytes <+: p.bytes)
    (hne : q.bytes ≠ []) (h : p.Under q) (hp : t.isFolder p = true) : t.isFolder q = true := by
  obtain ⟨l, hl⟩ := isFolder_iff.1 hp
  obtain ⟨hfault, hwalk⟩ := find_folder_iff.1 hl
  obtain ⟨dots, name, tail, hsteps, -⟩ := h.steps
  rw [hsteps, h.origin_eq t] at hwalk
  have hmore : dots ++ name :: tail ≠ [] :=
    List.append_ne_nil_of_right_ne_nil _ (List.cons_ne_nil _ _)
  obtain ⟨l', n, hfirst, -⟩ := walk_append _ _ _ hmore hwalk
  exact isFolder_iff.2 ⟨l', find_folder_iff.2 ⟨Path.fault?_prefix hbegins hne hfault, hfirst⟩⟩

/-- Where `makeAll` fails, `p` leads to no folder, or what contains it is missing and could not be
made. -/
theorem makeAll_eq_error {t t' : FileTree} {p : Path} {ps : List Path} {e : FileError}
    (h : makeAll t (p :: ps) = (.error e, t')) :
    t'.isFolder p = false ∨
      t.freePlace p = .error .notFound ∧ makeAll t ps = (.error e, t') := by
  have hnone : ∀ {t : FileTree} {e' : FileError}, t.orFolder p e' = (.error e, t') →
      t'.isFolder p = false := by
    intro t e' horFolder
    obtain ⟨rfl, hnot⟩ := orFolder_eq_error horFolder
    exact hnot
  unfold makeAll at h
  split at h
  · cases h
  split at h
  · cases h
  · next t₁ hmake =>
    obtain ⟨hmissing, rfl⟩ := makeFolder_eq_error hmake
    split at h
    · next hparents =>
      cases h
      exact .inr ⟨hmissing, hparents⟩
    · split at h
      · cases h
      · exact .inl (hnone h)
  · exact .inl (hnone h)

/-- **Where `makeFolders` fails, the path leads to no folder.** -/
theorem makeFolders_eq_error {t t' : FileTree} {p : Path} {e : FileError}
    (h : t.makeFolders p = (.error e, t')) : t'.isFolder p = false := by
  unfold makeFolders at h
  generalize hps : p.parents = ps at h
  induction ps generalizing p with
  | nil =>
    rcases makeAll_eq_error h with hnone | ⟨hmissing, hlast⟩
    · exact hnone
    · cases hlast
      exact not_isFolder_of_notFound hmissing
  | cons q rest ih =>
    have hbegins : q.bytes <+: p.bytes := Path.parents_prefix (hps ▸ List.mem_cons_self)
    obtain ⟨rfl, hunder⟩ := Path.parents_cons hps
    rcases makeAll_eq_error h with hnone | ⟨-, hparents⟩
    · exact hnone
    have hne : q.bytes ≠ [] := by
      intro hempty
      unfold makeAll at hparents
      rw [if_pos hempty] at hparents
      cases hparents
    rw [Bool.eq_false_iff]
    intro hfolder
    have hq := isFolder_of_under hbegins hne (hunder.resolve_left hne) hfolder
    rw [ih rfl hparents] at hq
    cases hq

end FileTree
end ClipLedger
