import ClipLedger.Proofs.Files.Growth
import ClipLedger.Proofs.Files.Parents

/-
  Folders that are made are new. Where everything stands in a folder and a path has no double dots
  in it behind what is there (`Clear`), making the path a folder either finds one or makes an empty
  one (`makeFolders_cases`). Where there are some it is another matter: in `a/..` it is the folder
  `a` that is made, and the path then leads to a folder that was there all the time.
-/
namespace ClipLedger

namespace Path

/-- No step of `p` leads up. -/
def IsPlain (p : Path) : Prop := [dot, dot] ∉ p.withoutSlashes.steps

instance (p : Path) : Decidable p.IsPlain := inferInstanceAs (Decidable (_ ∉ _))

end Path

namespace FileTree

/-- Every step of `p` that leads up starts at a folder that is there. -/
def Clear (t : FileTree) (p : Path) : Prop :=
  ∀ front rest, p.withoutSlashes.steps = front ++ [Path.dot, Path.dot] :: rest →
    ∃ loc, t.walk .follow linkLimit (t.origin p) front = .ok (.found loc .folder)

theorem clear_of_isPlain (t : FileTree) {p : Path} (h : p.IsPlain) : t.Clear p := by
  intro front rest hsteps
  refine absurd ?_ h
  rw [hsteps]
  exact List.mem_append_right _ List.mem_cons_self

theorem Clear.under {t : FileTree} {p q : Path} (h : t.Clear p) (hu : p.Under q) : t.Clear q := by
  obtain ⟨dots, name, tail, hsteps, -⟩ := hu.steps
  intro front rest hq
  rw [← hu.origin_eq t]
  refine h front (rest ++ (dots ++ name :: tail)) ?_
  rw [hsteps, hq, List.append_assoc, List.cons_append]

theorem Clear.of_grows {t t' : FileTree} {p : Path} (h : t.Clear p) (hgrows : Grows t t') :
    t'.Clear p := by
  intro front rest hsteps
  obtain ⟨loc, hloc⟩ := h front rest hsteps
  obtain ⟨node, hnode, hbecame⟩ := hgrows.walk _ _ _ hloc
  rw [hgrows.origin]
  cases hbecame
  exact ⟨loc, hnode⟩

/-- In a path that is `Clear`, no step up comes right behind a path that leads to no folder. -/
theorem Clear.name_ne {t : FileTree} {p q : Path} (h : t.Clear p) (hfault : q.fault? = none)
    (hq : t.isFolder q = false) (hu : p.Under q) {dots tail : List Bytes} {name : Bytes}
    (hsteps : p.withoutSlashes.steps = q.withoutSlashes.steps ++ (dots ++ name :: tail)) :
    name ≠ [Path.dot, Path.dot] := by
  rintro rfl
  obtain ⟨loc, hloc⟩ := h (q.withoutSlashes.steps ++ dots) tail (by rw [hsteps, List.append_assoc])
  obtain ⟨l, hl⟩ : ∃ l, t.walk .follow linkLimit (t.origin p) q.withoutSlashes.steps =
      .ok (.found l .folder) := by
    by_cases hdots : dots = []
    · rw [hdots, List.append_nil] at hloc
      exact ⟨loc, hloc⟩
    · obtain ⟨l, -, hl, -⟩ := walk_append _ _ _ hdots hloc
      exact ⟨l, hl⟩
  rw [hu.origin_eq t] at hl
  rw [isFolder_iff.2 ⟨l, find_folder_iff.2 ⟨hfault, hl⟩⟩] at hq
  cases hq

/-! ## Folders with nothing in them -/

/-- `p` leads to a folder, in which nothing stands. -/
def Bare (t : FileTree) (p : Path) : Prop :=
  ∃ loc, t.find p = .ok (loc, .folder) ∧ ∀ name, t.node? (loc ++ [name]) = none

theorem bare_of_freePlace {t : FileTree} (h : Housed t) {p : Path} {loc : Location}
    (hf : t.freePlace p = .ok loc) : (t.put loc .folder).Bare p := by
  obtain ⟨hnone, hne⟩ := freePlace_spec hf
  refine ⟨loc, find_of_freePlace hf, fun name => ?_⟩
  rw [node?_put hne, if_neg (by simp)]
  cases hnode : t.node? (loc ++ [name]) with
  | none => rfl
  | some node =>
    have hloc := h.above _ _ _ hnode
    rw [hnone] at hloc
    cases hloc

/-- A walk passes over dots without a change. -/
theorem walk_dots (t : FileTree) (purpose : Purpose) (n : Nat) (loc : Location)
    {dots : List Bytes} (hdots : ∀ x ∈ dots, x = [Path.dot]) (rest : List Bytes) :
    t.walk purpose n loc (dots ++ rest) = t.walk purpose n loc rest := by
  have hfrom : ∀ d, t.walkFrom purpose d loc (dots ++ rest) = t.walkFrom purpose d loc rest := by
    intro d
    induction dots with
    | nil => rfl
    | cons x dots ih =>
      rw [List.forall_mem_cons] at hdots
      rw [List.cons_append, walkFrom, if_pos (.inr hdots.1), ih hdots.2]
  cases n with
  | zero => exact hfrom _
  | succ n => exact hfrom _

/-- No walk finds anything below a bare folder. -/
theorem Bare.walk_ne {t : FileTree} {q : Path} (hq : t.Bare q) {dots tail : List Bytes}
    {name : Bytes} (hdots : ∀ x ∈ dots, x = [Path.dot])
    (hname : name ≠ [] ∧ name ≠ [Path.dot] ∧ name ≠ [Path.dot, Path.dot]) (l : Location)
    (node : Node) :
    t.walk .follow linkLimit (t.origin q) (q.withoutSlashes.steps ++ (dots ++ name :: tail)) ≠
      .ok (.found l node) := by
  intro hwalk
  obtain ⟨loc, hloc, hnone⟩ := hq
  have hne : dots ++ name :: tail ≠ [] :=
    List.append_ne_nil_of_right_ne_nil _ (List.cons_ne_nil _ _)
  obtain ⟨l', n, hfirst, hrest⟩ := walk_append _ _ _ hne hwalk
  have hfolder := (find_folder_iff.1 hloc).2
  rw [hfolder] at hfirst
  cases hfirst
  rw [walk_dots t _ _ _ hdots] at hrest
  exact walk_cons_node hrest hname (hnone name)

/-- A folder that was made bare contains no folder: `p` behind it leads to none. -/
theorem Bare.not_isFolder {t t' : FileTree} {p q : Path} (hq : t'.Bare q) (hu : p.Under q)
    (hp : t.Clear p) (hnew : t.isFolder q = false) : t'.isFolder p = false := by
  rw [Bool.eq_false_iff]
  intro hfolder
  obtain ⟨l, hl⟩ := isFolder_iff.1 hfolder
  obtain ⟨dots, name, tail, hsteps, hdots, hname⟩ := hu.steps
  have hfault : q.fault? = none := by
    obtain ⟨loc, hloc, -⟩ := hq
    exact (find_folder_iff.1 hloc).1
  have hon := hp.name_ne hfault hnew hu hsteps
  have hwalk := (find_folder_iff.1 hl).2
  rw [hsteps, hu.origin_eq t'] at hwalk
  exact hq.walk_ne hdots ⟨hname.1, hname.2, hon⟩ l .folder hwalk

/-! ## Folders that are made -/

theorem makeFolder_bare {t t' : FileTree} (h : Housed t) {p : Path}
    (hmade : t.makeFolder p = (.ok (), t')) : t.isFolder p = false ∧ t'.Bare p := by
  obtain ⟨loc, hfree, rfl⟩ := makeFolder_eq_ok hmade
  exact ⟨not_isFolder_of_ok hfree, bare_of_freePlace h hfree⟩

/-- Where `makeAll` succeeds, `p` was a folder before, or was made, or was made once the paths that
contain it were. -/
theorem makeAll_eq_ok {t t' : FileTree} {p : Path} {ps : List Path}
    (h : makeAll t (p :: ps) = (.ok (), t')) :
    t' = t ∧ (p.bytes = [] ∨ t.isFolder p = true) ∨ t.makeFolder p = (.ok (), t') ∨
      t.freePlace p = .error .notFound ∧ ∃ t₁, makeAll t ps = (.ok (), t₁) ∧
        (t₁.makeFolder p = (.ok (), t') ∨ t₁.isFolder p = true ∧ t' = t₁) := by
  unfold makeAll at h
  split at h
  · next hempty =>
    cases h
    exact .inl ⟨rfl, .inl hempty⟩
  split at h
  · next hmade =>
    cases h
    exact .inr (.inl hmade)
  · next hfails =>
    obtain ⟨hmissing, rfl⟩ := makeFolder_eq_error hfails
    split at h
    · cases h
    next t₁ hparents =>
    refine .inr (.inr ⟨hmissing, t₁, hparents, ?_⟩)
    split at h
    · next hmade =>
      cases h
      exact .inl hmade
    · next hfails =>
      obtain ⟨-, rfl⟩ := makeFolder_eq_error hfails
      exact .inr (orFolder_eq_ok h).symm
  · next hfails =>
    obtain ⟨-, rfl⟩ := makeFolder_eq_error hfails
    obtain ⟨rfl, hthere⟩ := orFolder_eq_ok h
    exact .inl ⟨rfl, .inr hthere⟩

/-- What is made for a folder inside `q` leaves the tree as it is, or makes `q` a bare folder. -/
theorem bare_of_makeAll {t t₁ : FileTree} {p q : Path} (hunder : q.bytes = [] ∨ p.Under q)
    (hparents : makeAll t (q :: q.parents) = (.ok (), t₁))
    (hq : p.Under q → t₁ = t ∧ (q.bytes = [] ∨ t.isFolder q = true) ∨
      t.isFolder q = false ∧ t₁.Bare q) :
    t₁ = t ∨ p.Under q ∧ t.isFolder q = false ∧ t₁.Bare q := by
  rcases hunder with hempty | hunder
  · unfold makeAll at hparents
    rw [if_pos hempty] at hparents
    cases hparents
    exact .inl rfl
  · exact (hq hunder).imp And.left fun hbare => ⟨hunder, hbare⟩

/-- **`makeFolders` that succeeds changes nothing where the folder was there, and else makes a bare
one.** The tree is `Housed` and the path `Clear`. -/
theorem makeFolders_cases {t t' : FileTree} (h : Housed t) {p : Path} (hp : t.Clear p)
    (hmade : t.makeFolders p = (.ok (), t')) :
    t' = t ∧ (p.bytes = [] ∨ t.isFolder p = true) ∨ t.isFolder p = false ∧ t'.Bare p := by
  unfold makeFolders at hmade
  generalize hps : p.parents = ps at hmade
  induction ps generalizing p t' with
  | nil =>
    rcases makeAll_eq_ok hmade with hthere | hnew | ⟨-, t₁, hparents, -⟩
    · exact .inl hthere
    · exact .inr (makeFolder_bare h hnew)
    · cases hparents
  | cons q rest ih =>
    obtain ⟨rfl, hunder⟩ := Path.parents_cons hps
    rcases makeAll_eq_ok hmade with hthere | hnew | ⟨hmissing, t₁, hparents, hlast⟩
    · exact .inl hthere
    · exact .inr (makeFolder_bare h hnew)
    -- the folder was missing, and so it is when what contains it is there
    have hnot := not_isFolder_of_notFound hmissing
    have hstill : t₁.isFolder p = false := by
      rcases bare_of_makeAll hunder hparents fun hu => ih (hp.under hu) rfl hparents with
        rfl | ⟨hu, hnone, hbare⟩
      · exact hnot
      · exact hbare.not_isFolder hu hp hnone
    rcases hlast with hnew | ⟨hfolder, -⟩
    · have hgrows : Grows t t₁ := snd_of_eq hparents (makeFolders_grows t q)
      exact .inr ⟨hnot, (makeFolder_bare (hgrows.housed h) hnew).2⟩
    · rw [hstill] at hfolder
      cases hfolder

end FileTree
end ClipLedger
