import ClipLedger.Proofs.Files.Content
import Mathlib.Data.List.Basic
import Mathlib.Data.List.TakeWhile

/-
  Ways through some names and on. Such a way comes to a folder first (`walk_append`), so a folder
  that is there is not made again (`makeFolders_of_isFolder`); and a file can be made only where
  the same path can be followed (`place_follow`).
-/
namespace ClipLedger

namespace FileTree

/-! ## What is found -/

theorem find_eq_ok {t : FileTree} {p : Path} {l : Location} {node : Node} :
    t.find p = .ok (l, node) ↔ t.place .follow p = .ok (.found l node) := by
  unfold find
  split <;> simp_all

theorem isFolder_iff {t : FileTree} {p : Path} :
    t.isFolder p = true ↔ ∃ l, t.find p = .ok (l, .folder) := by
  unfold isFolder
  split <;> simp_all

theorem read_eq_ok {t : FileTree} {p : Path} {bytes : Bytes} :
    t.read p = .ok bytes ↔ ∃ l modified, t.find p = .ok (l, .file bytes modified) := by
  unfold read
  split <;> simp_all

/-! ## Folders that are there -/

/-- A walk along `xs ++ ys` comes to a folder along `xs`, and goes on along `ys` from there. -/
theorem walkFrom_append {t : FileTree} {d : Location → List Bytes → Except FileError Place}
    {place : Place} (hd : ∀ loc xs ys, ys ≠ [] → d loc (xs ++ ys) = .ok place →
      ∃ l n, d loc xs = .ok (.found l .folder) ∧ t.walk .follow n l ys = .ok place)
    {n : Nat} (hn : t.walkFrom .follow d = t.walk .follow n) (loc : Location) (xs : List Bytes)
    {ys : List Bytes} (hys : ys ≠ []) (hw : t.walkFrom .follow d loc (xs ++ ys) = .ok place) :
    ∃ l n, t.walkFrom .follow d loc xs = .ok (.found l .folder) ∧
      t.walk .follow n l ys = .ok place := by
  simp only [walkFrom_eq_ok] at hw ⊢
  induction xs generalizing loc with
  | nil => exact ⟨loc, n, .stop loc, hn ▸ walkFrom_eq_ok.2 hw⟩
  | cons name rest ih =>
    have hnamed : Named .follow name (rest ++ ys) → Named .follow name rest :=
      fun h => { h with made := fun hm => by cases hm.1 }
    rw [List.cons_append] at hw
    generalize hsteps : rest ++ ys = steps at hw
    cases hw with
    | stay hdot hnext =>
      obtain ⟨l, n, hgoes, hwalk⟩ := ih loc (hsteps ▸ hnext)
      exact ⟨l, n, .stay hdot hgoes, hwalk⟩
    | up hnext =>
      obtain ⟨l, n, hgoes, hwalk⟩ := ih _ (hsteps ▸ hnext)
      exact ⟨l, n, .up hgoes, hwalk⟩
    | enter h hnode hnext =>
      obtain ⟨l, n, hgoes, hwalk⟩ := ih _ (hsteps ▸ hnext)
      exact ⟨l, n, .enter (hnamed (hsteps ▸ h)) hnode hgoes, hwalk⟩
    | follow h hnode hon hnext =>
      rw [← hsteps, ← List.append_assoc] at hnext
      obtain ⟨l, n, hgoes, hwalk⟩ := hd _ _ _ hys hnext
      exact ⟨l, n, .follow (hnamed (hsteps ▸ h)) hnode (fun h => by cases h.2) hgoes, hwalk⟩
    | vacant => exact absurd hsteps (List.append_ne_nil_of_right_ne_nil _ hys)
    | file => exact absurd hsteps (List.append_ne_nil_of_right_ne_nil _ hys)
    | link => exact absurd hsteps (List.append_ne_nil_of_right_ne_nil _ hys)

theorem walk_append {t : FileTree} {place : Place} (n : Nat) (loc : Location) (xs : List Bytes)
    {ys : List Bytes} (hys : ys ≠ []) (hw : t.walk .follow n loc (xs ++ ys) = .ok place) :
    ∃ l m, t.walk .follow n loc xs = .ok (.found l .folder) ∧
      t.walk .follow m l ys = .ok place := by
  induction n generalizing loc xs ys with
  | zero =>
    exact walkFrom_append (fun _ _ _ _ h => by cases h) (n := 0) rfl loc xs hys hw
  | succ n ih =>
    exact walkFrom_append (fun loc xs ys hys h => ih loc xs hys h) (n := n + 1) rfl loc xs hys hw

/-- With the names `ys` a walk may go on, wherever it has come to. -/
def GoesOn (purpose : Purpose) (ys : List Bytes) : Prop :=
  ∀ rest : List Bytes,
    ¬(purpose = .make ∧ rest ++ ys = [[]]) ∧ ¬(rest ++ ys = [] ∧ purpose = .look)

theorem goesOn_follow (ys : List Bytes) : GoesOn .follow ys :=
  fun _ => ⟨fun h => (by cases h.1), fun h => (by cases h.2)⟩

/-- A walk that comes to a folder along `xs` comes to `place` along `xs ++ ys`, where the way along
`ys` follows no link. -/
theorem walkFrom_on {t : FileTree} {purpose : Purpose}
    {d d' : Location → List Bytes → Except FileError Place} {l : Location} {ys : List Bytes}
    {place : Place} (hys : GoesOn purpose ys) (hon : ∀ d, Goes t purpose d l ys place)
    (hd : ∀ loc xs, d loc xs = .ok (.found l .folder) → d' loc (xs ++ ys) = .ok place)
    (loc : Location) (xs : List Bytes) (hw : t.walkFrom .follow d loc xs = .ok (.found l .folder)) :
    t.walkFrom purpose d' loc (xs ++ ys) = .ok place := by
  rw [walkFrom_eq_ok] at hw ⊢
  have hnamed : ∀ {name rest}, Named .follow name rest → Named purpose name (rest ++ ys) :=
    fun h => ⟨h.nonempty, h.notDot, h.notDots, h.short, (hys _).1⟩
  generalize hplace : Place.found l .folder = folder at hw
  induction hw with
  | stop loc =>
    cases hplace
    exact hon d'
  | stay hdot _ ih => exact .stay hdot (ih hplace)
  | up _ ih => exact .up (ih hplace)
  | vacant => cases hplace
  | enter h hnode _ ih => exact .enter (hnamed h) hnode (ih hplace)
  | file => cases hplace
  | link => cases hplace
  | follow h hnode _ hnext =>
    subst hplace
    have hlater := hd _ _ hnext
    rw [List.append_assoc] at hlater
    exact .follow (hnamed h) hnode (hys _).2 hlater

theorem walk_on {t : FileTree} {purpose : Purpose} {l : Location} {ys : List Bytes} {place : Place}
    (hys : GoesOn purpose ys) (hon : ∀ d, Goes t purpose d l ys place) (n : Nat)
    (loc : Location) (xs : List Bytes) (hw : t.walk .follow n loc xs = .ok (.found l .folder)) :
    t.walk purpose n loc (xs ++ ys) = .ok place := by
  induction n generalizing loc xs with
  | zero => exact walkFrom_on hys hon (fun _ _ h => by cases h) loc xs hw
  | succ n ih => exact walkFrom_on hys hon ih loc xs hw

theorem walk_then {t : FileTree} {l : Location} {ys : List Bytes} {place : Place}
    (hon : ∀ d, Goes t .follow d l ys place) (n : Nat) (loc : Location) (xs : List Bytes)
    (hw : t.walk .follow n loc xs = .ok (.found l .folder)) :
    t.walk .follow n loc (xs ++ ys) = .ok place :=
  walk_on (goesOn_follow ys) hon n loc xs hw

/-- A walk that finds something finds a node under its first name, if that is no dots. -/
theorem walk_cons_node {t : FileTree} {n : Nat} {loc l : Location} {name : Bytes}
    {rest : List Bytes} {node : Node}
    (hw : t.walk .follow n loc (name :: rest) = .ok (.found l node))
    (hname : name ≠ [] ∧ name ≠ [Path.dot] ∧ name ≠ [Path.dot, Path.dot]) :
    t.node? (loc ++ [name]) ≠ none := by
  have hstep : ∀ d, Goes t .follow d loc (name :: rest) (.found l node) →
      t.node? (loc ++ [name]) ≠ none := by
    intro d hgoes hnone
    cases hgoes with
    | stay hdot => exact hdot.elim hname.1 hname.2.1
    | up => exact hname.2.2 rfl
    | enter _ hnode => rw [hnone] at hnode; cases hnode
    | file _ hnode => rw [hnone] at hnode; cases hnode
    | link _ hnode => rw [hnone] at hnode; cases hnode
    | follow _ hnode => rw [hnone] at hnode; cases hnode
  cases n with
  | zero => exact hstep _ (walkFrom_eq_ok.1 hw)
  | succ n => exact hstep _ (walkFrom_eq_ok.1 hw)

end FileTree

namespace Path

theorem splitOn_slashes (w : Bytes) (k : Nat) :
    ((w ++ List.replicate k slash).splitOn slash).filter (· != []) =
      (w.splitOn slash).filter (· != []) := by
  induction k with
  | zero => rw [List.replicate_zero, List.append_nil]
  | succ k ih =>
    rw [List.replicate_succ', ← List.append_assoc, List.splitOn_append_cons_self,
      List.filter_append, ih]
    simp

/-- Without slashes at its end, a path has the same steps but for the empty one. -/
theorem steps_withoutSlashes (p : Path) :
    p.withoutSlashes.steps = (p.bytes.splitOn slash).filter (· != []) := by
  have hslashes : p.bytes.reverse.takeWhile (· == slash) =
      List.replicate (p.bytes.reverse.takeWhile (· == slash)).length slash := by
    rw [List.eq_replicate_iff]
    exact ⟨rfl, fun b hb => by simpa using List.mem_takeWhile_imp hb⟩
  have hbytes : p.withoutSlashes.bytes ++
      List.replicate (p.bytes.reverse.takeWhile (· == slash)).length slash = p.bytes := by
    rw [← List.reverse_replicate, ← hslashes, withoutSlashes, ← List.reverse_append,
      List.takeWhile_append_dropWhile, List.reverse_reverse]
  have hend : p.withoutSlashes.endsInSlash = false := by
    rw [endsInSlash, withoutSlashes, List.getLast?_reverse, beq_eq_false_iff_ne]
    intro h
    have hhead := List.head?_dropWhile_not (· == slash) p.bytes.reverse
    rw [h] at hhead
    exact absurd hhead (by decide)
  rw [← hbytes, splitOn_slashes, steps, hend]
  exact List.append_nil _

end Path

namespace FileTree

theorem ne_nil_of_mem_withoutSlashes (p : Path) {name : Bytes}
    (h : name ∈ p.withoutSlashes.steps) : name ≠ [] := by
  rw [Path.steps_withoutSlashes] at h
  exact bne_iff_ne.1 (List.mem_filter.1 h).2

/-- A slash at the end of a path makes no difference to the folder that it leads to. -/
theorem find_folder_iff {t : FileTree} {p : Path} {l : Location} :
    t.find p = .ok (l, .folder) ↔ p.fault? = none ∧
      t.walk .follow linkLimit (t.origin p) p.withoutSlashes.steps = .ok (.found l .folder) := by
  have hslash : ∀ d l, Goes t .follow d l [[]] (.found l .folder) := fun d l =>
    .stay (.inl rfl) (.stop l)
  rw [find_eq_ok]
  unfold place
  cases p.fault? with
  | some e => simp
  | none =>
    rw [Path.steps, ← Path.steps_withoutSlashes]
    cases p.endsInSlash with
    | false => simp
    | true =>
      simp only [true_and, if_true]
      constructor
      · intro hw
        obtain ⟨l', n, hfirst, hrest⟩ := walk_append _ _ _ (List.cons_ne_nil _ _) hw
        have hstay : t.walk .follow n l' [[]] = .ok (.found l' .folder) := by
          cases n with
          | zero => exact walkFrom_eq_ok.2 (hslash _ l')
          | succ n => exact walkFrom_eq_ok.2 (hslash _ l')
        rw [hstay] at hrest
        cases hrest
        exact hfirst
      · exact walk_then (fun d => hslash d l) _ _ _

/-- The free place of a path is a new name in the folder that the steps before lead to. -/
theorem freePlace_eq_ok {t : FileTree} {p : Path} {loc : Location}
    (h : t.freePlace p = .ok loc) :
    ∃ before name l, p.fault? = none ∧ p.withoutSlashes.steps = before ++ [name] ∧
      t.walk .follow linkLimit (t.origin p) before = .ok (.found l .folder) ∧
      Named .follow name [] ∧ loc = l ++ [name] ∧ t.node? loc = none := by
  unfold freePlace at h
  split at h
  · cases h
  next hfault =>
  dsimp only at h
  rcases List.eq_nil_or_concat' p.withoutSlashes.steps with hnil | ⟨before, name, hsteps⟩
  · rw [hnil] at h
    cases h
  rw [hsteps, List.dropLast_concat, List.getLast?_concat] at h
  split at h
  · cases h
  · cases h
  · cases h
  · cases h
  next l hwalk =>
  dsimp only at h
  split at h
  · cases h
  next hdots =>
  split at h
  · cases h
  next hlong =>
  split at h
  · cases h
  next hnode =>
  cases h
  rw [not_or] at hdots
  have hname : name ≠ [] := by
    refine ne_nil_of_mem_withoutSlashes p ?_
    rw [hsteps]
    exact List.mem_append_right _ (List.mem_singleton_self name)
  exact ⟨before, name, l, hfault, hsteps, hwalk,
    ⟨hname, hdots.1, hdots.2, Nat.le_of_not_lt hlong, fun hm => by cases hm.1⟩, rfl, hnode⟩

/-- A folder that is there cannot be made, and the error is not `notFound`. -/
theorem freePlace_of_isFolder {t : FileTree} {p : Path} (h : t.isFolder p = true) :
    ∃ e, t.freePlace p = .error e ∧ e ≠ .notFound := by
  obtain ⟨l, hl⟩ := isFolder_iff.1 h
  obtain ⟨hfault, hwalk⟩ := find_folder_iff.1 hl
  unfold freePlace
  rw [hfault]
  dsimp only
  rcases List.eq_nil_or_concat' p.withoutSlashes.steps with hnil | ⟨before, name, hsteps⟩
  · rw [hnil]
    exact ⟨.exists, rfl, fun h => by cases h⟩
  rw [hsteps] at hwalk
  rw [hsteps, List.dropLast_concat, List.getLast?_concat]
  obtain ⟨l', n, hbefore, hlast⟩ := walk_append _ _ _ (List.cons_ne_nil _ _) hwalk
  rw [hbefore]
  dsimp only
  split
  · exact ⟨.exists, rfl, fun h => by cases h⟩
  next hdots =>
  split
  · exact ⟨.nameTooLong, rfl, fun h => by cases h⟩
  split
  · exact ⟨.exists, rfl, fun h => by cases h⟩
  · next hnone =>
    have hname : name ≠ [] := by
      refine ne_nil_of_mem_withoutSlashes p ?_
      rw [hsteps]
      exact List.mem_append_right _ (List.mem_singleton_self name)
    rw [not_or] at hdots
    exact absurd hnone (walk_cons_node hlast ⟨hname, hdots.1, hdots.2⟩)

theorem not_isFolder_of_notFound {t : FileTree} {p : Path}
    (h : t.freePlace p = .error .notFound) : t.isFolder p = false := by
  rw [Bool.eq_false_iff]
  intro hfolder
  obtain ⟨e, he, hne⟩ := freePlace_of_isFolder hfolder
  rw [h] at he
  cases he
  exact hne rfl

theorem not_isFolder_of_ok {t : FileTree} {p : Path} {loc : Location}
    (h : t.freePlace p = .ok loc) : t.isFolder p = false := by
  rw [Bool.eq_false_iff]
  intro hfolder
  obtain ⟨e, he, -⟩ := freePlace_of_isFolder hfolder
  rw [h] at he
  cases he

theorem makeFolder_eq_ok {t t' : FileTree} {p : Path} (h : t.makeFolder p = (.ok (), t')) :
    ∃ loc, t.freePlace p = .ok loc ∧ t' = t.put loc .folder := by
  unfold makeFolder at h
  split at h
  · cases h
  · next loc hfree =>
    cases h
    exact ⟨loc, hfree, rfl⟩

theorem makeFolder_eq_error {t t' : FileTree} {p : Path} {e : FileError}
    (h : t.makeFolder p = (.error e, t')) : t.freePlace p = .error e ∧ t' = t := by
  unfold makeFolder at h
  split at h
  · next hfree =>
    cases h
    exact ⟨hfree, rfl⟩
  · cases h

theorem orFolder_eq_ok {t t' : FileTree} {p : Path} {e : FileError}
    (h : t.orFolder p e = (.ok (), t')) : t' = t ∧ t.isFolder p = true := by
  unfold orFolder at h
  split at h
  · next hfolder =>
    cases h
    exact ⟨rfl, hfolder⟩
  · cases h

theorem orFolder_eq_error {t t' : FileTree} {p : Path} {e e' : FileError}
    (h : t.orFolder p e = (.error e', t')) : t' = t ∧ t.isFolder p = false := by
  unfold orFolder at h
  split at h
  · cases h
  · next hnot =>
    cases h
    exact ⟨rfl, Bool.not_eq_true _ ▸ hnot⟩

/-- `makeFolders` does nothing where the folder is there. -/
theorem makeFolders_of_isFolder {t : FileTree} {p : Path} (h : t.isFolder p = true) :
    t.makeFolders p = (.ok (), t) := by
  obtain ⟨e, he, hne⟩ := freePlace_of_isFolder h
  unfold makeFolders makeAll makeFolder
  rw [he]
  split
  · rfl
  dsimp only
  cases e with
  | notFound => exact absurd rfl hne
  | _ => simp [orFolder, h]

/-! ## Files that are there -/

/-- The way on which a file is made can be followed. -/
theorem walkFrom_follow {t : FileTree} {d d' : Location → List Bytes → Except FileError Place}
    (hd : ∀ loc steps place, d loc steps = .ok place → d' loc steps = .ok place)
    (loc : Location) (steps : List Bytes) {place : Place}
    (hw : t.walkFrom .make d loc steps = .ok place) :
    t.walkFrom .follow d' loc steps = .ok place := by
  rw [walkFrom_eq_ok] at hw ⊢
  have hnamed : ∀ {name rest}, Named .make name rest → Named .follow name rest :=
    fun h => { h with made := fun hm => by cases hm.1 }
  induction hw with
  | stop loc => exact .stop loc
  | stay hdot _ ih => exact .stay hdot ih
  | up _ ih => exact .up ih
  | vacant h hnode => exact .vacant (hnamed h) hnode
  | enter h hnode _ ih => exact .enter (hnamed h) hnode ih
  | file h hnode => exact .file (hnamed h) hnode
  | link _ _ hlook => cases hlook
  | follow h hnode _ hnext =>
    exact .follow (hnamed h) hnode (fun h => by cases h.2) (hd _ _ _ hnext)

theorem place_follow {t : FileTree} {p : Path} {place : Place}
    (h : t.place .make p = .ok place) : t.place .follow p = .ok place := by
  have hwalk : ∀ n loc steps place, t.walk .make n loc steps = .ok place →
      t.walk .follow n loc steps = .ok place := by
    intro n
    induction n with
    | zero => exact fun loc steps place => walkFrom_follow (fun _ _ _ hx => by cases hx) loc steps
    | succ n ih => exact fun loc steps place => walkFrom_follow ih loc steps
  unfold FileTree.place at h ⊢
  split at h
  · cases h
  · exact hwalk _ _ _ _ h

/-- Where a path leads to nothing, nothing is at its `target`. -/
theorem target_of_not_holds {t : FileTree} {p : Path} {loc : Location} {content : Bytes}
    (hnot : t.holds p = false) (h : t.target p = .ok (loc, content)) : t.node? loc = none := by
  unfold target at h
  split at h
  · cases h
  · next hpl =>
    cases h
    exact ((place_arrives (by decide) hpl).vacant _ rfl).1
  · next hpl =>
    rw [holds, find_eq_ok.2 (place_follow hpl)] at hnot
    cases hnot
  · cases h

end FileTree
end ClipLedger
