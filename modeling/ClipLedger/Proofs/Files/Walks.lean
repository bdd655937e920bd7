import ClipLedger.Files.Operations

/-
  Walks through a tree, by what stands on the way. A walk comes to a place just if there is a way
  there (`walkFrom_eq_ok`), and `Goes` has one constructor for each thing a name may be, so that
  what holds of a walk is proved by induction on its way.
-/
namespace ClipLedger

namespace FileTree

/-- `name` is looked up in a folder: it is no dots, and the `purpose` does not end the walk
here. -/
structure Named (purpose : Purpose) (name : Bytes) (rest : List Bytes) : Prop where
  nonempty : name ≠ []
  notDot : name ≠ [Path.dot]
  notDots : name ≠ [Path.dot, Path.dot]
  short : name.length ≤ Path.nameLimit
  made : ¬(purpose = .make ∧ rest = [[]])

/-- The way of a walk that comes to a place, in one constructor for each kind of step. -/
inductive Goes (t : FileTree) (purpose : Purpose)
    (detour : Location → List Bytes → Except FileError Place) :
    Location → List Bytes → Place → Prop
  | stop (loc : Location) : Goes t purpose detour loc [] (.found loc .folder)
  | stay {loc : Location} {name : Bytes} {rest : List Bytes} {place : Place}
      (dot : name = [] ∨ name = [Path.dot]) (next : Goes t purpose detour loc rest place) :
      Goes t purpose detour loc (name :: rest) place
  | up {loc : Location} {rest : List Bytes} {place : Place}
      (next : Goes t purpose detour loc.dropLast rest place) :
      Goes t purpose detour loc ([Path.dot, Path.dot] :: rest) place
  | vacant {loc : Location} {name : Bytes} (named : Named purpose name [])
      (node : t.node? (loc ++ [name]) = none) :
      Goes t purpose detour loc [name] (.vacant (loc ++ [name]))
  | enter {loc : Location} {name : Bytes} {rest : List Bytes} {place : Place}
      (named : Named purpose name rest) (node : t.node? (loc ++ [name]) = some .folder)
      (next : Goes t purpose detour (loc ++ [name]) rest place) :
      Goes t purpose detour loc (name :: rest) place
  | file {loc : Location} {name content : Bytes} {modified : Int} (named : Named purpose name [])
      (node : t.node? (loc ++ [name]) = some (.file content modified)) :
      Goes t purpose detour loc [name] (.found (loc ++ [name]) (.file content modified))
  | link {loc : Location} {name : Bytes} {target : Path} (named : Named purpose name [])
      (node : t.node? (loc ++ [name]) = some (.link target)) (look : purpose = .look) :
      Goes t purpose detour loc [name] (.found (loc ++ [name]) (.link target))
  | follow {loc : Location} {name : Bytes} {rest : List Bytes} {target : Path} {place : Place}
      (named : Named purpose name rest) (node : t.node? (loc ++ [name]) = some (.link target))
      (on : ¬(rest = [] ∧ purpose = .look))
      (next : detour (if target.isAbsolute then [] else loc) (target.steps ++ rest) = .ok place) :
      Goes t purpose detour loc (name :: rest) place

/-- A name that is looked up leads to what its node says. -/
theorem walkFrom_named (t : FileTree) {purpose : Purpose}
    (d : Location → List Bytes → Except FileError Place) (loc : Location) {name : Bytes}
    {rest : List Bytes} (h : Named purpose name rest) :
    t.walkFrom purpose d loc (name :: rest) =
      match t.node? (loc ++ [name]) with
      | none => if rest = [] then .ok (.vacant (loc ++ [name])) else .error .notFound
      | some .folder => t.walkFrom purpose d (loc ++ [name]) rest
      | some (.file content modified) =>
        if rest = [] then .ok (.found (loc ++ [name]) (.file content modified))
        else .error .notFolder
      | some (.link target) =>
        if rest = [] ∧ purpose = .look then .ok (.found (loc ++ [name]) (.link target))
        else d (if target.isAbsolute then [] else loc) (target.steps ++ rest) := by
  rw [walkFrom]
  exact (if_neg (not_or.2 ⟨h.nonempty, h.notDot⟩)).trans ((if_neg h.notDots).trans
    ((if_neg h.made).trans (if_neg (Nat.not_lt.2 h.short))))

section Walk

variable {t : FileTree} {purpose : Purpose}
  {d : Location → List Bytes → Except FileError Place} {loc : Location} {name : Bytes}
  {rest steps : List Bytes} {place : Place}

/-- A walk that succeeds stays, goes up, or comes to a name that is looked up. -/
theorem cases_of_walkFrom (h : t.walkFrom purpose d loc (name :: rest) = .ok place) :
    ((name = [] ∨ name = [Path.dot]) ∧ t.walkFrom purpose d loc rest = .ok place) ∨
      (name = [Path.dot, Path.dot] ∧ t.walkFrom purpose d loc.dropLast rest = .ok place) ∨
      Named purpose name rest := by
  by_cases hdot : name = [] ∨ name = [Path.dot]
  · rw [walkFrom, if_pos hdot] at h
    exact .inl ⟨hdot, h⟩
  by_cases hdots : name = [Path.dot, Path.dot]
  · rw [walkFrom, if_neg hdot, if_pos hdots] at h
    exact .inr (.inl ⟨hdots, h⟩)
  by_cases hmade : purpose = .make ∧ rest = [[]]
  · rw [walkFrom, if_neg hdot, if_neg hdots, if_pos hmade] at h
    cases h
  by_cases hlong : Path.nameLimit < name.length
  · rw [walkFrom, if_neg hdot, if_neg hdots, if_neg hmade, if_pos hlong] at h
    cases h
  rw [not_or] at hdot
  exact .inr (.inr ⟨hdot.1, hdot.2, hdots, Nat.le_of_not_lt hlong, hmade⟩)

/-- From a name that is looked up, the walk goes by the node of that name. -/
theorem goes_of_named (hnamed : Named purpose name rest)
    (ih : ∀ {loc}, t.walkFrom purpose d loc rest = .ok place → Goes t purpose d loc rest place)
    (h : t.walkFrom purpose d loc (name :: rest) = .ok place) :
    Goes t purpose d loc (name :: rest) place := by
  rw [walkFrom_named t d loc hnamed] at h
  split at h
  · next hnode =>
    split at h
    · next hr =>
      cases h
      subst hr
      exact .vacant hnamed hnode
    · cases h
  · next hnode => exact .enter hnamed hnode (ih h)
  · next hnode =>
    split at h
    · next hr =>
      cases h
      subst hr
      exact .file hnamed hnode
    · cases h
  · next hnode =>
    split at h
    · next hr =>
      obtain ⟨rfl, hlook⟩ := hr
      cases h
      exact .link hnamed hnode hlook
    · next hr => exact .follow hnamed hnode hr h

theorem Goes.walkFrom (h : Goes t purpose d loc steps place) :
    t.walkFrom purpose d loc steps = .ok place := by
  induction h with
  | stop loc => rfl
  | stay hdot _ ih => rw [FileTree.walkFrom, if_pos hdot, ih]
  | up _ ih => rw [FileTree.walkFrom, if_neg (by decide), if_pos rfl, ih]
  | vacant hnamed hnode => rw [walkFrom_named t d _ hnamed, hnode]; rfl
  | enter hnamed hnode _ ih => rw [walkFrom_named t d _ hnamed, hnode]; exact ih
  | file hnamed hnode => rw [walkFrom_named t d _ hnamed, hnode]; rfl
  | link hnamed hnode hlook =>
    rw [walkFrom_named t d _ hnamed, hnode]
    exact if_pos ⟨rfl, hlook⟩
  | follow hnamed hnode hon hnext =>
    rw [walkFrom_named t d _ hnamed, hnode]
    exact (if_neg hon).trans hnext

/-- `walkFrom` comes to `place` just if there is a way that `Goes` there. -/
theorem walkFrom_eq_ok :
    t.walkFrom purpose d loc steps = .ok place ↔ Goes t purpose d loc steps place := by
  refine ⟨fun h => ?_, Goes.walkFrom⟩
  induction steps generalizing loc with
  | nil =>
    cases h
    exact .stop loc
  | cons name rest ih =>
    rcases cases_of_walkFrom h with ⟨hdot, hrest⟩ | ⟨rfl, hrest⟩ | hnamed
    · exact .stay hdot (ih hrest)
    · exact .up (ih hrest)
    · exact goes_of_named hnamed ih h

end Walk

end FileTree
end ClipLedger
