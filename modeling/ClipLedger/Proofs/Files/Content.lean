import ClipLedger.Proofs.Files.Walks

/-
  Where a path leads, and what is there. The place that a path aims at depends on nothing but the
  links of the tree, whether or not anything is there yet (`aim`), and whatever a walk ends at is
  what its path aims at (`place_arrives`). So an operation that puts a file at one path keeps what
  every path that leads elsewhere leads to (`Puts.keeps`), as does making folders
  (`makeFolders_keeps`), and appending adds to its own (`contentOf_append`).
-/
namespace ClipLedger

/-- The location that a walk ended at. -/
def Place.loc : Place → Location
  | .found loc _ => loc
  | .vacant loc => loc

namespace FileTree

/-! ## One node put -/

theorem node?_put {t : FileTree} {loc : Location} (h : loc ≠ []) (node : Node) (l : Location) :
    (t.put loc node).node? l = if l = loc then some node else t.node? l := by
  unfold node? put
  by_cases hl : l = loc
  · rw [hl, if_neg h, if_pos rfl, List.lookup_cons, beq_self_eq_true]
  · rw [if_neg hl]
    split
    · rfl
    · rw [List.lookup_cons, beq_false_of_ne hl]
      dsimp only
      -- what is filtered out would not be looked up
      induction t.nodes with
      | nil => rfl
      | cons e es ih =>
        obtain ⟨k, v⟩ := e
        by_cases hk : k = loc
        · rw [List.filter_cons_of_neg (by simp [hk]), ih, List.lookup_cons,
            beq_false_of_ne (fun he => hl (he.trans hk))]
        · rw [List.filter_cons_of_pos (by simp [hk]), List.lookup_cons, List.lookup_cons, ih]

/-! ## Aims -/

/-- Where names lead from a folder, if whatever is missing or in the way were a folder. -/
def aimFrom (t : FileTree) (detour : Location → List Bytes → Option Location) :
    Location → List Bytes → Option Location
  | loc, [] => some loc
  | loc, name :: rest =>
    if name = [] ∨ name = [Path.dot] then aimFrom t detour loc rest
    else if name = [Path.dot, Path.dot] then aimFrom t detour loc.dropLast rest
    else match t.node? (loc ++ [name]) with
      | some (.link target) => detour (if target.isAbsolute then [] else loc) (target.steps ++ rest)
      | _ => aimFrom t detour (loc ++ [name]) rest

/-- Where names lead from `loc`, with so many links still allowed. -/
def aimWith (t : FileTree) : Nat → Location → List Bytes → Option Location
  | 0 => aimFrom t fun _ _ => none
  | n + 1 => aimFrom t (aimWith t n)

/-- The location that `p` leads to, or would lead to if all on the way to it were there. -/
def aim (t : FileTree) (p : Path) : Option Location := t.aimWith linkLimit (t.origin p) p.steps

/-- The bytes of the file at `loc`; none where there is no file. -/
def bytesAt (t : FileTree) (loc : Location) : Bytes :=
  match t.node? loc with
  | some (.file content _) => content
  | _ => []

/-- The bytes of the file where `p` leads; none where there is no file. -/
def contentOf (t : FileTree) (p : Path) : Bytes :=
  match t.aim p with
  | some loc => t.bytesAt loc
  | none => []

/-- In an empty tree a name that is no dots leads one folder down. -/
theorem aimFrom_empty (clock : Int) (detour : Location → List Bytes → Option Location)
    (loc : Location) {name : Bytes} (rest : List Bytes)
    (hname : name ≠ [] ∧ name ≠ [Path.dot] ∧ name ≠ [Path.dot, Path.dot]) :
    (FileTree.empty clock).aimFrom detour loc (name :: rest) =
      (FileTree.empty clock).aimFrom detour (loc ++ [name]) rest := by
  have hnone : (FileTree.empty clock).node? (loc ++ [name]) = none := by
    unfold node?
    rw [if_neg (List.append_ne_nil_of_right_ne_nil _ (List.cons_ne_nil _ _))]
    rfl
  rw [aimFrom, if_neg (by simp [hname.1, hname.2.1]), if_neg hname.2.2, hnone]

/-! ## Walks end where their path aims -/

/-- A walk that is not for looking ends where it `aimed` at, with the node that is there. -/
structure Arrives (t : FileTree) (aimed : Option Location) (place : Place) : Prop where
  loc : aimed = some place.loc
  vacant : ∀ loc, place = .vacant loc → t.node? loc = none ∧ loc ≠ []
  found : ∀ loc node, place = .found loc node → node = .folder ∨ t.node? loc = some node ∧ loc ≠ []

theorem arrives_vacant {t : FileTree} {loc : Location} (hnode : t.node? loc = none)
    (hne : loc ≠ []) : t.Arrives (some loc) (.vacant loc) := by
  refine ⟨rfl, fun _ h => ?_, fun _ _ h => (by cases h)⟩
  cases h
  exact ⟨hnode, hne⟩

theorem arrives_found {t : FileTree} {loc : Location} {node : Node}
    (h : node = .folder ∨ t.node? loc = some node ∧ loc ≠ []) :
    t.Arrives (some loc) (.found loc node) := by
  refine ⟨rfl, fun _ h => (by cases h), fun _ _ heq => ?_⟩
  cases heq
  exact h

theorem aimFrom_link {t : FileTree} {purpose : Purpose}
    (d : Location → List Bytes → Option Location) {loc : Location} {name : Bytes}
    {rest : List Bytes} (h : Named purpose name rest) {target : Path}
    (hnode : t.node? (loc ++ [name]) = some (.link target)) :
    t.aimFrom d loc (name :: rest) =
      d (if target.isAbsolute then [] else loc) (target.steps ++ rest) := by
  rw [aimFrom, if_neg (not_or.2 ⟨h.nonempty, h.notDot⟩), if_neg h.notDots, hnode]

theorem aimFrom_down {t : FileTree} {purpose : Purpose}
    (d : Location → List Bytes → Option Location) {loc : Location} {name : Bytes}
    {rest : List Bytes} (h : Named purpose name rest)
    (hnode : ∀ target, t.node? (loc ++ [name]) ≠ some (.link target)) :
    t.aimFrom d loc (name :: rest) = t.aimFrom d (loc ++ [name]) rest := by
  rw [aimFrom, if_neg (not_or.2 ⟨h.nonempty, h.notDot⟩), if_neg h.notDots]
  split
  · next target hlink => exact absurd hlink (hnode target)
  · rfl

theorem walkFrom_arrives {t : FileTree} {purpose : Purpose} (hp : purpose ≠ .look)
    {detour : Location → List Bytes → Except FileError Place}
    {detour' : Location → List Bytes → Option Location}
    (hd : ∀ loc steps place, detour loc steps = .ok place → t.Arrives (detour' loc steps) place)
    (loc : Location) (steps : List Bytes) (place : Place)
    (h : t.walkFrom purpose detour loc steps = .ok place) :
    t.Arrives (t.aimFrom detour' loc steps) place := by
  rw [walkFrom_eq_ok] at h
  induction h with
  | stop loc => exact arrives_found (.inl rfl)
  | stay dot _ ih => rwa [aimFrom, if_pos dot]
  | up _ ih => rwa [aimFrom, if_neg (by decide), if_pos rfl]
  | @vacant loc name named node =>
    rw [aimFrom_down _ named fun _ h => by cases node.symm.trans h]
    exact arrives_vacant node (List.append_ne_nil_of_right_ne_nil _ (List.cons_ne_nil _ _))
  | enter named node _ ih =>
    rwa [aimFrom_down _ named fun _ h => by cases node.symm.trans h]
  | @file loc name content modified named node =>
    rw [aimFrom_down _ named fun _ h => by cases node.symm.trans h]
    exact arrives_found
      (.inr ⟨node, List.append_ne_nil_of_right_ne_nil _ (List.cons_ne_nil _ _)⟩)
  | link _ _ look => exact absurd look hp
  | follow named node _ next =>
    rw [aimFrom_link _ named node]
    exact hd _ _ _ next

theorem walk_arrives {t : FileTree} {purpose : Purpose} (hp : purpose ≠ .look) (n : Nat)
    (loc : Location) (steps : List Bytes) (place : Place)
    (h : t.walk purpose n loc steps = .ok place) : t.Arrives (t.aimWith n loc steps) place := by
  induction n generalizing loc steps place with
  | zero => exact walkFrom_arrives hp (fun _ _ _ h => (by cases h)) loc steps place h
  | succ n ih => exact walkFrom_arrives hp ih loc steps place h

theorem place_arrives {t : FileTree} {purpose : Purpose} (hp : purpose ≠ .look) {p : Path}
    {place : Place} (h : t.place purpose p = .ok place) : t.Arrives (t.aim p) place := by
  unfold FileTree.place at h
  split at h
  · cases h
  · exact walk_arrives hp _ _ _ _ h

/-- The `target` of a path is where it aims at, with the bytes that are there so far. -/
theorem target_spec {t : FileTree} {p : Path} {loc : Location} {content : Bytes}
    (h : t.target p = .ok (loc, content)) :
    t.aim p = some loc ∧ t.bytesAt loc = content ∧ loc ≠ [] ∧
      ∀ target, t.node? loc ≠ some (.link target) := by
  unfold target at h
  split at h
  · cases h
  · next hpl =>
    have ha := place_arrives (by decide) hpl
    obtain ⟨hnode, hne⟩ := ha.vacant _ rfl
    cases h
    refine ⟨ha.loc, ?_, hne, fun target hl => ?_⟩
    · rw [bytesAt, hnode]
    · rw [hnode] at hl
      cases hl
  · next hpl =>
    have ha := place_arrives (by decide) hpl
    cases h
    rcases ha.found _ _ rfl with hf | ⟨hnode, hne⟩
    · cases hf
    refine ⟨ha.loc, ?_, hne, fun target hl => ?_⟩
    · rw [bytesAt, hnode]
    · rw [hnode] at hl
      cases hl
  · cases h

/-- What `read` answers is the content. -/
theorem contentOf_of_read {t : FileTree} {p : Path} {bytes : Bytes} (h : t.read p = .ok bytes) :
    t.contentOf p = bytes := by
  unfold read find at h
  cases hpl : t.place .follow p with
  | error e =>
    rw [hpl] at h
    cases h
  | ok place =>
    have ha := place_arrives (by decide) hpl
    rw [hpl] at h
    cases place with
    | vacant loc => cases h
    | found loc node =>
      cases node with
      | folder => cases h
      | link target => cases h
      | file content modified =>
        cases h
        rcases ha.found _ _ rfl with hf | ⟨hnode, -⟩
        · cases hf
        rw [contentOf, ha.loc]
        show t.bytesAt loc = bytes
        rw [bytesAt, hnode]

/-! ## Trees with the same links -/

/-- Every path aims at the same location in both trees. -/
structure SameLinks (t t' : FileTree) : Prop where
  folder : t'.workingFolder = t.workingFolder
  links : ∀ loc target, t'.node? loc = some (.link target) ↔ t.node? loc = some (.link target)

theorem SameLinks.refl (t : FileTree) : SameLinks t t := ⟨rfl, fun _ _ => Iff.rfl⟩

theorem SameLinks.trans {t t' t'' : FileTree} (h : SameLinks t t') (h' : SameLinks t' t'') :
    SameLinks t t'' :=
  ⟨h'.folder.trans h.folder, fun loc target => (h'.links loc target).trans (h.links loc target)⟩

theorem SameLinks.aimFrom {t t' : FileTree} (h : SameLinks t t')
    {d d' : Location → List Bytes → Option Location} (hd : ∀ loc steps, d' loc steps = d loc steps)
    (loc : Location) (steps : List Bytes) : t'.aimFrom d' loc steps = t.aimFrom d loc steps := by
  induction steps generalizing loc with
  | nil => rfl
  | cons name rest ih =>
    simp only [FileTree.aimFrom, ih]
    split
    · rfl
    split
    · rfl
    -- a link on either side is one on the other
    cases hn : t.node? (loc ++ [name]) with
    | some node =>
      cases node with
      | link target => simp only [(h.links _ _).2 hn, hd]
      | folder =>
        split
        · next hl => rw [(h.links _ _).1 hl] at hn; cases hn
        · rfl
      | file content modified =>
        split
        · next hl => rw [(h.links _ _).1 hl] at hn; cases hn
        · rfl
    | none =>
      split
      · next hl => rw [(h.links _ _).1 hl] at hn; cases hn
      · rfl

theorem SameLinks.aim {t t' : FileTree} (h : SameLinks t t') (p : Path) : t'.aim p = t.aim p := by
  have hw : ∀ n loc steps, t'.aimWith n loc steps = t.aimWith n loc steps := by
    intro n
    induction n with
    | zero => exact fun loc steps => h.aimFrom (fun _ _ => rfl) loc steps
    | succ n ih => exact fun loc steps => h.aimFrom ih loc steps
  unfold FileTree.aim origin
  rw [h.folder, hw]

theorem SameLinks.put {t : FileTree} {loc : Location} {node : Node} (hne : loc ≠ [])
    (hl : ∀ target, t.node? loc ≠ some (.link target)) (hn : ∀ target, node ≠ .link target) :
    SameLinks t (t.put loc node) := by
  refine ⟨rfl, fun l target => ?_⟩
  rw [node?_put hne]
  split
  · next he =>
    rw [he]
    exact ⟨fun h => absurd (Option.some.inj h) (hn target), fun h => absurd h (hl target)⟩
  · exact Iff.rfl

theorem bytesAt_put {t : FileTree} {loc : Location} (hne : loc ≠ []) (node : Node)
    {l : Location} (h : l ≠ loc) : (t.put loc node).bytesAt l = t.bytesAt l := by
  rw [bytesAt, bytesAt, node?_put hne, if_neg h]

theorem bytesAt_put_file {t : FileTree} {loc : Location} (hne : loc ≠ []) (bytes : Bytes)
    (modified : Int) : (t.put loc (.file bytes modified)).bytesAt loc = bytes := by
  rw [bytesAt, node?_put hne, if_pos rfl]

/-! ## What operations keep -/

/-- `q` does not aim where `p` aims. -/
def Apart (t : FileTree) (q p : Path) : Prop := ∀ loc, t.aim p = some loc → t.aim q ≠ some loc

/-- In both trees every path aims at the same location, and `p` has the same content. -/
structure Keeps (t t' : FileTree) (p : Path) : Prop where
  links : SameLinks t t'
  content : t'.contentOf p = t.contentOf p

theorem Keeps.refl (t : FileTree) (p : Path) : Keeps t t p := ⟨.refl t, rfl⟩

theorem Keeps.trans {t t' t'' : FileTree} {p : Path} (h : Keeps t t' p) (h' : Keeps t' t'' p) :
    Keeps t t'' p :=
  ⟨h.links.trans h'.links, h'.content.trans h.content⟩

theorem SameLinks.apart {t t' : FileTree} (h : SameLinks t t') {q p : Path} (ha : Apart t q p) :
    Apart t' q p := by
  intro loc hp
  rw [h.aim] at hp ⊢
  exact ha loc hp

theorem SameLinks.keeps {t t' : FileTree} (h : SameLinks t t') {p : Path}
    (hb : ∀ loc, t.aim p = some loc → t'.bytesAt loc = t.bytesAt loc) : Keeps t t' p := by
  refine ⟨h, ?_⟩
  unfold contentOf
  rw [h.aim]
  cases ha : t.aim p with
  | none => rfl
  | some loc => exact hb loc ha

/-- Putting a file at the target of `q` keeps every path that is `Apart` from it. -/
theorem keeps_put_file {t : FileTree} {q p : Path} {loc : Location} {content : Bytes}
    (h : t.target q = .ok (loc, content)) (ha : Apart t q p) (bytes : Bytes) (time : Int) :
    Keeps t (t.put loc (.file bytes time)) p := by
  obtain ⟨haim, -, hne, hnl⟩ := target_spec h
  have hlinks : SameLinks t (t.put loc (.file bytes time)) := .put hne hnl (fun _ h => by cases h)
  refine hlinks.keeps fun l hl => bytesAt_put hne _ ?_
  rintro rfl
  exact ha l hl haim

/-- What is left of `t` by an operation that writes at `q`: `t` itself, or `t` with a file put where
`q` leads. -/
inductive Puts (t : FileTree) (q : Path) : FileTree → Prop
  | nothing : Puts t q t
  | file {loc : Location} {content : Bytes} (h : t.target q = .ok (loc, content)) (bytes : Bytes)
      (time : Int) : Puts t q (t.put loc (.file bytes time))

theorem Puts.keeps {t t' : FileTree} {q p : Path} (h : Puts t q t') (ha : Apart t q p) :
    Keeps t t' p := by
  cases h with
  | nothing => exact .refl t p
  | file h bytes time => exact keeps_put_file h ha bytes time

theorem write_puts (t : FileTree) (q : Path) (bytes : Bytes) : Puts t q (t.write q bytes).2 := by
  unfold write update
  split
  · exact .nothing
  · next h => exact .file h _ _

theorem freePlace_spec {t : FileTree} {p : Path} {loc : Location} (h : t.freePlace p = .ok loc) :
    t.node? loc = none ∧ loc ≠ [] := by
  unfold freePlace at h
  split at h
  · cases h
  dsimp only at h
  split at h
  · cases h
  · cases h
  · cases h
  · cases h
  split at h
  · cases h
  split at h
  · cases h
  split at h
  · cases h
  split at h
  · cases h
  · next hn =>
    cases h
    exact ⟨hn, List.append_ne_nil_of_right_ne_nil _ (List.cons_ne_nil _ _)⟩

theorem makeFolder_keeps (t : FileTree) (q p : Path) : Keeps t (t.makeFolder q).2 p := by
  unfold makeFolder
  split
  · exact .refl t p
  · next loc h =>
    obtain ⟨hn, hne⟩ := freePlace_spec h
    have hlinks : SameLinks t (t.put loc .folder) :=
      .put hne (fun _ h => by rw [hn] at h; cases h) (fun _ h => by cases h)
    refine hlinks.keeps fun l _ => ?_
    by_cases hl : l = loc
    · rw [hl, bytesAt, bytesAt, node?_put hne, if_pos rfl, hn]
    · exact bytesAt_put hne _ hl

/-- `makeAll` lies in every relation that is reflexive, transitive and holds for the `makeFolder` of
each path. -/
theorem makeAll_rel {R : FileTree → FileTree → Prop} (hrefl : ∀ t, R t t)
    (htrans : ∀ {t t' t''}, R t t' → R t' t'' → R t t'') {ps : List Path}
    (hstep : ∀ t, ∀ p ∈ ps, R t (t.makeFolder p).2) (t : FileTree) : R t (makeAll t ps).2 := by
  induction ps generalizing t with
  | nil => exact hrefl t
  | cons p ps ih =>
    have hmade : ∀ {t t'} {result : Except FileError Unit},
        t.makeFolder p = (result, t') → R t t' := by
      intro t t' result h
      have hfirst := hstep t p List.mem_cons_self
      rwa [h] at hfirst
    rw [makeAll]
    split
    · exact hrefl t
    split
    · next h => exact hmade h
    · next t₁ h =>
      have hrest := ih (fun t q hq => hstep t q (List.mem_cons_of_mem _ hq)) t₁
      split
      · next h₂ =>
        rw [h₂] at hrest
        exact htrans (hmade h) hrest
      · next t₂ h₂ =>
        rw [h₂] at hrest
        split
        · next h₃ => exact htrans (hmade h) (htrans hrest (hmade h₃))
        · next h₃ => exact htrans (hmade h) (htrans hrest (hmade h₃))
    · next h => exact hmade h

/-- Making folders keeps the file at every path. -/
theorem makeFolders_keeps (t : FileTree) (q p : Path) : Keeps t (t.makeFolders q).2 p :=
  @makeAll_rel (Keeps · · p) (.refl · p) .trans _ (fun t q _ => makeFolder_keeps t q p) t

/-! ## Appending -/

theorem put_put (t : FileTree) (loc : Location) (node node' : Node) :
    (t.put loc node).put loc node' = t.put loc node' := by
  unfold put
  dsimp only
  rw [List.filter_cons_of_neg (by simp), List.filter_filter]
  simp only [Bool.and_self]

/-- What appending does where `p` can be opened, by what becomes of the write: a file that is not
touched stays, unless it had to be made, and otherwise the bytes that are added follow what it
held. -/
theorem append_cases (t : FileTree) (p : Path) (bytes : Bytes) (w : Writing) :
    (∃ e, t.target p = .error e ∧ t.append p bytes w = (.error e, t)) ∨
    ∃ loc content, t.target p = .ok (loc, content) ∧ (t.append p bytes w).1 = w.result ∧
      (w.added? bytes = none ∧ (t.append p bytes w).2 = t ∨
      w.added? bytes = none ∧ t.node? loc = none ∧ content = [] ∧
        (t.append p bytes w).2 = t.put loc (.file [] t.clock) ∨
      ∃ added, w.added? bytes = some added ∧
        (t.append p bytes w).2 = t.put loc (.file (content ++ added) t.clock)) := by
  unfold append openEnd target
  cases hplace : t.place .make p with
  | error e => exact .inl ⟨e, rfl, rfl⟩
  | ok place =>
    cases place with
    | vacant loc =>
      have hnone := ((place_arrives (by decide) hplace).vacant loc rfl).1
      refine .inr ⟨loc, [], rfl, ?_⟩
      dsimp only
      cases w.added? bytes with
      | none => exact ⟨rfl, .inr (.inl ⟨rfl, hnone, rfl, rfl⟩)⟩
      | some added => exact ⟨rfl, .inr (.inr ⟨added, rfl, put_put ..⟩)⟩
    | found loc node =>
      cases node with
      | folder => exact .inl ⟨.isFolder, rfl, rfl⟩
      | link target => exact .inl ⟨.isFolder, rfl, rfl⟩
      | file content modified =>
        refine .inr ⟨loc, content, rfl, ?_⟩
        dsimp only
        cases w.added? bytes with
        | none => exact ⟨rfl, .inl ⟨rfl, rfl⟩⟩
        | some added => exact ⟨rfl, .inr (.inr ⟨added, rfl, rfl⟩)⟩

theorem append_puts (t : FileTree) (p : Path) (bytes : Bytes) (w : Writing) :
    Puts t p (t.append p bytes w).2 := by
  rcases append_cases t p bytes w with ⟨e, -, he⟩ | ⟨loc, content, h, -, hcases⟩
  · rw [he]
    exact .nothing
  · rcases hcases with ⟨-, hsame⟩ | ⟨-, -, -, hmade⟩ | ⟨added, -, hput⟩
    · rw [hsame]
      exact .nothing
    · rw [hmade]
      exact .file h _ _
    · rw [hput]
      exact .file h _ _

/-- A write that is whole succeeds wherever there is a `target`. -/
theorem append_whole (t : FileTree) (p : Path) (bytes : Bytes) :
    t.append p bytes = t.update p (· ++ bytes) := by
  unfold update
  rcases append_cases t p bytes .whole with ⟨e, h, he⟩ | ⟨loc, content, h, hresult, hcases⟩
  · rw [he, h]
  · rw [h]
    rcases hcases with ⟨hnone, -⟩ | ⟨hnone, -⟩ | ⟨added, hadded, hput⟩
    · cases hnone
    · cases hnone
    · cases hadded
      exact Prod.ext hresult hput

/-- **Appending adds the bytes that are kept, whatever becomes of the write.** -/
theorem contentOf_append (t : FileTree) (p : Path) (bytes : Bytes) (w : Writing) :
    (∃ e, t.append p bytes w = (.error e, t)) ∨
    (t.append p bytes w).1 = w.result ∧ SameLinks t (t.append p bytes w).2 ∧
      (t.append p bytes w).2.contentOf p = t.contentOf p ++ w.kept bytes := by
  rcases append_cases t p bytes w with ⟨e, -, he⟩ | ⟨loc, content, h, hresult, hcases⟩
  · exact .inl ⟨e, he⟩
  obtain ⟨haim, hbytes, hne, hnl⟩ := target_spec h
  refine .inr ⟨hresult, ?_⟩
  have hput : ∀ added, SameLinks t (t.put loc (.file (content ++ added) t.clock)) ∧
      (t.put loc (.file (content ++ added) t.clock)).contentOf p = t.contentOf p ++ added := by
    intro added
    have hlinks : SameLinks t (t.put loc (.file (content ++ added) t.clock)) :=
      .put hne hnl (fun _ h => by cases h)
    refine ⟨hlinks, ?_⟩
    rw [contentOf, contentOf, hlinks.aim, haim]
    dsimp only
    rw [bytesAt_put_file hne, hbytes]
  unfold Writing.kept
  rcases hcases with ⟨hnone, hsame⟩ | ⟨hnone, -, rfl, hmade⟩ | ⟨added, hadded, htree⟩
  · rw [hsame, hnone]
    exact ⟨.refl t, (List.append_nil _).symm⟩
  · rw [hmade, hnone]
    exact hput []
  · rw [htree, hadded]
    exact hput added

end FileTree
end ClipLedger
