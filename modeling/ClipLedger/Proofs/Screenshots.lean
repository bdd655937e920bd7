import ClipLedger.Capture.Screenshots
import ClipLedger.Proofs.Files.Added
import ClipLedger.Proofs.Files.Extension
import Mathlib.Data.List.Lex
import Mathlib.Data.Prod.Lex

/-
  The newest screenshot. Screenshots are ordered by time and then by name (`Shot.rank`). The newest
  is the greatest of those that a folder holds (`latest_eq_ok`), and where a folder holds any there
  is a newest (`latest_of_held`). No two screenshots rank the same, so the order in which a folder
  is listed makes no difference (`latest_sameNodes`), and the answer is known from what stands there
  (`latest_greatest`). A folder that cannot be listed, because its path leads nowhere, holds none; a
  path that leads to something else, or runs into it, is an error.
-/
namespace ClipLedger

/-- `Bytes.less` is the lexicographic order of the bytes as numbers. -/
theorem Bytes.less_iff (a b : Bytes) :
    Bytes.less a b = true ↔ a.map UInt8.toNat < b.map UInt8.toNat := by
  induction a generalizing b with
  | nil =>
    cases b with
    | nil => simp [less]
    | cons y ys => simp [less]
  | cons x xs ih =>
    cases b with
    | nil => simp [less]
    | cons y ys =>
      rw [List.map_cons, List.map_cons, List.cons_lt_cons_iff, ← ih, less]
      simp [UInt8.lt_iff_toNat_lt, UInt8.toNat_inj]

namespace FileTree

/-- `names` lists the names under which something stands at `loc`. -/
theorem mem_names {t : FileTree} {loc : Location} {name : Bytes} :
    name ∈ t.names loc ↔ ∃ node, t.node? (loc ++ [name]) = some node := by
  have hne : loc ++ [name] ≠ [] := List.append_ne_nil_of_right_ne_nil _ (List.cons_ne_nil _ _)
  unfold names node?
  rw [if_neg hne, List.mem_filterMap]
  constructor
  · rintro ⟨⟨l, node⟩, hmem, hname⟩
    split at hname
    · next hl =>
      obtain ⟨before, rfl⟩ := List.getLast?_eq_some_iff.1 hname
      rw [List.dropLast_concat] at hl
      rw [hl.1] at hmem
      cases hlookup : t.nodes.lookup (loc ++ [name]) with
      | some node' => exact ⟨node', rfl⟩
      | none =>
        rw [List.lookup_eq_none_iff] at hlookup
        have := hlookup _ hmem
        simp at this
    · cases hname
  · rintro ⟨node, hnode⟩
    obtain ⟨l₁, l₂, hnodes, -⟩ := List.lookup_eq_some_iff.1 hnode
    refine ⟨(loc ++ [name], node), ?_, ?_⟩
    · rw [hnodes]
      exact List.mem_append_right _ List.mem_cons_self
    · simp [hne]

theorem list_eq_ok {t : FileTree} {p : Path} {names : List Bytes} :
    t.list p = .ok names ↔ ∃ loc, t.find p = .ok (loc, .folder) ∧ names = t.names loc := by
  unfold list
  constructor
  · intro h
    split at h
    · cases h
    · next loc hfind =>
      cases h
      exact ⟨loc, hfind, rfl⟩
    · cases h
  · rintro ⟨loc, hfind, rfl⟩
    rw [hfind]

theorem modified?_eq_some {t : FileTree} {p : Path} {time : Int} :
    t.modified? p = some time ↔ ∃ loc content, t.find p = .ok (loc, .file content time) := by
  unfold modified?
  split <;> simp_all

theorem lookup_perm {nodes nodes' : List (Location × Node)} (h : nodes.Perm nodes')
    (hdistinct : (nodes.map Prod.fst).Nodup) (loc : Location) :
    nodes'.lookup loc = nodes.lookup loc := by
  induction h with
  | nil => rfl
  | cons e _ ih =>
    rw [List.map_cons, List.nodup_cons] at hdistinct
    rw [List.lookup_cons, List.lookup_cons, ih hdistinct.2]
  | swap e e' nodes =>
    obtain ⟨place, node⟩ := e
    obtain ⟨place', node'⟩ := e'
    have hne : place ≠ place' := fun he => by simp [he] at hdistinct
    simp only [List.lookup_cons]
    by_cases h₁ : loc = place
    · simp [h₁, beq_false_of_ne hne]
    · simp [beq_false_of_ne h₁]
  | trans h₁ _ ih₁ ih₂ =>
    rw [ih₂ ((h₁.map Prod.fst).nodup_iff.1 hdistinct), ih₁ hdistinct]

/-- The order in which a tree lists its nodes is not seen by `SameNodes`. -/
theorem sameNodes_of_perm {t : FileTree} {nodes : List (Location × Node)}
    (h : t.nodes.Perm nodes) (hdistinct : (t.nodes.map Prod.fst).Nodup) :
    SameNodes t { t with nodes := nodes } := by
  refine ⟨rfl, fun loc => ?_⟩
  unfold node?
  rw [lookup_perm h hdistinct]

end FileTree

namespace Screenshots

/-! ## The order of screenshots -/

/-- Where a screenshot stands in the order: its time counts first, then its name. -/
def Shot.rank (s : Shot) : Int ×ₗ List Nat := toLex (s.modified, s.name.map UInt8.toNat)

theorem Shot.newer_iff (a b : Shot) : a.newer b = true ↔ a.rank < b.rank := by
  rw [newer, rank, rank, Prod.Lex.toLex_lt_toLex]
  simp [Bytes.less_iff]

theorem Shot.rank_inj {a b : Shot} (h : a.rank = b.rank) : a = b := by
  obtain ⟨htime, hname⟩ : a.modified = b.modified ∧
      a.name.map UInt8.toNat = b.name.map UInt8.toNat := by
    simpa [rank] using h
  have hinj : Function.Injective UInt8.toNat := fun _ _ h => UInt8.toNat_inj.1 h
  have := List.map_injective_iff.2 hinj hname
  cases a
  cases b
  simp_all

/-- `keepNewer` answers the best so far or `y`, and what it answers is below neither. -/
theorem keepNewer_spec (best : Option Shot) (y : Shot) :
    ∃ z, keepNewer best y = some z ∧ (best = some z ∨ y = z) ∧ y.rank ≤ z.rank ∧
      ∀ x, best = some x → x.rank ≤ z.rank := by
  unfold keepNewer
  cases best with
  | none => exact ⟨y, rfl, .inr rfl, le_rfl, fun _ h => by cases h⟩
  | some n =>
    dsimp only
    split
    · next hnewer =>
      refine ⟨y, rfl, .inr rfl, le_rfl, fun x hx => ?_⟩
      cases hx
      exact le_of_lt ((n.newer_iff y).1 hnewer)
    · next hnot =>
      refine ⟨n, rfl, .inl rfl, le_of_not_gt fun h => hnot ((n.newer_iff y).2 h), ?_⟩
      rintro x ⟨⟩
      exact le_rfl

theorem foldl_keepNewer {shots : List Shot} {best : Option Shot} {s : Shot}
    (h : shots.foldl keepNewer best = some s) :
    (best = some s ∨ s ∈ shots) ∧
      ∀ x, best = some x ∨ x ∈ shots → x.rank ≤ s.rank := by
  induction shots generalizing best with
  | nil =>
    have hs : best = some s := h
    refine ⟨.inl hs, fun x hx => ?_⟩
    rcases hx with hx | hx
    · rw [hs] at hx
      cases hx
      exact le_rfl
    · exact absurd hx List.not_mem_nil
  | cons y ys ih =>
    obtain ⟨hmem, hle⟩ := ih h
    obtain ⟨z, hz, hwhich, hy, hbest⟩ := keepNewer_spec best y
    have hzs : z.rank ≤ s.rank := hle z (.inl hz)
    refine ⟨?_, fun x hx => ?_⟩
    · rcases hmem with hs | hs
      · rw [hz] at hs
        cases hs
        rcases hwhich with hbest | rfl
        · exact .inl hbest
        · exact .inr List.mem_cons_self
      · exact .inr (List.mem_cons_of_mem _ hs)
    · rcases hx with hx | hx
      · exact (hbest x hx).trans hzs
      · rcases List.mem_cons.1 hx with rfl | hx
        · exact hy.trans hzs
        · exact hle x (.inr hx)

/-- **`newest?` answers one of `shots`, and none of them is above it.** -/
theorem newest?_eq_some {shots : List Shot} {s : Shot} (h : newest? shots = some s) :
    s ∈ shots ∧ ∀ x ∈ shots, x.rank ≤ s.rank := by
  obtain ⟨hmem, hle⟩ := foldl_keepNewer h
  exact ⟨hmem.resolve_left (fun h => by cases h), fun x hx => hle x (.inr hx)⟩

theorem newest?_eq_none {shots : List Shot} (h : newest? shots = none) : shots = [] := by
  have hsome : ∀ (shots : List Shot) (best : Option Shot), best ≠ none →
      shots.foldl keepNewer best ≠ none := by
    intro shots
    induction shots with
    | nil => exact fun _ h => h
    | cons y ys ih =>
      intro best _
      refine ih _ ?_
      unfold keepNewer
      split
      · exact Option.some_ne_none y
      · split
        · exact Option.some_ne_none _
        · exact Option.some_ne_none _
  cases shots with
  | nil => rfl
  | cons y ys => exact absurd h (hsome ys _ (Option.some_ne_none y))

/-! ## The newest in a folder -/

/-- The folder at `loc` has the entry `s`, and `shot?` takes it for a screenshot. -/
def Held (t : FileTree) (folder : Path) (loc : Location) (s : Shot) : Prop :=
  s.name ∈ t.names loc ∧ shot? t folder s.name = some s

theorem shot?_eq_some {t : FileTree} {folder : Path} {name : Bytes} {s : Shot} :
    shot? t folder name = some s ↔ s.name = name ∧ isImageName name = true ∧
      ∃ loc content, t.find (folder.join ⟨name⟩) = .ok (loc, .file content s.modified) := by
  unfold shot?
  constructor
  · intro h
    split at h
    · next himage =>
      obtain ⟨time, htime, rfl⟩ := Option.map_eq_some_iff.1 h
      exact ⟨rfl, himage, FileTree.modified?_eq_some.1 htime⟩
    · cases h
  · rintro ⟨rfl, himage, hfind⟩
    rw [if_pos himage, FileTree.modified?_eq_some.2 hfind]
    rfl

theorem held_iff {t : FileTree} {folder : Path} {loc : Location} {s : Shot} :
    Held t folder loc s ↔ s ∈ (t.names loc).filterMap (shot? t folder) := by
  rw [List.mem_filterMap]
  constructor
  · exact fun h => ⟨s.name, h⟩
  · rintro ⟨name, hmem, hshot⟩
    obtain ⟨rfl, -⟩ := shot?_eq_some.1 hshot
    exact ⟨hmem, hshot⟩

theorem latest_eq {t : FileTree} {folder : Path} {loc : Location}
    (h : t.find folder = .ok (loc, .folder)) :
    latest t folder = .ok ((newest? ((t.names loc).filterMap (shot? t folder))).map
      fun s => folder.join ⟨s.name⟩) := by
  unfold latest
  rw [FileTree.list_eq_ok.2 ⟨loc, h, rfl⟩]

/-- `latest` answers the path of a screenshot that is `Held`, and none of those is above it. -/
theorem latest_eq_ok {t : FileTree} {folder p : Path} (h : latest t folder = .ok (some p)) :
    ∃ loc s, t.find folder = .ok (loc, .folder) ∧ p = folder.join ⟨s.name⟩ ∧
      Held t folder loc s ∧ ∀ x, Held t folder loc x → x.rank ≤ s.rank := by
  unfold latest at h
  split at h
  · cases h
  · cases h
  · next names hlist =>
    obtain ⟨loc, hfind, rfl⟩ := FileTree.list_eq_ok.1 hlist
    obtain ⟨s, hs, rfl⟩ := Option.map_eq_some_iff.1 (Except.ok.inj h)
    obtain ⟨hmem, hle⟩ := newest?_eq_some hs
    exact ⟨loc, s, hfind, rfl, held_iff.2 hmem, fun x hx => hle x (held_iff.1 hx)⟩

/-- Where a screenshot is `Held`, `latest` answers one. -/
theorem latest_of_held {t : FileTree} {folder : Path} {loc : Location} {s : Shot}
    (h : t.find folder = .ok (loc, .folder)) (hs : Held t folder loc s) :
    ∃ p, latest t folder = .ok (some p) := by
  rw [latest_eq h]
  cases hnewest : newest? ((t.names loc).filterMap (shot? t folder)) with
  | some x => exact ⟨_, rfl⟩
  | none =>
    have hmem := held_iff.1 hs
    rw [newest?_eq_none hnewest] at hmem
    exact absurd hmem List.not_mem_nil

/-! ## The answer -/

theorem newest?_eq_some_iff {shots : List Shot} {s : Shot} :
    newest? shots = some s ↔ s ∈ shots ∧ ∀ x ∈ shots, x.rank ≤ s.rank := by
  refine ⟨newest?_eq_some, fun ⟨hs, hmost⟩ => ?_⟩
  cases hnewest : newest? shots with
  | none =>
    rw [newest?_eq_none hnewest] at hs
    cases hs
  | some x =>
    obtain ⟨hx, hmost'⟩ := newest?_eq_some hnewest
    rw [Shot.rank_inj (le_antisymm (hmost x hx) (hmost' s hs))]

/-- `newest?` depends neither on the order of screenshots nor on their repetition. -/
theorem newest?_congr {shots shots' : List Shot} (h : ∀ s, s ∈ shots ↔ s ∈ shots') :
    newest? shots = newest? shots' := by
  apply Option.ext
  intro s
  simp only [newest?_eq_some_iff, h]

/-- **`latest` does not depend on the order of a listing.** -/
theorem latest_sameNodes {t t' : FileTree} (h : FileTree.SameNodes t t') (folder : Path) :
    latest t' folder = latest t folder := by
  have hshot : shot? t' folder = shot? t folder := by
    funext name
    unfold shot? FileTree.modified?
    rw [h.find]
  have hnames (loc : Location) (name : Bytes) : name ∈ t'.names loc ↔ name ∈ t.names loc := by
    rw [FileTree.mem_names, FileTree.mem_names, h.nodes]
  have hnewest (loc : Location) : newest? ((t'.names loc).filterMap (shot? t folder)) =
      newest? ((t.names loc).filterMap (shot? t folder)) := by
    refine newest?_congr fun s => ?_
    simp only [List.mem_filterMap, hnames]
  unfold latest FileTree.list
  rw [h.find, hshot]
  cases t.find folder with
  | error e => rfl
  | ok found =>
    obtain ⟨loc, node⟩ := found
    cases node with
    | folder =>
      dsimp only
      rw [hnewest]
    | file => rfl
    | link => rfl

theorem latest_atTime (t : FileTree) (time : Int) (folder : Path) :
    latest (t.atTime time) folder = latest t folder :=
  latest_sameNodes (t.sameNodes_atTime time) folder

/-- `s` is a screenshot among the entries of a folder: its path leads to a file, through any links,
and its name is a stem, a dot and `png` in letters of either case. -/
structure Shown (t : FileTree) (folder : Path) (loc : Location) (s : Shot) : Prop where
  entry : ∃ node, t.node? (loc ++ [s.name]) = some node
  file : ∃ place content, t.find (folder.join ⟨s.name⟩) = .ok (place, .file content s.modified)
  image : ∃ stem extension, stem ≠ [] ∧ s.name = stem ++ Path.dot :: Utf8.encode extension ∧
    Text.asciiLower extension = "png".toList

theorem held_iff_shown {t : FileTree} {folder : Path} {loc : Location} {s : Shot} :
    Held t folder loc s ↔ Shown t folder loc s := by
  unfold Held
  rw [FileTree.mem_names, shot?_eq_some, isImageName_iff]
  exact ⟨fun ⟨hentry, _, himage, hfile⟩ => ⟨hentry, hfile, himage⟩,
    fun ⟨hentry, hfile, himage⟩ => ⟨hentry, rfl, himage, hfile⟩⟩

theorem Shot.rank_le_iff (x s : Shot) : x.rank ≤ s.rank ↔ x = s ∨ x.modified < s.modified ∨
    x.modified = s.modified ∧ x.name.map UInt8.toNat < s.name.map UInt8.toNat := by
  have heq : x.rank = s.rank ↔ x = s := ⟨Shot.rank_inj, congrArg rank⟩
  rw [le_iff_eq_or_lt, heq, rank, rank, Prod.Lex.toLex_lt_toLex]

/-- `latest` answers none for a folder exactly where no screenshot is `Shown`. -/
theorem latest_eq_none_iff {t : FileTree} {folder : Path} {loc : Location}
    (h : t.find folder = .ok (loc, .folder)) :
    latest t folder = .ok none ↔ ∀ s, ¬ Shown t folder loc s := by
  constructor
  · intro hnone s hs
    obtain ⟨p, hp⟩ := latest_of_held h (held_iff_shown.2 hs)
    rw [hnone] at hp
    cases hp
  · intro hnone
    rw [latest_eq h]
    cases hnewest : newest? ((t.names loc).filterMap (shot? t folder)) with
    | none => rfl
    | some s => exact absurd (held_iff_shown.1 (held_iff.2 (newest?_eq_some hnewest).1)) (hnone s)

/-- Where `folder` leads to no folder, `latest` answers none or an error. -/
theorem latest_of_not_folder {t : FileTree} {folder : Path}
    (h : ∀ loc, t.find folder ≠ .ok (loc, .folder)) :
    t.find folder = .error .notFound ∧ latest t folder = .ok none ∨
      t.find folder ≠ .error .notFound ∧ ∃ e, latest t folder = .error e := by
  unfold latest FileTree.list
  cases hfind : t.find folder with
  | error e => cases e <;> simp
  | ok found =>
    obtain ⟨loc, node⟩ := found
    cases node with
    | folder => exact absurd hfind (h loc)
    | file => simp
    | link => simp

/-- **The newest screenshot of a folder.** For every order in which the folder lists its entries,
`latest` answers the screenshot that is `Shown` and greatest by time, and between equal times by the
bytes of its name. It answers none exactly where none is shown or the path leads nowhere, and an
error exactly where the path leads to something else or not to an end. -/
theorem latest_greatest (t : FileTree) (folder : Path) :
    (∀ t', FileTree.SameNodes t t' → latest t' folder = latest t folder) ∧
    (∀ p, latest t folder = .ok (some p) ↔
      ∃ loc s, t.find folder = .ok (loc, .folder) ∧ Shown t folder loc s ∧
        (∀ x, Shown t folder loc x → x = s ∨ x.modified < s.modified ∨
          x.modified = s.modified ∧ x.name.map UInt8.toNat < s.name.map UInt8.toNat) ∧
        p = folder.join ⟨s.name⟩) ∧
    (latest t folder = .ok none ↔ t.find folder = .error .notFound ∨
      ∃ loc, t.find folder = .ok (loc, .folder) ∧ ∀ s, ¬ Shown t folder loc s) ∧
    ((∃ e, latest t folder = .error e) ↔
      t.find folder ≠ .error .notFound ∧ ∀ loc, t.find folder ≠ .ok (loc, .folder)) := by
  refine ⟨fun t' h => latest_sameNodes h folder, fun p => ⟨fun h => ?_, ?_⟩, ?_⟩
  · obtain ⟨loc, s, hfind, hp, hs, hmost⟩ := latest_eq_ok h
    exact ⟨loc, s, hfind, held_iff_shown.1 hs,
      fun x hx => (Shot.rank_le_iff x s).1 (hmost x (held_iff_shown.2 hx)), hp⟩
  · rintro ⟨loc, s, hfind, hs, hmost, rfl⟩
    have hnewest : newest? ((t.names loc).filterMap (shot? t folder)) = some s := by
      refine newest?_eq_some_iff.2 ⟨held_iff.1 (held_iff_shown.2 hs), fun x hx => ?_⟩
      exact (Shot.rank_le_iff x s).2 (hmost x (held_iff_shown.1 (held_iff.2 hx)))
    rw [latest_eq hfind, hnewest]
    rfl
  by_cases hfolder : ∃ loc, t.find folder = .ok (loc, .folder)
  · obtain ⟨loc, hfind⟩ := hfolder
    refine ⟨?_, ?_⟩
    · rw [latest_eq_none_iff hfind, hfind]
      simp
    · rw [latest_eq hfind, hfind]
      simp
  · rw [not_exists] at hfolder
    rcases latest_of_not_folder hfolder with ⟨hmissing, hnone⟩ | ⟨hthere, e, herror⟩
    · simp [hmissing, hnone]
    · simp [herror, hthere, hfolder]

/-- A folder that is listed forwards and backwards. Two files are as new as each other, one of them
through a link; a folder, a link that leads nowhere and a name without a stem do not count. -/
theorem latest_greatest_backwards :
    let name (s : String) := Utf8.encode s.toList
    let t : FileTree := ⟨[([name "shots"], .folder),
      ([name "shots", name "a.PNG"], .file [1] 50), ([name "old"], .file [2] 50),
      ([name "shots", name "z.pNg"], .link (.ofString "../old")),
      ([name "shots", name "zz.png"], .folder), ([name "shots", name ".png"], .file [3] 99),
      ([name "shots", name "zzz.png"], .link (.ofString "missing"))], [], 0⟩
    let t' : FileTree := { t with nodes := t.nodes.reverse }
    let folder := Path.ofString "shots"
    FileTree.SameNodes t t' ∧ t'.names [name "shots"] = (t.names [name "shots"]).reverse ∧
      latest t folder = .ok (some (folder.child "z.pNg")) ∧
      latest t' folder = .ok (some (folder.child "z.pNg")) := by
  intro name t t' folder
  have hsame : FileTree.SameNodes t t' :=
    FileTree.sameNodes_of_perm (List.reverse_perm t.nodes).symm (by decide +kernel)
  have hlatest : latest t folder = .ok (some (folder.child "z.pNg")) := by decide +kernel
  exact ⟨hsame, by decide +kernel, hlatest, ((latest_greatest t folder).1 t' hsame).trans hlatest⟩

end Screenshots
end ClipLedger
