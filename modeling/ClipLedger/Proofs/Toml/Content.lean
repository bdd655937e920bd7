import ClipLedger.Proofs.Lists
import ClipLedger.Toml.Document

/-
  What a TOML document says. A table holds what its own lines set, by keys with periods between
  them, and the tables inside it, by their headers, in whatever order these come (`Outline`). The
  keys and headers that begin with one key make the value of that key (`ValueOf`): a value is set
  at the key itself, or what goes on behind the key makes a table, or a header opens this table
  once, or doubled headers open the elements of a list. There is no value in any other case, so
  nothing is set twice and no table is opened twice (`ValueOf.apart`). How the reader goes about
  it plays no part here.
-/
namespace ClipLedger.Toml

/-- Key paths with their values. -/
abbrev Sets := List (List Text × Toml)

/-! ## Below one key -/

/-- What is left of a path behind its first key, if that is `k`. -/
def behind? (k : Text) : List Text → Option (List Text)
  | k' :: ks => if k' = k then some ks else none
  | [] => none

/-- What is set below `k`, with the paths behind it. -/
def setsUnder (k : Text) (sets : Sets) : Sets :=
  sets.filterMap fun s => (behind? k s.1).map fun ks => (ks, s.2)

/-- The block as one of the table at `k`. -/
def Block.behind? (k : Text) (b : Block) : Option Block :=
  (Toml.behind? k b.path).map fun ks => { b with path := ks }

/-- The blocks whose headers begin with `k`, without it. -/
def blocksUnder (k : Text) (bs : List Block) : List Block := bs.filterMap (Block.behind? k)

/-- The first keys of what is set. -/
def setHeads (sets : Sets) : List Text := sets.filterMap fun s => s.1.head?

/-- The first keys of headers. -/
def blockHeads (bs : List Block) : List Text := bs.filterMap fun b => b.path.head?

theorem behind?_eq_some_iff {k : Text} {path ks : List Text} :
    behind? k path = some ks ↔ path = k :: ks := by
  cases path with
  | nil => simp [behind?]
  | cons k' ks' =>
    unfold behind?
    split
    · next h => simp [h]
    · next h => simp [h]

theorem mem_setsUnder {k : Text} {sets : Sets} {s : List Text × Toml} :
    s ∈ setsUnder k sets ↔ (k :: s.1, s.2) ∈ sets := by
  unfold setsUnder
  rw [List.mem_filterMap]
  constructor
  · rintro ⟨⟨path, v⟩, hmem, hs⟩
    obtain ⟨ks, hks, rfl⟩ := Option.map_eq_some_iff.1 hs
    rw [behind?_eq_some_iff] at hks
    rwa [← hks]
  · intro hmem
    exact ⟨_, hmem, by simp [behind?]⟩

theorem mem_blocksUnder {k : Text} {bs : List Block} {b : Block} :
    b ∈ blocksUnder k bs ↔ { b with path := k :: b.path } ∈ bs := by
  unfold blocksUnder
  rw [List.mem_filterMap]
  constructor
  · rintro ⟨⟨path, many, sets⟩, hmem, hb⟩
    obtain ⟨ks, hks, rfl⟩ := Option.map_eq_some_iff.1 hb
    rw [behind?_eq_some_iff] at hks
    rwa [← hks]
  · intro hmem
    exact ⟨_, hmem, by simp [Block.behind?, behind?]⟩

theorem mem_setHeads {k : Text} {sets : Sets} : k ∈ setHeads sets ↔ setsUnder k sets ≠ [] := by
  unfold setHeads
  rw [List.mem_filterMap]
  constructor
  · rintro ⟨⟨path, v⟩, hmem, hk⟩ hnil
    obtain ⟨ks, rfl⟩ := List.head?_eq_some_iff.1 hk
    have hin : (ks, v) ∈ setsUnder k sets := mem_setsUnder.2 hmem
    rw [hnil] at hin
    cases hin
  · intro h
    obtain ⟨s, hs⟩ := List.exists_mem_of_ne_nil _ h
    exact ⟨_, mem_setsUnder.1 hs, rfl⟩

theorem mem_blockHeads {k : Text} {bs : List Block} :
    k ∈ blockHeads bs ↔ blocksUnder k bs ≠ [] := by
  unfold blockHeads
  rw [List.mem_filterMap]
  constructor
  · rintro ⟨⟨path, many, sets⟩, hmem, hk⟩ hnil
    obtain ⟨ks, rfl⟩ := List.head?_eq_some_iff.1 hk
    have hin : ⟨ks, many, sets⟩ ∈ blocksUnder k bs := mem_blocksUnder.2 hmem
    rw [hnil] at hin
    cases hin
  · intro h
    obtain ⟨b, hb⟩ := List.exists_mem_of_ne_nil _ h
    exact ⟨_, mem_blocksUnder.1 hb, rfl⟩

@[simp] theorem setsUnder_nil (k : Text) : setsUnder k [] = [] := rfl

@[simp] theorem blocksUnder_nil (k : Text) : blocksUnder k [] = [] := rfl

theorem setsUnder_append (k : Text) (sets sets' : Sets) :
    setsUnder k (sets ++ sets') = setsUnder k sets ++ setsUnder k sets' := List.filterMap_append

theorem blocksUnder_append (k : Text) (bs bs' : List Block) :
    blocksUnder k (bs ++ bs') = blocksUnder k bs ++ blocksUnder k bs' := List.filterMap_append

theorem setsUnder_cons_self (k : Text) (ks : List Text) (v : Toml) (sets : Sets) :
    setsUnder k ((k :: ks, v) :: sets) = (ks, v) :: setsUnder k sets := by
  simp [setsUnder, behind?]

theorem setsUnder_cons_of_ne {k k' : Text} (h : k' ≠ k) (ks : List Text) (v : Toml) (sets : Sets) :
    setsUnder k ((k' :: ks, v) :: sets) = setsUnder k sets := by
  simp [setsUnder, behind?, h]

theorem blocksUnder_cons_self (k : Text) (ks : List Text) (many : Bool) (sets : Sets)
    (bs : List Block) :
    blocksUnder k (⟨k :: ks, many, sets⟩ :: bs) = ⟨ks, many, sets⟩ :: blocksUnder k bs := by
  simp [blocksUnder, Block.behind?, behind?]

theorem blocksUnder_cons_of_ne {k k' : Text} (h : k' ≠ k) (ks : List Text) (many : Bool)
    (sets : Sets) (bs : List Block) :
    blocksUnder k (⟨k' :: ks, many, sets⟩ :: bs) = blocksUnder k bs := by
  simp [blocksUnder, Block.behind?, behind?, h]

/-- The block of a table's own header is not inside the table. -/
@[simp] theorem blocksUnder_cons_nil (k : Text) (many : Bool) (sets : Sets) (bs : List Block) :
    blocksUnder k (⟨[], many, sets⟩ :: bs) = blocksUnder k bs := rfl

@[simp] theorem blockHeads_nil : blockHeads [] = [] := rfl

@[simp] theorem blockHeads_cons_nil (many : Bool) (sets : Sets) (bs : List Block) :
    blockHeads (⟨[], many, sets⟩ :: bs) = blockHeads bs := rfl

theorem blockHeads_append (bs bs' : List Block) :
    blockHeads (bs ++ bs') = blockHeads bs ++ blockHeads bs' := List.filterMap_append

/-! ## Tables and their values -/

/-- A table as a document gives it: what its own lines set, the blocks of the tables inside it, and
its pairs. -/
structure Outline where
  own : Sets
  inner : List Block
  pairs : List (Text × Toml)

/-- The keys of a table, each where it first comes up. -/
def Outline.keys (e : Outline) : List Text := (setHeads e.own ++ blockHeads e.inner).eraseDups

/-- Everything in the table has a key, and these are the keys of its pairs. -/
structure Outline.Keyed (e : Outline) : Prop where
  own : ∀ s ∈ e.own, s.1 ≠ []
  inner : ∀ b ∈ e.inner, b.path ≠ []
  pairs : e.pairs.map Prod.fst = e.keys

/-- The value that the sets and blocks below one key make. -/
inductive ValueOf : Sets → List Block → Toml → Prop
  | whole (v : Toml) : ValueOf [([], v)] [] v
  | implied (e : Outline) (keyed : e.Keyed) (nonempty : e.own ≠ [] ∨ e.inner ≠ [])
      (each : ∀ p ∈ e.pairs, ValueOf (setsUnder p.1 e.own) (blocksUnder p.1 e.inner) p.2) :
      ValueOf e.own e.inner (.table e.pairs)
  | opened (e : Outline) (keyed : e.Keyed) (before after : List Block)
      (inside : e.inner = before ++ after)
      (each : ∀ p ∈ e.pairs, ValueOf (setsUnder p.1 e.own) (blocksUnder p.1 e.inner) p.2) :
      ValueOf [] (before ++ ⟨[], false, e.own⟩ :: after) (.table e.pairs)
  | list (es : List Outline) (nonempty : es ≠ []) (keyed : ∀ e ∈ es, e.Keyed)
      (each : ∀ e ∈ es, ∀ p ∈ e.pairs,
        ValueOf (setsUnder p.1 e.own) (blocksUnder p.1 e.inner) p.2) :
      ValueOf [] (es.flatMap fun e => ⟨[], true, e.own⟩ :: e.inner)
        (.list (es.map fun e => .table e.pairs))

/-- The pairs are the values that everything in the table makes. -/
structure Outline.Sound (e : Outline) : Prop where
  keyed : e.Keyed
  each : ∀ p ∈ e.pairs, ValueOf (setsUnder p.1 e.own) (blocksUnder p.1 e.inner) p.2

namespace Outline.Keyed

variable {e : Outline} (h : e.Keyed)

include h

theorem nodup : (e.pairs.map Prod.fst).Nodup := by
  rw [h.pairs]
  exact nodup_eraseDups _

theorem mem_iff {k : Text} :
    k ∈ e.pairs.map Prod.fst ↔ setsUnder k e.own ≠ [] ∨ blocksUnder k e.inner ≠ [] := by
  rw [h.pairs, keys, List.mem_eraseDups, List.mem_append, mem_setHeads, mem_blockHeads]

/-- Whatever is set or opened below a key belongs to a pair of the table. -/
theorem exists_pair {k : Text} (hk : setsUnder k e.own ≠ [] ∨ blocksUnder k e.inner ≠ []) :
    ∃ p ∈ e.pairs, p.1 = k := List.mem_map.1 (h.mem_iff.2 hk)

end Outline.Keyed

/-! ## Nothing is set twice -/

/-- Neither key path leads through the other. -/
def Apart (s s' : List Text × Toml) : Prop := ¬ s.1 <+: s'.1 ∧ ¬ s'.1 <+: s.1

theorem apart_cons {k : Text} {ks ks' : List Text} {v v' : Toml} :
    Apart (k :: ks, v) (k :: ks', v') ↔ Apart (ks, v) (ks', v') := by
  simp [Apart, List.cons_prefix_cons]

theorem apart_of_ne {k k' : Text} (h : k ≠ k') (ks ks' : List Text) (v v' : Toml) :
    Apart (k :: ks, v) (k' :: ks', v') := by
  simp [Apart, List.cons_prefix_cons, h, h.symm]

/-- Paths are apart if those behind each key are. -/
theorem pairwise_apart_of_setsUnder {sets : Sets} (hne : ∀ s ∈ sets, s.1 ≠ [])
    (h : ∀ k, (setsUnder k sets).Pairwise Apart) : sets.Pairwise Apart := by
  induction sets with
  | nil => exact .nil
  | cons s sets ih =>
    obtain ⟨path, v⟩ := s
    cases path with
    | nil => exact absurd rfl (hne _ List.mem_cons_self)
    | cons k ks =>
      have hrest : ∀ s ∈ sets, s.1 ≠ [] := fun s hs => hne s (List.mem_cons_of_mem _ hs)
      refine List.pairwise_cons.2 ⟨?_, ih hrest fun k' => ?_⟩
      · rintro ⟨path', v'⟩ hmem
        cases path' with
        | nil => exact absurd rfl (hrest _ hmem)
        | cons k' ks' =>
          by_cases hk : k' = k
          · subst hk
            have hself := h k'
            rw [setsUnder_cons_self] at hself
            exact apart_cons.2 ((List.pairwise_cons.1 hself).1 _ (mem_setsUnder.2 hmem))
          · exact apart_of_ne (Ne.symm hk) _ _ _ _
      · have hk' := h k'
        by_cases hk : k = k'
        · subst hk
          rw [setsUnder_cons_self] at hk'
          exact (List.pairwise_cons.1 hk').2
        · rwa [setsUnder_cons_of_ne hk] at hk'

theorem Outline.Keyed.apart {e : Outline} (h : e.Keyed)
    (each : ∀ p ∈ e.pairs, (setsUnder p.1 e.own).Pairwise Apart) : e.own.Pairwise Apart := by
  refine pairwise_apart_of_setsUnder h.own fun k => ?_
  by_cases hk : setsUnder k e.own = []
  · rw [hk]
    exact .nil
  · obtain ⟨p, hp, rfl⟩ := h.exists_pair (.inl hk)
    exact each p hp

theorem ValueOf.apart {sets : Sets} {bs : List Block} {v : Toml} (h : ValueOf sets bs v) :
    sets.Pairwise Apart := by
  induction h with
  | whole v => exact List.pairwise_singleton _ _
  | implied e keyed _ _ ih => exact keyed.apart ih
  | opened => exact .nil
  | list => exact .nil

theorem Outline.Sound.apart {e : Outline} (h : e.Sound) : e.own.Pairwise Apart :=
  h.keyed.apart fun p hp => (h.each p hp).apart

end ClipLedger.Toml
