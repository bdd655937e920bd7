import ClipLedger.Proofs.Toml.Build

/-
  Tables inside tables. The reader gathers what stands below each first key of the headers, in the
  order in which the keys come up (`groups_asSection`), and goes on below each of them. Whatever the
  order of the headers, it makes a value below every key (`ValueOf.groupValue?`). The pairs that it
  makes of a table are those of the table's own lines and then one for each table inside
  (`Frames.assembles`); a key that came up in both ways is there twice.
-/
namespace ClipLedger.Toml

/-- The section of a block, if its key paths can be inserted. -/
def Block.asSection (b : Block) : Section := ⟨b.path, b.many, (build? b.sets).getD []⟩

/-! ## Groups -/

/-- `addTo` puts a section at the end of its group, or makes a new one. -/
theorem addTo_map {keys : List Text} (hnodup : keys.Nodup) (k : Text) (s : Section)
    {f f' : Text → List Section} (hself : f' k = f k ++ [s]) (hnew : k ∉ keys → f k = [])
    (hother : ∀ k', k' ≠ k → f' k' = f k') :
    addTo k s (keys.map fun k' => (k', f k')) =
      (if k ∈ keys then keys else keys ++ [k]).map fun k' => (k', f' k') := by
  induction keys with
  | nil => simp [addTo, hself, hnew List.not_mem_nil]
  | cons key keys ih =>
    rw [List.nodup_cons] at hnodup
    rw [List.map_cons, addTo]
    by_cases hk : k = key
    · subst hk
      have hrest : keys.map (fun k' => (k', f k')) = keys.map fun k' => (k', f' k') := by
        refine List.map_congr_left fun k' hk' => ?_
        rw [hother k' fun h => hnodup.1 (h ▸ hk')]
      rw [if_pos rfl, if_pos List.mem_cons_self, List.map_cons, hrest, hself]
    · rw [if_neg hk, ih hnodup.2 fun h => hnew (by simp [hk, h])]
      by_cases hmem : k ∈ keys
      · simp [hmem, hother key (Ne.symm hk)]
      · simp [hmem, hk, hother key (Ne.symm hk)]

/-- The groups that the sections of `bs` make. -/
def groupsOf (bs : List Block) : List Group :=
  (blockHeads bs).eraseDups.map fun k => (k, (blocksUnder k bs).map Block.asSection)

/-- One step of `groups`. -/
theorem groupsOf_concat (bs : List Block) (b : Block) :
    groupsOf (bs ++ [b]) = match b.path with
      | [] => groupsOf bs
      | k :: ks => addTo k { b.asSection with path := ks } (groupsOf bs) := by
  obtain ⟨path, many, sets⟩ := b
  cases path with
  | nil => simp [groupsOf, blockHeads_append, blocksUnder_append]
  | cons k ks =>
    have hheads : blockHeads (bs ++ [⟨k :: ks, many, sets⟩]) = blockHeads bs ++ [k] :=
      blockHeads_append _ _
    have hkeys : (if k ∈ blockHeads bs then (blockHeads bs).eraseDups
        else (blockHeads bs).eraseDups ++ [k]) =
        if k ∈ (blockHeads bs).eraseDups then (blockHeads bs).eraseDups
        else (blockHeads bs).eraseDups ++ [k] := by
      simp only [List.mem_eraseDups]
    unfold groupsOf
    rw [hheads, eraseDups_concat, hkeys]
    symm
    refine addTo_map (nodup_eraseDups _) k _ ?_ ?_ ?_
    · rw [blocksUnder_append, blocksUnder_cons_self, List.map_append]
      rfl
    · rw [List.mem_eraseDups, mem_blockHeads, Classical.not_not]
      intro hnil
      rw [hnil, List.map_nil]
    · intro k' hk'
      rw [blocksUnder_append, blocksUnder_cons_of_ne (Ne.symm hk'), blocksUnder_nil,
        List.append_nil]

theorem groups_asSection (bs : List Block) : groups (bs.map Block.asSection) = groupsOf bs := by
  have hrun (more : List Block) : ∀ bs,
      (more.map Block.asSection).foldl (fun gs s => match s.path with
        | [] => gs
        | k :: ks => addTo k { s with path := ks } gs) (groupsOf bs) = groupsOf (bs ++ more) := by
    induction more with
    | nil => simp
    | cons b more ih =>
      intro bs
      have hstep := groupsOf_concat bs b
      rw [List.map_cons, List.foldl_cons, List.append_cons, ← ih, hstep]
      rfl
  exact hrun bs []

/-! ## Elements of lists -/

theorem elements_cons (s : Section) (rest : List Section) :
    ∃ e more, elements (s :: rest) = (s :: e) :: more := by
  rw [elements]
  split
  · exact ⟨[], [], rfl⟩
  · next e more _ =>
    split
    · split
      · exact ⟨[], _, rfl⟩
      · exact ⟨_, more, rfl⟩
    · exact ⟨[], more, rfl⟩

/-- An element goes on up to the next that is opened. -/
theorem elements_append (s : Section) {inside rest : List Section}
    (hinside : ∀ s ∈ inside, s.opensElement = false)
    (hrest : ∀ s ∈ rest.head?, s.opensElement = true) :
    elements (s :: (inside ++ rest)) = (s :: inside) :: elements rest := by
  induction inside generalizing s with
  | nil =>
    cases rest with
    | nil => rfl
    | cons r rest =>
      obtain ⟨e, more, helements⟩ := elements_cons r rest
      rw [List.nil_append, elements, helements]
      simp [hrest r rfl]
  | cons s' inside ih =>
    have hs' := hinside s' List.mem_cons_self
    rw [List.cons_append, elements, ih s' fun t ht => hinside t (List.mem_cons_of_mem _ ht)]
    simp [hs']

/-- The section that opens an element. -/
def opening (own : Sets) : Section := Block.asSection ⟨[], true, own⟩

theorem opensElement_asSection {b : Block} (h : b.path ≠ []) :
    b.asSection.opensElement = false := by
  simp [Section.opensElement, Block.asSection, h]

theorem elements_outlines {es : List Outline} (h : ∀ e ∈ es, ∀ b ∈ e.inner, b.path ≠ []) :
    elements ((es.flatMap fun e => ⟨[], true, e.own⟩ :: e.inner).map Block.asSection) =
      es.map fun e => opening e.own :: e.inner.map Block.asSection := by
  induction es with
  | nil => rfl
  | cons e es ih =>
    have hinside : ∀ s ∈ e.inner.map Block.asSection, s.opensElement = false := by
      intro s hs
      obtain ⟨b, hb, rfl⟩ := List.mem_map.1 hs
      exact opensElement_asSection (h e List.mem_cons_self b hb)
    rw [List.flatMap_cons, List.map_append, List.map_cons, List.cons_append,
      elements_append _ hinside, List.map_cons,
      ih fun e he => h e (List.mem_cons_of_mem _ he)]
    · rfl
    · intro s hs
      cases es with
      | nil => cases hs
      | cons e' es =>
        cases hs
        rfl

/-! ## Assembly -/

/-- The value that the sections below one key make. -/
def groupValue? (n : Nat) : List Section → Option Toml
  | first :: rest =>
    if first.opensElement then
      ((elements (first :: rest)).mapM fun e => (assemble? n (asElement e)).map Toml.table).map
        Toml.list
    else (assemble? n (first :: rest)).map Toml.table
  | [] => none

theorem assemble?_succ (n : Nat) (ss : List Section) :
    assemble? (n + 1) ss =
      let inside := (groups ss).mapM fun g => (groupValue? n g.2).map fun v => (g.1, v)
      match ss.filter fun s => s.path == [] with
      | [] => inside
      | [s] => if s.many then none else inside.map (s.pairs ++ ·)
      | _ => none := by
  have hinside : ∀ f : Group → Option (Text × Toml),
      (∀ g, f g = (groupValue? n g.2).map fun v => (g.1, v)) →
      (groups ss).mapM f = (groups ss).mapM fun g => (groupValue? n g.2).map fun v => (g.1, v) :=
    fun f hf => by rw [funext hf]
  rw [assemble?]
  refine hinside _ ?_ ▸ rfl
  rintro ⟨k, _ | ⟨s, ss⟩⟩
  · rfl
  · simp only [groupValue?]
    split <;> rw [Option.map_map] <;> rfl

/-- The blocks of one table: those `inner` to it, with the block of its own header if it has
one. -/
inductive Frames (inner : List Block) : Sets → List Block → Prop
  | bare : Frames inner [] inner
  | headed (own : Sets) (before after : List Block) (inside : inner = before ++ after) :
      Frames inner own (before ++ ⟨[], false, own⟩ :: after)

namespace Frames

variable {inner : List Block} {own : Sets} {bs : List Block} (h : Frames inner own bs)

include h

theorem groups_eq : groups (bs.map Block.asSection) = groupsOf inner := by
  rw [groups_asSection]
  cases h with
  | bare => rfl
  | headed _ before after inside =>
    simp [groupsOf, inside, blockHeads_append, blocksUnder_append]

/-- What is made inside a table stands behind what its own lines set. -/
theorem assemble?_eq (hinner : ∀ b ∈ inner, b.path ≠ []) (n : Nat) :
    assemble? (n + 1) (bs.map Block.asSection) =
      ((groupsOf inner).mapM fun g => (groupValue? n g.2).map fun v => (g.1, v)).map
        ((build? own).getD [] ++ ·) := by
  have hnone : ∀ {bs : List Block}, (∀ b ∈ bs, b.path ≠ []) →
      ((bs.map Block.asSection).filter fun s => s.path == []) = [] := by
    intro bs hbs
    rw [List.filter_map, List.map_eq_nil_iff, List.filter_eq_nil_iff]
    exact fun b hb => by simpa [Block.asSection] using hbs b hb
  rw [assemble?_succ, h.groups_eq]
  cases h with
  | bare =>
    rw [hnone hinner]
    exact Option.map_id'.symm
  | headed _ before after inside =>
    subst inside
    rw [List.map_append, List.filter_append, hnone fun b hb => hinner b (by simp [hb]),
      List.map_cons, List.nil_append, List.filter_cons_of_pos (by rfl),
      hnone fun b hb => hinner b (by simp [hb])]
    rfl

end Frames

/-- `pairs` are what the reader makes of the tables inside a table, one for each first key of their
headers. -/
structure Inside (n : Nat) (inner : List Block) (pairs : List (Text × Toml)) : Prop where
  keys : pairs.map Prod.fst = (blockHeads inner).eraseDups
  values : ∀ p ∈ pairs,
    groupValue? n ((blocksUnder p.1 inner).map Block.asSection) = some p.2

/-- Each group that has a value gives a pair, in the order of the keys. -/
theorem mapM_groups {n : Nat} {keys : List Text} {f : Text → List Section}
    (h : ∀ k ∈ keys, ∃ v, groupValue? n (f k) = some v) :
    ∃ pairs, ((keys.map fun k => (k, f k)).mapM fun g : Group =>
        (groupValue? n g.2).map fun v => (g.1, v)) = some pairs ∧
      pairs.map Prod.fst = keys ∧ ∀ p ∈ pairs, groupValue? n (f p.1) = some p.2 := by
  induction keys with
  | nil => exact ⟨[], rfl, rfl, List.forall_mem_nil _⟩
  | cons k keys ih =>
    obtain ⟨v, hv⟩ := h k List.mem_cons_self
    obtain ⟨pairs, hpairs, hkeys, hvalues⟩ := ih fun k' hk' => h k' (List.mem_cons_of_mem _ hk')
    refine ⟨(k, v) :: pairs, ?_, by simp [hkeys], List.forall_mem_cons.2 ⟨hv, hvalues⟩⟩
    rw [List.map_cons, List.mapM_cons, hv, hpairs]
    rfl

/-- The headers of `bs` are shorter than `n`. -/
def Shorter (n : Nat) (bs : List Block) : Prop := ∀ b ∈ bs, b.path.length < n

theorem Shorter.blocksUnder {n : Nat} {bs : List Block} (h : Shorter (n + 1) bs) (k : Text) :
    Shorter n (blocksUnder k bs) := by
  intro b hb
  have hlong := h _ (mem_blocksUnder.1 hb)
  simp only [List.length_cons] at hlong
  omega

theorem Frames.mem {inner : List Block} {own : Sets} {bs : List Block} (h : Frames inner own bs)
    {b : Block} (hb : b ∈ inner) : b ∈ bs := by
  cases h with
  | bare => exact hb
  | headed _ before after inside =>
    subst inside
    simp only [List.mem_append, List.mem_cons] at hb ⊢
    exact hb.imp_right .inr

/-- Of the blocks of a table only that of its own header is not inside it. -/
theorem Frames.mem_or {inner : List Block} {own : Sets} {bs : List Block} (h : Frames inner own bs)
    {b : Block} (hb : b ∈ bs) : b ∈ inner ∨ b = ⟨[], false, own⟩ := by
  cases h with
  | bare => exact .inl hb
  | headed _ before after inside =>
    subst inside
    simp only [List.mem_append, List.mem_cons] at hb ⊢
    rcases hb with hb | hb | hb
    · exact .inl (.inl hb)
    · exact .inr hb
    · exact .inl (.inr hb)

/-- What a table sets by itself stands behind its own header. -/
theorem Frames.own_mem {inner : List Block} {own : Sets} {bs : List Block}
    (h : Frames inner own bs) (hne : own ≠ []) : ⟨[], false, own⟩ ∈ bs := by
  cases h with
  | bare => exact absurd rfl hne
  | headed => exact List.mem_append_right _ List.mem_cons_self

/-- The reader makes a value of the blocks below one key, if there are any. -/
def Valued (bs : List Block) : Prop :=
  ∀ n, bs ≠ [] → Shorter n bs → ∃ v, groupValue? n (bs.map Block.asSection) = some v

/-- **The pairs that the reader makes of a table**: those of its own lines, and then those of the
tables inside. -/
theorem Frames.assembles {inner : List Block} {own : Sets} {bs : List Block}
    (h : Frames inner own bs) (hinner : ∀ b ∈ inner, b.path ≠ [])
    (hvalued : ∀ k, Valued (blocksUnder k inner)) {n : Nat} (hshort : Shorter (n + 1) bs) :
    ∃ inside, Inside n inner inside ∧
      assemble? (n + 1) (bs.map Block.asSection) = some ((build? own).getD [] ++ inside) := by
  have hshort' : Shorter (n + 1) inner := fun b hb => hshort b (h.mem hb)
  obtain ⟨inside, hmap, hkeys, hvalues⟩ := mapM_groups fun k hk =>
    hvalued k n (mem_blockHeads.1 (List.mem_eraseDups.1 hk)) (hshort'.blocksUnder k)
  refine ⟨inside, ⟨hkeys, hvalues⟩, ?_⟩
  rw [h.assemble?_eq hinner, groupsOf, hmap]
  rfl

/-- The blocks of a table that is opened once at most make a table. -/
theorem Frames.groupValue? {inner : List Block} {own : Sets} {bs : List Block}
    (h : Frames inner own bs) (hinner : ∀ b ∈ inner, b.path ≠ []) (hne : bs ≠ []) (n : Nat) :
    groupValue? n (bs.map Block.asSection) =
      (assemble? n (bs.map Block.asSection)).map Toml.table := by
  cases bs with
  | nil => exact absurd rfl hne
  | cons b bs =>
    have hfirst : b.asSection.opensElement = false := by
      generalize hbs : b :: bs = all at h
      cases h with
      | bare => exact opensElement_asSection (hinner b (by simp [← hbs]))
      | headed _ before after inside =>
        cases before with
        | nil =>
          cases hbs
          rfl
        | cons b' before =>
          cases hbs
          exact opensElement_asSection (hinner b (by simp [inside]))
    rw [List.map_cons, Toml.groupValue?, hfirst]
    rfl

/-- Blocks with doubled headers make a list, each with those up to the next one. -/
theorem groupValue?_outlines {es : List Outline} (hne : es ≠ [])
    (hinner : ∀ e ∈ es, ∀ b ∈ e.inner, b.path ≠ []) (n : Nat) :
    groupValue? n ((es.flatMap fun e => ⟨[], true, e.own⟩ :: e.inner).map Block.asSection) =
      (es.mapM fun e => (assemble? n ((⟨[], false, e.own⟩ :: e.inner).map Block.asSection)).map
        Toml.table).map Toml.list := by
  have helements := elements_outlines hinner
  generalize hss : (es.flatMap fun e => ⟨[], true, e.own⟩ :: e.inner).map Block.asSection = ss
    at helements ⊢
  cases es with
  | nil => exact absurd rfl hne
  | cons e es =>
    cases ss with
    | nil => cases hss
    | cons first rest =>
      have hfirst : first.opensElement = true := by
        cases hss
        rfl
      rw [groupValue?, if_pos hfirst, helements, List.mapM_map]
      rfl

/-- Keys without blocks need no value. -/
theorem Outline.Keyed.valued {e : Outline} (h : e.Keyed)
    (each : ∀ p ∈ e.pairs, Valued (blocksUnder p.1 e.inner)) (k : Text) :
    Valued (blocksUnder k e.inner) := by
  intro n hne hshort
  obtain ⟨p, hp, rfl⟩ := h.exists_pair (.inr hne)
  exact each p hp n hne hshort

/-- **Whatever a document opens below a key, the reader makes a value of it.** -/
theorem ValueOf.valued {sets : Sets} {bs : List Block} {v : Toml} (h : ValueOf sets bs v) :
    Valued bs := by
  have htable {e : Outline} (keyed : e.Keyed) (ih : ∀ p ∈ e.pairs, Valued (blocksUnder p.1 e.inner))
      {own : Sets} {bs : List Block} (hframes : Frames e.inner own bs) {n : Nat} (hne : bs ≠ [])
      (hshort : Shorter n bs) : ∃ pairs, assemble? n (bs.map Block.asSection) = some pairs := by
    obtain ⟨b, hb⟩ := List.exists_mem_of_ne_nil _ hne
    obtain ⟨m, rfl⟩ := Nat.exists_eq_succ_of_ne_zero (Nat.ne_zero_of_lt (hshort b hb))
    obtain ⟨inside, -, hassemble⟩ := hframes.assembles keyed.inner (keyed.valued ih) hshort
    exact ⟨_, hassemble⟩
  induction h with
  | whole v => exact fun n hne => absurd rfl hne
  | implied e keyed _ _ ih =>
    intro n hne hshort
    obtain ⟨pairs, hpairs⟩ := htable keyed ih .bare hne hshort
    exact ⟨.table pairs, by rw [Frames.bare.groupValue? keyed.inner hne, hpairs]; rfl⟩
  | opened e keyed before after inside _ ih =>
    intro n hne hshort
    have hframes := Frames.headed e.own before after inside
    obtain ⟨pairs, hpairs⟩ := htable keyed ih hframes hne hshort
    exact ⟨.table pairs, by rw [hframes.groupValue? keyed.inner hne, hpairs]; rfl⟩
  | list es nonempty keyed _ ih =>
    intro n _ hshort
    rw [groupValue?_outlines nonempty fun e he => (keyed e he).inner]
    -- Each element is a table of its own, with a header.
    have helement : ∀ e ∈ es, ∃ item, (assemble? n
        ((⟨[], false, e.own⟩ :: e.inner).map Block.asSection)).map Toml.table = some item := by
      intro e he
      have hshort' : Shorter n (⟨[], false, e.own⟩ :: e.inner) := by
        refine List.forall_mem_cons.2 ⟨?_, fun b hb => ?_⟩
        · exact hshort ⟨[], true, e.own⟩ (List.mem_flatMap.2 ⟨e, he, List.mem_cons_self⟩)
        · exact hshort _ (List.mem_flatMap.2 ⟨e, he, List.mem_cons_of_mem _ hb⟩)
      obtain ⟨pairs, hpairs⟩ :=
        htable (keyed e he) (ih e he) (.headed e.own [] e.inner rfl) (by simp) hshort'
      exact ⟨.table pairs, Option.map_eq_some_iff.2 ⟨pairs, hpairs, rfl⟩⟩
    obtain ⟨items, hitems⟩ := exists_mapM helement
    rw [hitems]
    exact ⟨.list items, rfl⟩

/-! ## Blocks -/

/-- The key paths of each block can be inserted. -/
def Buildable (bs : List Block) : Prop := ∀ b ∈ bs, ∃ pairs, build? b.sets = some pairs

theorem Frames.buildable {inner : List Block} {own : Sets} {bs : List Block}
    (h : Frames inner own bs) (hown : ∃ pairs, build? own = some pairs) (hinner : Buildable inner) :
    Buildable bs := by
  intro b hb
  rcases h.mem_or hb with hb | rfl
  · exact hinner b hb
  · exact hown

theorem Outline.Sound.exists_build? {e : Outline} (h : e.Sound) :
    ∃ pairs, build? e.own = some pairs := by
  obtain ⟨grown, hbuild, -⟩ := build?_grown h.keyed.own h.apart
  exact ⟨_, hbuild⟩

theorem Outline.Keyed.buildable {e : Outline} (h : e.Keyed)
    (each : ∀ p ∈ e.pairs, Buildable (blocksUnder p.1 e.inner)) : Buildable e.inner := by
  rintro ⟨path, many, sets⟩ hb
  cases path with
  | nil => exact absurd rfl (h.inner _ hb)
  | cons k ks =>
    have hmem : ⟨ks, many, sets⟩ ∈ blocksUnder k e.inner := mem_blocksUnder.2 hb
    obtain ⟨p, hp, rfl⟩ := h.exists_pair (.inr (List.ne_nil_of_mem hmem))
    exact each p hp ⟨ks, many, sets⟩ hmem

theorem ValueOf.buildable {sets : Sets} {bs : List Block} {v : Toml} (h : ValueOf sets bs v) :
    Buildable bs := by
  induction h with
  | whole v => exact List.forall_mem_nil _
  | implied e keyed _ _ ih => exact keyed.buildable ih
  | opened e keyed before after inside each ih =>
    have hown := Outline.Sound.exists_build? ⟨keyed, each⟩
    exact (Frames.headed e.own before after inside).buildable hown (keyed.buildable ih)
  | list es nonempty keyed each ih =>
    intro b hb
    obtain ⟨e, he, hb⟩ := List.mem_flatMap.1 hb
    rcases List.mem_cons.1 hb with rfl | hb
    · exact Outline.Sound.exists_build? ⟨keyed e he, each e he⟩
    · exact (keyed e he).buildable (ih e he) b hb

theorem Outline.Sound.buildable {e : Outline} (h : e.Sound) : Buildable e.inner :=
  h.keyed.buildable fun p hp => (h.each p hp).buildable

/-- The sections of blocks that are `Buildable`. -/
theorem mapM_section? {bs : List Block} (h : Buildable bs) :
    bs.mapM Block.section? = some (bs.map Block.asSection) := by
  induction bs with
  | nil => rfl
  | cons b bs ih =>
    obtain ⟨pairs, hpairs⟩ := h b List.mem_cons_self
    rw [List.mapM_cons, ih fun b' hb' => h b' (List.mem_cons_of_mem _ hb'), Block.section?, hpairs]
    simp [Block.asSection, hpairs]

end ClipLedger.Toml
