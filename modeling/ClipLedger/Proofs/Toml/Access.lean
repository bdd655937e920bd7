import ClipLedger.Proofs.Toml.Lookup

/-
  Looking a key up in what was read gives what the document says, table after table. Values that are
  no tables are found wherever they were set (`Serves.unique?_plain`). Tables are found, and are
  looked into in their turn (`Serves.unique?_table`), unless both a key from outside and a header
  lead into them (`Outline.Mixed`): such a table is there twice, and is not found
  (`Serves.unique?_mixed`).
-/
namespace ClipLedger.Toml

/-! ## Keys that lead to values -/

/-- The pairs of the table at `k`; none where there is no table. -/
def tableAt (k : Text) (pairs : List (Text × Toml)) : List (Text × Toml) :=
  match pairs.lookup k with
  | some (.table inner) => inner
  | _ => []

/-- The value that a path of keys leads to. -/
def valueAt : List Text → List (Text × Toml) → Option Toml
  | [], _ => none
  | [k], pairs => pairs.lookup k
  | k :: ks, pairs => valueAt ks (tableAt k pairs)

/-- The last key of a path is looked up in the table that those before it lead to. -/
theorem valueAt_concat (path : List Text) (k : Text) (pairs : List (Text × Toml)) :
    valueAt (path ++ [k]) pairs = (path.foldl (fun inner k => tableAt k inner) pairs).lookup k := by
  induction path generalizing pairs with
  | nil => rfl
  | cons k' path ih =>
    rw [List.foldl_cons, ← ih]
    cases path <;> rfl

/-- The value is neither a table nor a list. -/
def IsPlain : Toml → Prop
  | .table _ | .list _ => False
  | _ => True

/-- Every table that keys lead to has each of its keys once. -/
inductive Tidy : Toml → Prop
  | other {v : Toml} (noTable : ∀ pairs, v ≠ .table pairs) : Tidy v
  | table {pairs : List (Text × Toml)} (nodup : (pairs.map Prod.fst).Nodup)
      (each : ∀ p ∈ pairs, Tidy p.2) : Tidy (.table pairs)

theorem Tidy.nodup {pairs : List (Text × Toml)} (h : Tidy (.table pairs)) :
    (pairs.map Prod.fst).Nodup := by
  cases h with
  | other noTable => exact absurd rfl (noTable pairs)
  | table nodup each => exact nodup

theorem Tidy.lookup {pairs : List (Text × Toml)} (h : Tidy (.table pairs)) {k : Text} {v : Toml}
    (hv : pairs.lookup k = some v) : Tidy v := by
  cases h with
  | other noTable => exact absurd rfl (noTable pairs)
  | table nodup each => exact each _ (Fields.mem_of_lookup hv)

/-- The table of sets and blocks is tidy if the values in them are. -/
theorem ValueOf.tidy {sets : Sets} {bs : List Block} {v : Toml} (h : ValueOf sets bs v)
    (hsets : ∀ s ∈ sets, Tidy s.2) (hblocks : ∀ b ∈ bs, ∀ s ∈ b.sets, Tidy s.2) : Tidy v := by
  have hunder {own : Sets} {inner : List Block} (hown : ∀ s ∈ own, Tidy s.2)
      (hinner : ∀ b ∈ inner, ∀ s ∈ b.sets, Tidy s.2) (k : Text) :
      (∀ s ∈ setsUnder k own, Tidy s.2) ∧ ∀ b ∈ blocksUnder k inner, ∀ s ∈ b.sets, Tidy s.2 :=
    ⟨fun s hs => hown (k :: s.1, s.2) (mem_setsUnder.1 hs),
      fun b hb => hinner { b with path := k :: b.path } (mem_blocksUnder.1 hb)⟩
  induction h with
  | whole v => exact hsets _ List.mem_cons_self
  | implied e keyed _ _ ih =>
    refine .table keyed.nodup fun p hp => ?_
    obtain ⟨hs, hb⟩ := hunder hsets hblocks p.1
    exact ih p hp hs hb
  | opened e keyed before after inside _ ih =>
    have hinner : ∀ b ∈ e.inner, ∀ s ∈ b.sets, Tidy s.2 := fun b hb =>
      hblocks b ((Frames.headed e.own before after inside).mem hb)
    have hown : ∀ s ∈ e.own, Tidy s.2 :=
      hblocks ⟨[], false, e.own⟩ (List.mem_append_right _ List.mem_cons_self)
    refine .table keyed.nodup fun p hp => ?_
    obtain ⟨hs, hb⟩ := hunder hown hinner p.1
    exact ih p hp hs hb
  | list => exact .other fun pairs heq => by cases heq

theorem Outline.Sound.tidy {e : Outline} (h : e.Sound) (hown : ∀ s ∈ e.own, Tidy s.2)
    (hinner : ∀ b ∈ e.inner, ∀ s ∈ b.sets, Tidy s.2) : Tidy (.table e.pairs) :=
  .table h.keyed.nodup fun p hp => (h.each p hp).tidy
    (fun s hs => hown (p.1 :: s.1, s.2) (mem_setsUnder.1 hs))
    fun b hb => hinner { b with path := p.1 :: b.path } (mem_blocksUnder.1 hb)

/-! ## Tables that are set and opened -/

namespace Outline

/-- A line outside the table at `path` sets a key that leads to it or into it. -/
def SetsInto (e : Outline) (path : List Text) : Prop :=
  (∃ s ∈ e.own, path <+: s.1) ∨
    ∃ b ∈ e.inner, b.path.length < path.length ∧ ∃ s ∈ b.sets, path <+: b.path ++ s.1

/-- A header opens the table at `path`, or one inside it. -/
def Opens (e : Outline) (path : List Text) : Prop := ∃ b ∈ e.inner, path <+: b.path

/-- The table at `path` is set from outside and opened by a header. -/
def Mixed (e : Outline) (path : List Text) : Prop := e.SetsInto path ∧ e.Opens path

instance (e : Outline) (path : List Text) : Decidable (e.SetsInto path) :=
  inferInstanceAs (Decidable (_ ∨ _))

instance (e : Outline) (path : List Text) : Decidable (e.Opens path) :=
  inferInstanceAs (Decidable (∃ _, _ ∧ _))

instance (e : Outline) (path : List Text) : Decidable (e.Mixed path) :=
  inferInstanceAs (Decidable (_ ∧ _))

variable {e e' : Outline} {k : Text} {path : List Text}

theorem opens_key : e.Opens [k] ↔ blocksUnder k e.inner ≠ [] := by
  constructor
  · rintro ⟨⟨path, many, sets⟩, hb, ks, rfl⟩ hnil
    have hmem : ⟨ks, many, sets⟩ ∈ blocksUnder k e.inner := mem_blocksUnder.2 hb
    rw [hnil] at hmem
    cases hmem
  · intro h
    obtain ⟨b, hb⟩ := List.exists_mem_of_ne_nil _ h
    exact ⟨_, mem_blocksUnder.1 hb, b.path, rfl⟩

theorem Keyed.setsInto_key (h : e.Keyed) : e.SetsInto [k] ↔ setsUnder k e.own ≠ [] := by
  constructor
  · rintro (⟨⟨path, v⟩, hs, ks, rfl⟩ | ⟨b, hb, hshort, -⟩) hnil
    · have hmem : (ks, v) ∈ setsUnder k e.own := mem_setsUnder.2 hs
      rw [hnil] at hmem
      cases hmem
    · exact h.inner b hb (List.length_eq_zero_iff.1 (by simpa using hshort))
  · intro h
    obtain ⟨s, hs⟩ := List.exists_mem_of_ne_nil _ h
    exact .inl ⟨_, mem_setsUnder.1 hs, s.1, rfl⟩

theorem Opens.key (h : e.Opens (k :: path)) : e.Opens [k] := by
  obtain ⟨b, hb, hprefix⟩ := h
  exact ⟨b, hb, .trans ⟨path, rfl⟩ hprefix⟩

/-- Where no line sets `k`, what leads into a table inside stands in the table at `k`. -/
theorem setsInto_cons (h : e.Keyed) (hk : setsUnder k e.own = [])
    (hframes : Frames e'.inner e'.own (blocksUnder k e.inner)) (hpath : path ≠ []) :
    e.SetsInto (k :: path) ↔ e'.SetsInto path := by
  constructor
  · rintro (⟨⟨path', v⟩, hs, ks, rfl⟩ | ⟨⟨path', many, sets⟩, hb, hshort, s, hs, hprefix⟩)
    · have hunder : (path ++ ks, v) ∈ setsUnder k e.own := mem_setsUnder.2 hs
      rw [hk] at hunder
      cases hunder
    · cases path' with
      | nil => exact absurd rfl (h.inner _ hb)
      | cons k' ks =>
        obtain ⟨rfl, hbehind⟩ := List.cons_prefix_cons.1 hprefix
        rcases hframes.mem_or (mem_blocksUnder.2 hb : ⟨ks, many, sets⟩ ∈ _) with hb | hb
        · exact .inr ⟨_, hb, Nat.lt_of_succ_lt_succ hshort, s, hs, hbehind⟩
        · cases hb
          exact .inl ⟨s, hs, hbehind⟩
  · rintro (⟨s, hs, hprefix⟩ | ⟨b, hb, hshort, s, hs, hprefix⟩)
    · have hheader := mem_blocksUnder.1 (hframes.own_mem (List.ne_nil_of_mem hs))
      have hpos := List.length_pos_iff.2 hpath
      exact .inr ⟨_, hheader, by simpa using hpos, s, hs, List.cons_prefix_cons.2 ⟨rfl, hprefix⟩⟩
    · exact .inr ⟨_, mem_blocksUnder.1 (hframes.mem hb), Nat.succ_lt_succ hshort, s, hs,
        List.cons_prefix_cons.2 ⟨rfl, hprefix⟩⟩

theorem opens_cons (hframes : Frames e'.inner e'.own (blocksUnder k e.inner)) (hpath : path ≠ []) :
    e.Opens (k :: path) ↔ e'.Opens path := by
  constructor
  · rintro ⟨⟨path', many, sets⟩, hb, hprefix⟩
    cases path' with
    | nil => simp at hprefix
    | cons k' ks =>
      obtain ⟨rfl, hbehind⟩ := List.cons_prefix_cons.1 hprefix
      rcases hframes.mem_or (mem_blocksUnder.2 hb : ⟨ks, many, sets⟩ ∈ _) with hb | hb
      · exact ⟨_, hb, hbehind⟩
      · cases hb
        exact absurd (List.prefix_nil.1 hbehind) hpath
  · rintro ⟨b, hb, hprefix⟩
    exact ⟨_, mem_blocksUnder.1 (hframes.mem hb), List.cons_prefix_cons.2 ⟨rfl, hprefix⟩⟩

end Outline

/-! ## What is found -/

/-- What the reader made of a table, next to the pairs of the table and its mixed paths: pairs that
were put together from its own lines and from headers, or those of one value. -/
inductive Serves : List (Text × Toml) → List (Text × Toml) → (List Text → Prop) → Prop
  | made {e : Outline} {out : List (Text × Toml)} (made : Made e out)
      (tidy : Tidy (.table e.pairs)) : Serves out e.pairs e.Mixed
  | value {pairs : List (Text × Toml)} (tidy : Tidy (.table pairs)) :
      Serves pairs pairs fun _ => False

theorem Made.sound {e : Outline} {out : List (Text × Toml)} (h : Made e out) : e.Sound := by
  cases h with
  | mk sound short made => exact sound

namespace Serves

variable {out pairs : List (Text × Toml)} {mixed : List Text → Prop} {k : Text}

/-- **The value at `k` is found if it is no table.** -/
theorem unique?_plain (h : Serves out pairs mixed) (hk : ∀ v ∈ pairs.lookup k, IsPlain v) :
    Fields.unique? k out = some (pairs.lookup k) := by
  cases h with
  | value tidy => exact Fields.unique?_of_nodup tidy.nodup
  | @made e out made tidy =>
    refine made.unique?_plain (Classical.byContradiction fun hne => ?_)
    obtain ⟨⟨k, v⟩, hp, rfl⟩ := made.sound.keyed.exists_pair (.inr hne)
    have hplain := hk v (Fields.lookup_of_mem made.sound.keyed.nodup hp)
    have hvalue := made.sound.each _ hp
    dsimp only at hvalue hne
    generalize setsUnder k e.own = sets at hvalue
    generalize blocksUnder k e.inner = bs at hne hvalue
    cases hvalue with
    | whole => exact hne rfl
    | implied | opened | list => exact hplain

/-- A mixed table stands below a key that is there. -/
theorem exists_lookup (h : Serves out pairs mixed) {path : List Text}
    (hmixed : mixed (k :: path)) : ∃ v, pairs.lookup k = some v := by
  cases h with
  | value => exact hmixed.elim
  | made made tidy =>
    have hopen := Outline.opens_key.1 hmixed.2.key
    obtain ⟨p, hp, rfl⟩ := made.sound.keyed.exists_pair (.inr hopen)
    exact ⟨p.2, Fields.lookup_of_mem tidy.nodup hp⟩

/-- **A table that is not mixed is found, and looked into in its turn.** -/
theorem unique?_table (h : Serves out pairs mixed) {inner : List (Text × Toml)}
    (hk : pairs.lookup k = some (.table inner)) (hunmixed : ¬ mixed [k]) :
    ∃ out' mixed', Fields.unique? k out = some (some (.table out')) ∧ Serves out' inner mixed' ∧
      ∀ path, path ≠ [] → (mixed (k :: path) ↔ mixed' path) := by
  cases h with
  | value tidy =>
    refine ⟨inner, fun _ => False, ?_, .value (tidy.lookup hk), fun _ _ => Iff.rfl⟩
    rw [Fields.unique?_of_nodup tidy.nodup, hk]
  | @made e out made tidy =>
    by_cases hblocks : blocksUnder k e.inner = []
    · refine ⟨inner, fun _ => False, ?_, .value (tidy.lookup hk), fun path _ => ?_⟩
      · rw [made.unique?_plain hblocks, hk]
      · exact ⟨fun h => Outline.opens_key.1 h.2.key hblocks, False.elim⟩
    · have hsets : setsUnder k e.own = [] := Classical.byContradiction fun hne =>
        hunmixed ⟨made.sound.keyed.setsInto_key.2 hne, Outline.opens_key.2 hblocks⟩
      obtain ⟨e', out', rfl, hframes, hmade, hfound⟩ := made.unique?_table hsets hk
      exact ⟨out', e'.Mixed, hfound, .made hmade (tidy.lookup hk), fun path hpath =>
        and_congr (Outline.setsInto_cons made.sound.keyed hsets hframes hpath)
          (Outline.opens_cons hframes hpath)⟩

/-- `unique?_table` for a table that may be missing: then it is like an empty one. -/
theorem unique?_tableAt (h : Serves out pairs mixed)
    (hk : ∀ v ∈ pairs.lookup k, ∃ inner, v = .table inner) (hunmixed : ¬ mixed [k]) :
    ∃ found out' mixed', Fields.unique? k out = some found ∧
      (found = some (.table out') ∨ found = none ∧ out' = []) ∧
      Serves out' (tableAt k pairs) mixed' ∧
      ∀ path, path ≠ [] → (mixed (k :: path) ↔ mixed' path) := by
  cases hv : pairs.lookup k with
  | none =>
    have hfound := h.unique?_plain (k := k) fun v hv' => by simp [hv] at hv'
    have hempty : tableAt k pairs = [] := by rw [tableAt, hv]
    refine ⟨none, [], fun _ => False, by rw [hfound, hv], .inr ⟨rfl, rfl⟩, ?_, fun path _ => ?_⟩
    · rw [hempty]
      exact .value (.table List.nodup_nil (List.forall_mem_nil _))
    · refine ⟨fun hmixed => ?_, False.elim⟩
      obtain ⟨v, hv'⟩ := h.exists_lookup hmixed
      rw [hv] at hv'
      cases hv'
  | some v =>
    obtain ⟨inner, rfl⟩ := hk v hv
    obtain ⟨out', mixed', hfound, hserves, hiff⟩ := h.unique?_table hv hunmixed
    have hinner : tableAt k pairs = inner := by rw [tableAt, hv]
    exact ⟨_, out', mixed', hfound, .inl rfl, hinner ▸ hserves, hiff⟩

/-- **A table that is mixed is there twice.** -/
theorem unique?_mixed (h : Serves out pairs mixed) (hk : mixed [k]) :
    Fields.unique? k out = none := by
  cases h with
  | value => exact hk.elim
  | made made tidy =>
    obtain ⟨hset, hopen⟩ := hk
    exact made.unique?_twice (made.sound.keyed.setsInto_key.1 hset) (Outline.opens_key.1 hopen)

end Serves
end ClipLedger.Toml
