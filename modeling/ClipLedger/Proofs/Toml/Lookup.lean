import ClipLedger.Fields
import ClipLedger.Proofs.Toml.Assembly

/-
  Looking keys up in what was made of one table. A key that no header opens has exactly the value
  that the document gives it (`Made.unique?_plain`). A key that no dotted key sets has the table
  that the headers open, made in its turn (`Made.unique?_table`). A key where dotted keys and
  headers meet is there twice, and looking it up fails (`Made.unique?_twice`).
-/
namespace ClipLedger

namespace Fields

variable {α : Type} {k : Text} {xs ys : List (Text × α)}

theorem filter_eq_nil_of_notMem (h : k ∉ xs.map Prod.fst) :
    xs.filter (fun f => f.1 == k) = [] :=
  List.filter_eq_nil_iff.2 fun f hf hk => h (List.mem_map.2 ⟨f, hf, by simpa using hk⟩)

theorem unique?_append_left (h : k ∉ ys.map Prod.fst) :
    unique? k (xs ++ ys) = unique? k xs := by
  rw [unique?, unique?, List.filter_append, filter_eq_nil_of_notMem h, List.append_nil]

theorem unique?_append_right (h : k ∉ xs.map Prod.fst) :
    unique? k (xs ++ ys) = unique? k ys := by
  rw [unique?, unique?, List.filter_append, filter_eq_nil_of_notMem h, List.nil_append]

theorem unique?_append_both (h : k ∈ xs.map Prod.fst) (h' : k ∈ ys.map Prod.fst) :
    unique? k (xs ++ ys) = none := by
  have hfilter {zs : List (Text × α)} (h : k ∈ zs.map Prod.fst) :
      ∃ f fs, zs.filter (fun f => f.1 == k) = f :: fs := by
    obtain ⟨f, hf, rfl⟩ := List.mem_map.1 h
    exact List.exists_cons_of_ne_nil (List.ne_nil_of_mem (List.mem_filter.2 ⟨hf, by simp⟩))
  obtain ⟨f, fs, hxs⟩ := hfilter h
  obtain ⟨f', fs', hys⟩ := hfilter h'
  rw [unique?, List.filter_append, hxs, hys]
  cases fs <;> rfl

/-- Where no name repeats, `unique?` finds each. -/
theorem unique?_of_nodup (h : (xs.map Prod.fst).Nodup) : unique? k xs = some (xs.lookup k) := by
  induction xs with
  | nil => rfl
  | cons f xs ih =>
    obtain ⟨name, v⟩ := f
    rw [List.map_cons, List.nodup_cons] at h
    rw [List.lookup_cons]
    by_cases hk : k = name
    · subst hk
      rw [unique?, List.filter_cons_of_pos (by simp), filter_eq_nil_of_notMem h.1,
        beq_self_eq_true]
    · rw [beq_false_of_ne hk, ← ih h.2, unique?, unique?, List.filter_cons_of_neg]
      simpa using Ne.symm hk

theorem lookup_eq_none (h : k ∉ xs.map Prod.fst) : xs.lookup k = none := by
  rw [List.lookup_eq_none_iff]
  exact fun f hf => by simpa using fun hk : k = f.1 => h (hk ▸ List.mem_map_of_mem hf)

theorem lookup_of_mem (h : (xs.map Prod.fst).Nodup) {v : α} (hmem : (k, v) ∈ xs) :
    xs.lookup k = some v := by
  induction xs with
  | nil => cases hmem
  | cons f xs ih =>
    rw [List.map_cons, List.nodup_cons] at h
    rw [List.lookup_cons]
    rcases List.mem_cons.1 hmem with rfl | hmem
    · rw [beq_self_eq_true]
    · have hne : k ≠ f.1 := fun hk => h.1 (hk ▸ List.mem_map_of_mem hmem)
      rw [beq_false_of_ne hne]
      exact ih h.2 hmem

theorem mem_of_lookup {v : α} (h : xs.lookup k = some v) : (k, v) ∈ xs := by
  obtain ⟨l₁, l₂, rfl, -⟩ := List.lookup_eq_some_iff.1 h
  simp

end Fields

namespace Toml

/-- What the reader may make of a table: the pairs of its own lines, and then those of the tables
inside it. -/
inductive Made (e : Outline) : List (Text × Toml) → Prop
  | mk {n : Nat} {inside : List (Text × Toml)} (sound : e.Sound) (short : Shorter (n + 1) e.inner)
      (made : Inside n e.inner inside) : Made e ((build? e.own).getD [] ++ inside)

variable {e : Outline} {k : Text}

theorem Frames.made {bs : List Block} (h : Frames e.inner e.own bs) (hsound : e.Sound) {n : Nat}
    (hshort : Shorter (n + 1) bs) :
    ∃ out, assemble? (n + 1) (bs.map Block.asSection) = some out ∧ Made e out := by
  have hvalued : ∀ k, Valued (blocksUnder k e.inner) :=
    hsound.keyed.valued fun p hp => (hsound.each p hp).valued
  obtain ⟨inside, hinside, hassemble⟩ := h.assembles hsound.keyed.inner hvalued hshort
  exact ⟨_, hassemble, hsound, fun b hb => hshort b (h.mem hb), hinside⟩

/-- A key that no header opens has its value. -/
theorem Made.unique?_plain {out : List (Text × Toml)} (h : Made e out)
    (hk : blocksUnder k e.inner = []) : Fields.unique? k out = some (e.pairs.lookup k) := by
  cases h with
  | @mk n inside sound short hinside =>
    have hnot : k ∉ inside.map Prod.fst := by
      rw [hinside.keys, List.mem_eraseDups, mem_blockHeads, hk]
      exact fun h => h rfl
    obtain ⟨grown, hbuild, hgrown⟩ := build?_grown sound.keyed.own sound.apart
    have hkeys : (finishPairs grown).map Prod.fst = grown.map Prod.fst := by
      simp [finishPairs_eq]
    have hnodup : ((finishPairs grown).map Prod.fst).Nodup := by
      rw [hkeys, hgrown.keys]
      exact nodup_eraseDups _
    rw [Fields.unique?_append_left hnot, hbuild, Option.getD_some,
      Fields.unique?_of_nodup hnodup, Option.some.injEq]
    by_cases hset : setsUnder k e.own = []
    · rw [Fields.lookup_eq_none, Fields.lookup_eq_none]
      · rw [sound.keyed.mem_iff, hset, hk]
        simp
      · rw [hkeys, hgrown.mem_iff, hset]
        exact fun h => h rfl
    · obtain ⟨⟨key, slot⟩, hp, rfl⟩ := List.mem_map.1 (hgrown.mem_iff.2 hset)
      obtain ⟨⟨key', v⟩, hq, rfl⟩ := sound.keyed.exists_pair (.inl hset)
      have hvalue := sound.each _ hq
      rw [hk] at hvalue
      have hfinish : slot.finish = v := (hgrown.each _ hp).finish_eq hvalue
      rw [Fields.lookup_of_mem sound.keyed.nodup hq]
      refine Fields.lookup_of_mem hnodup ?_
      rw [finishPairs_eq, ← hfinish]
      exact List.mem_map.2 ⟨_, hp, rfl⟩

/-- A table that headers open is the table of its blocks. -/
theorem ValueOf.frames {bs : List Block} {pairs : List (Text × Toml)}
    (h : ValueOf [] bs (.table pairs)) :
    ∃ e : Outline, e.pairs = pairs ∧ e.Sound ∧ Frames e.inner e.own bs := by
  generalize hsets : ([] : Sets) = sets at h
  generalize hv : Toml.table pairs = v at h
  cases h with
  | whole => cases hsets
  | implied e keyed _ each =>
    cases hv
    refine ⟨e, rfl, ⟨keyed, each⟩, ?_⟩
    rw [← hsets]
    exact .bare
  | opened e keyed before after inside each =>
    cases hv
    exact ⟨e, rfl, ⟨keyed, each⟩, .headed _ _ _ inside⟩
  | list => cases hv

/-- A key that is only opened has the table that its headers open, read in its turn. -/
theorem Made.unique?_table {out pairs : List (Text × Toml)} (h : Made e out)
    (hk : setsUnder k e.own = []) (hpairs : e.pairs.lookup k = some (.table pairs)) :
    ∃ e' out', e'.pairs = pairs ∧ Frames e'.inner e'.own (blocksUnder k e.inner) ∧ Made e' out' ∧
      Fields.unique? k out = some (some (.table out')) := by
  cases h with
  | @mk n inside sound short hinside =>
    have hvalue := sound.each _ (Fields.mem_of_lookup hpairs)
    rw [hk] at hvalue
    obtain ⟨e', hpairs', hsound, hframes⟩ := hvalue.frames
    have hne : blocksUnder k e.inner ≠ [] := by
      have hmem := sound.keyed.mem_iff.1 (List.mem_map_of_mem (Fields.mem_of_lookup hpairs))
      exact hmem.resolve_left fun h => h hk
    have hshort := short.blocksUnder k
    obtain ⟨b, hb⟩ := List.exists_mem_of_ne_nil _ hne
    obtain ⟨m, rfl⟩ := Nat.exists_eq_succ_of_ne_zero (Nat.ne_zero_of_lt (hshort b hb))
    obtain ⟨out', hassemble, hmade⟩ := hframes.made hsound hshort
    refine ⟨e', out', hpairs', hframes, hmade, ?_⟩
    have hnot : k ∉ ((build? e.own).getD []).map Prod.fst := by
      obtain ⟨grown, hbuild, hgrown⟩ := build?_grown sound.keyed.own sound.apart
      rw [hbuild, Option.getD_some, finishPairs_eq, List.map_map]
      exact fun h => hgrown.mem_iff.1 h hk
    have hnodup : (inside.map Prod.fst).Nodup := by
      rw [hinside.keys]
      exact nodup_eraseDups _
    have hmem : k ∈ inside.map Prod.fst := by
      rwa [hinside.keys, List.mem_eraseDups, mem_blockHeads]
    obtain ⟨⟨key, v⟩, hp, rfl⟩ := List.mem_map.1 hmem
    have hv := hinside.values _ hp
    rw [hframes.groupValue? hsound.keyed.inner hne, hassemble] at hv
    cases hv
    rw [Fields.unique?_append_right hnot, Fields.unique?_of_nodup hnodup,
      Fields.lookup_of_mem hnodup hp]

/-- A key that is both set and opened is there twice. -/
theorem Made.unique?_twice {out : List (Text × Toml)} (h : Made e out)
    (hset : setsUnder k e.own ≠ []) (hopen : blocksUnder k e.inner ≠ []) :
    Fields.unique? k out = none := by
  cases h with
  | @mk n inside sound short hinside =>
    obtain ⟨grown, hbuild, hgrown⟩ := build?_grown sound.keyed.own sound.apart
    have hown : k ∈ ((build? e.own).getD []).map Prod.fst := by
      rw [hbuild, Option.getD_some, finishPairs_eq, List.map_map]
      exact hgrown.mem_iff.2 hset
    have hinner : k ∈ inside.map Prod.fst := by
      rwa [hinside.keys, List.mem_eraseDups, mem_blockHeads]
    exact Fields.unique?_append_both hown hinner

end Toml
end ClipLedger
