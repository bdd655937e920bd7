import ClipLedger.Proofs.Toml.Content

/-
  Tables that dotted keys make. The reader inserts one key path after the other; what has grown
  after some of them holds each first key once, with all that was set below it (`GrownOf`), and a
  path that is apart from all of them can be inserted (`insert?_grown`). In the end there stands the
  one table that the paths make (`build?_of_sound`).
-/
namespace ClipLedger.Toml

/-- What has grown below one key. -/
inductive SlotOf : Sets → Growing → Prop
  | whole (v : Toml) : SlotOf [([], v)] (.whole v)
  | dotted (sets : Sets) (pairs : List (Text × Growing)) (nonempty : sets ≠ [])
      (inside : ∀ s ∈ sets, s.1 ≠ []) (keys : pairs.map Prod.fst = (setHeads sets).eraseDups)
      (each : ∀ p ∈ pairs, SlotOf (setsUnder p.1 sets) p.2) : SlotOf sets (.dotted pairs)

/-- `pairs` have grown of `sets`. -/
structure GrownOf (sets : Sets) (pairs : List (Text × Growing)) : Prop where
  keys : pairs.map Prod.fst = (setHeads sets).eraseDups
  each : ∀ p ∈ pairs, SlotOf (setsUnder p.1 sets) p.2

theorem GrownOf.nil : GrownOf [] [] := ⟨rfl, List.forall_mem_nil _⟩

theorem GrownOf.slot {sets : Sets} {pairs : List (Text × Growing)} (h : GrownOf sets pairs)
    (hne : sets ≠ []) (hinside : ∀ s ∈ sets, s.1 ≠ []) : SlotOf sets (.dotted pairs) :=
  .dotted sets pairs hne hinside h.keys h.each

variable {sets : Sets} {pairs : List (Text × Growing)} {k : Text} {ks : List Text} {v : Toml}

theorem GrownOf.mem_iff (h : GrownOf sets pairs) :
    k ∈ pairs.map Prod.fst ↔ setsUnder k sets ≠ [] := by
  rw [h.keys, List.mem_eraseDups, mem_setHeads]

theorem setHeads_concat (sets : Sets) (k : Text) (ks : List Text) (v : Toml) :
    setHeads (sets ++ [(k :: ks, v)]) = setHeads sets ++ [k] := by
  simp [setHeads]

/-- A key of its own grows at the end. -/
theorem GrownOf.concat (h : GrownOf sets pairs) (hnew : setsUnder k sets = []) {slot : Growing}
    (hslot : SlotOf [(ks, v)] slot) :
    GrownOf (sets ++ [(k :: ks, v)]) (pairs ++ [(k, slot)]) := by
  have hk : k ∉ setHeads sets := by
    rw [mem_setHeads, hnew]
    exact fun h => h rfl
  constructor
  · rw [setHeads_concat, eraseDups_concat, if_neg hk, List.map_append, h.keys]
    rfl
  · intro p hp
    rw [setsUnder_append]
    rcases List.mem_append.1 hp with hold | hlast
    · have hne : k ≠ p.1 := by
        rintro rfl
        exact h.mem_iff.1 (List.mem_map_of_mem hold) hnew
      rw [setsUnder_cons_of_ne hne, setsUnder_nil, List.append_nil]
      exact h.each p hold
    · rw [List.mem_singleton.1 hlast, hnew, setsUnder_cons_self]
      exact hslot

/-- A key that has begun to grow goes on where it stands. -/
theorem GrownOf.replace {before after : List (Text × Growing)} {slot slot' : Growing}
    (h : GrownOf sets (before ++ (k, slot) :: after))
    (hslot : SlotOf (setsUnder k sets ++ [(ks, v)]) slot') :
    GrownOf (sets ++ [(k :: ks, v)]) (before ++ (k, slot') :: after) := by
  have hk : k ∈ setHeads sets := by
    rw [mem_setHeads, ← h.mem_iff]
    simp
  have hnodup : ((before ++ (k, slot) :: after).map Prod.fst).Nodup := by
    rw [h.keys]
    exact nodup_eraseDups _
  constructor
  · rw [setHeads_concat, eraseDups_concat, if_pos hk, ← h.keys]
    simp
  · intro p hp
    rw [setsUnder_append]
    by_cases hpk : p.1 = k
    · -- Every key stands once, so this is the pair that was replaced.
      have hp' : p = (k, slot') := by
        obtain ⟨k', slot''⟩ := p
        subst hpk
        simp only [List.map_append, List.map_cons, List.nodup_append, List.nodup_cons] at hnodup
        simp only [List.mem_append, List.mem_cons] at hp
        rcases hp with hp | hp | hp
        · exact absurd rfl (hnodup.2.2 _ (List.mem_map_of_mem hp) _ List.mem_cons_self)
        · exact hp
        · exact absurd (List.mem_map_of_mem hp) hnodup.2.1.1
      rw [hp', setsUnder_cons_self]
      exact hslot
    · rw [setsUnder_cons_of_ne (Ne.symm hpk), setsUnder_nil, List.append_nil]
      refine h.each p ?_
      simp only [List.mem_append, List.mem_cons] at hp ⊢
      rcases hp with hp | hp | hp
      · exact .inl hp
      · exact absurd (congrArg Prod.fst hp) hpk
      · exact .inr (.inr hp)

/-- The pair that `find?` finds splits the list where `takeWhile` does. -/
theorem find?_key_split {found : Text × Growing}
    (h : (pairs.find? fun p => p.1 == k) = some found) :
    found.1 = k ∧ ∃ before after, pairs = before ++ found :: after ∧
      (pairs.takeWhile fun p => p.1 != k) = before ∧
      (pairs.dropWhile fun p => p.1 != k).tail = after := by
  rw [List.find?_eq_some_iff_append] at h
  obtain ⟨hk, before, after, rfl, hbefore⟩ := h
  have hne : ∀ p ∈ before, (p.1 != k) = true := fun p hp => hbefore p hp
  have hstop : (found.1 != k) = false := by simpa using hk
  refine ⟨by simpa using hk, before, after, rfl, ?_, ?_⟩
  · rw [List.takeWhile_append_of_pos hne, List.takeWhile_cons_of_neg (by simp [hstop]),
      List.append_nil]
  · rw [List.dropWhile_append_of_pos hne, List.dropWhile_cons_of_neg (by simp [hstop]),
      List.tail_cons]

/-- Growing begins with any path. -/
theorem insert?_start (k : Text) (ks : List Text) (v : Toml) :
    ∃ pairs, insert? (k :: ks) v [] = some pairs ∧ GrownOf [(k :: ks, v)] pairs := by
  induction ks generalizing k with
  | nil =>
    refine ⟨[(k, .whole v)], rfl, ?_⟩
    exact GrownOf.nil.concat (by rfl) (.whole v)
  | cons k' ks ih =>
    obtain ⟨inner, hinner, hgrown⟩ := ih k'
    refine ⟨[(k, .dotted inner)], ?_, ?_⟩
    · simp only [insert?, List.find?_nil, List.nil_append, hinner, Option.map_some]
    · exact GrownOf.nil.concat (by rfl) (hgrown.slot (by simp) (by simp))

/-- **`insert?` succeeds for a path that is `Apart` from all that has grown.** -/
theorem insert?_grown {path : List Text} (hpath : path ≠ []) (v : Toml) (h : GrownOf sets pairs)
    (hinside : ∀ s ∈ sets, s.1 ≠ []) (hapart : ∀ s ∈ sets, Apart s (path, v)) :
    ∃ pairs', insert? path v pairs = some pairs' ∧ GrownOf (sets ++ [(path, v)]) pairs' := by
  induction path generalizing sets pairs with
  | nil => exact absurd rfl hpath
  | cons k ks ih =>
    cases ks with
    | nil =>
      have hnew : setsUnder k sets = [] := List.eq_nil_iff_forall_not_mem.2 fun s hs =>
        (hapart _ (mem_setsUnder.1 hs)).2 (by simp)
      exact ⟨_, rfl, h.concat hnew (.whole v)⟩
    | cons k' ks =>
      unfold insert?
      cases hfind : pairs.find? fun p => p.1 == k with
      | none =>
        have hk : k ∉ pairs.map Prod.fst := by
          intro hk
          obtain ⟨p, hp, rfl⟩ := List.mem_map.1 hk
          simpa using List.find?_eq_none.1 hfind p hp
        have hnew : setsUnder k sets = [] := by simpa [h.mem_iff] using hk
        obtain ⟨inner, hinner, hgrown⟩ := insert?_start k' ks v
        refine ⟨pairs ++ [(k, .dotted inner)], by simp [hinner], h.concat hnew ?_⟩
        exact hgrown.slot (by simp) (by simp)
      | some found =>
        obtain ⟨rfl, before, after, rfl, hbefore, hafter⟩ := find?_key_split hfind
        obtain ⟨key, slot⟩ := found
        have hslot := h.each (key, slot) (by simp)
        generalize hsets : setsUnder key sets = sets' at hslot
        cases hslot with
        | whole w =>
          -- A value stands where the path wants to go on.
          have hmem : ([], w) ∈ setsUnder key sets := by rw [hsets]; simp
          exact absurd (by simp) (hapart _ (mem_setsUnder.1 hmem)).1
        | dotted _ inner hsome hin hkeys heach =>
          have happart' : ∀ s ∈ setsUnder key sets, Apart s (k' :: ks, v) := fun s hs =>
            apart_cons.1 (hapart _ (mem_setsUnder.1 hs))
          rw [hsets] at happart'
          obtain ⟨inner', hinner', hgrown⟩ :=
            ih (by simp) ⟨hkeys, heach⟩ hin happart'
          refine ⟨before ++ (key, .dotted inner') :: after, ?_, ?_⟩
          · simp only [hinner', Option.map_some, hbefore, hafter]
          · refine h.replace ?_
            rw [hsets]
            refine hgrown.slot (by simp) ?_
            simpa [or_imp, forall_and] using hin

/-- Paths inserted one after the other. -/
theorem foldl_insert?_grown (more : Sets) {sets : Sets} {pairs : List (Text × Growing)}
    (h : GrownOf sets pairs) (hinside : ∀ s ∈ sets ++ more, s.1 ≠ [])
    (hapart : (sets ++ more).Pairwise Apart) :
    ∃ pairs', more.foldl (fun pairs set => pairs.bind (insert? set.1 set.2)) (some pairs) =
      some pairs' ∧ GrownOf (sets ++ more) pairs' := by
  induction more generalizing sets pairs with
  | nil => exact ⟨pairs, rfl, by simpa using h⟩
  | cons s more ih =>
    have hfirst : ∀ s' ∈ sets, Apart s' (s.1, s.2) := fun s' hs' =>
      (List.pairwise_append.1 hapart).2.2 _ hs' _ List.mem_cons_self
    obtain ⟨pairs', hinsert, hgrown⟩ := insert?_grown (hinside s (by simp)) s.2 h
      (fun s' hs' => hinside s' (List.mem_append_left _ hs')) hfirst
    have hsplit : sets ++ s :: more = sets ++ [s] ++ more := by simp
    rw [hsplit] at hinside hapart ⊢
    obtain ⟨pairs'', hfold, hgrown'⟩ := ih hgrown hinside hapart
    refine ⟨pairs'', ?_, hgrown'⟩
    rw [List.foldl_cons, Option.bind_some, hinsert]
    exact hfold

/-- Paths that are `Apart` from each other grow together. -/
theorem build?_grown (hinside : ∀ s ∈ sets, s.1 ≠ []) (hapart : sets.Pairwise Apart) :
    ∃ pairs, build? sets = some (finishPairs pairs) ∧ GrownOf sets pairs := by
  obtain ⟨pairs, hfold, hgrown⟩ := foldl_insert?_grown sets .nil hinside hapart
  refine ⟨pairs, ?_, hgrown⟩
  rw [build?, hfold]
  rfl

theorem finishPairs_eq (pairs : List (Text × Growing)) :
    finishPairs pairs = pairs.map fun p => (p.1, p.2.finish) := by
  induction pairs with
  | nil => rfl
  | cons p pairs ih =>
    rw [finishPairs, ih]
    rfl

/-- Pairs with the same keys are the same if equal keys have equal values. -/
theorem finishPairs_of_keys {pairs : List (Text × Growing)} {pairs' : List (Text × Toml)}
    (hkeys : pairs.map Prod.fst = pairs'.map Prod.fst)
    (hvalues : ∀ p ∈ pairs, ∀ q ∈ pairs', p.1 = q.1 → p.2.finish = q.2) :
    finishPairs pairs = pairs' := by
  induction pairs generalizing pairs' with
  | nil => exact (List.map_eq_nil_iff.1 hkeys.symm).symm
  | cons p pairs ih =>
    cases pairs' with
    | nil => simp at hkeys
    | cons q pairs' =>
      rw [List.map_cons, List.map_cons, List.cons.injEq] at hkeys
      rw [finishPairs, ih hkeys.2 fun p hp q hq =>
        hvalues p (List.mem_cons_of_mem _ hp) q (List.mem_cons_of_mem _ hq), hkeys.1,
        hvalues p List.mem_cons_self q List.mem_cons_self hkeys.1]

/-- What has grown below a key is the value of that key, where no header opens anything there. -/
theorem SlotOf.finish_eq {slot : Growing} (hslot : SlotOf sets slot) {v : Toml}
    (hv : ValueOf sets [] v) : slot.finish = v := by
  induction hslot generalizing v with
  | whole w =>
    generalize hsets : [([], w)] = sets at hv
    generalize hbs : ([] : List Block) = bs at hv
    cases hv with
    | whole v =>
      simp only [List.cons.injEq, Prod.mk.injEq, true_and, and_true] at hsets
      exact hsets
    | implied e keyed =>
      exact absurd rfl (keyed.own ([], w) (by simp [← hsets]))
    | opened => simp at hbs
    | list es nonempty => simp at hsets
  | dotted sets pairs nonempty inside keys each ih =>
    generalize hbs : ([] : List Block) = bs at hv
    cases hv with
    | whole v => exact absurd rfl (inside ([], v) (by simp))
    | implied e keyed _ heach =>
      rw [Growing.finish]
      congr 1
      refine finishPairs_of_keys ?_ fun p hp q hq hkey => ih p hp ?_
      · rw [keys, keyed.pairs, Outline.keys, ← hbs]
        simp [blockHeads]
      · rw [hkey]
        simpa [← hbs] using heach q hq
    | opened => simp at hbs
    | list => exact absurd rfl nonempty

/-- **For a table without tables inside, `build?` makes its pairs.** -/
theorem build?_of_sound {pairs : List (Text × Toml)} (h : Outline.Sound ⟨sets, [], pairs⟩) :
    build? sets = some pairs := by
  obtain ⟨grown, hbuild, hgrown⟩ := build?_grown h.keyed.own h.apart
  rw [hbuild, Option.some.injEq]
  refine finishPairs_of_keys ?_ fun p hp q hq hkey => (hgrown.each p hp).finish_eq ?_
  · rw [hgrown.keys, h.keyed.pairs, Outline.keys]
    simp [blockHeads]
  · rw [hkey]
    exact h.each q hq

end ClipLedger.Toml
