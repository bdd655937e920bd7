import ClipLedger.Proofs.Files.Way

/-
  The paths that contain a path. Each is what stands before a slash in the one below it: its
  components are those of the path up to one of them (`components_take`), and the paths that
  contain it are the further ones (`parents_cons`). The way along a path goes along the path that
  contains it first, and then to one more name (`Under`).
-/
namespace ClipLedger.Path

/-! ## Segments -/

/-- A segment among the others: its name among the `names`, and its end where the names up to it and
their slashes end. -/
theorem segments_eq_append {start : Nat} {names : List Bytes} {before after : List Component}
    {c : Component} (h : segments start names = before ++ c :: after) :
    ∃ xs ys, names = xs ++ c.name :: ys ∧ segments start (xs ++ [c.name]) = before ++ [c] ∧
      segments (c.stop + 1) ys = after ∧
      c.stop = start + (([slash] : Bytes).intercalate (xs ++ [c.name])).length := by
  induction names generalizing start before with
  | nil => exact absurd h.symm (List.append_ne_nil_of_right_ne_nil _ (List.cons_ne_nil _ _))
  | cons name rest ih =>
    rw [segments] at h
    cases before with
    | nil =>
      rw [List.nil_append, List.cons.injEq] at h
      obtain ⟨rfl, rfl⟩ := h
      exact ⟨[], rest, rfl, rfl, rfl, by simp⟩
    | cons b before =>
      rw [List.cons_append, List.cons.injEq] at h
      obtain ⟨rfl, hrest⟩ := h
      obtain ⟨xs, ys, hnames, hbefore, hafter, hstop⟩ := ih hrest
      refine ⟨name :: xs, ys, by rw [hnames, List.cons_append], ?_, hafter, ?_⟩
      · rw [List.cons_append, segments, hbefore, List.cons_append]
      · rw [List.cons_append, List.intercalate_cons_of_ne_nil (by simp), hstop]
        simp only [List.length_append, List.length_singleton]
        omega

theorem map_name_segments (start : Nat) (names : List Bytes) :
    (segments start names).map Component.name = names := by
  induction names generalizing start with
  | nil => rfl
  | cons name rest ih => rw [segments, List.map_cons, ih]

/-- Names with slashes between them begin with the first of them. -/
theorem intercalate_prefix (xs ys : List Bytes) (name : Bytes) :
    ([slash] : Bytes).intercalate (xs ++ [name]) <+:
      ([slash] : Bytes).intercalate (xs ++ name :: ys) := by
  induction xs with
  | nil =>
    cases ys with
    | nil => exact List.prefix_rfl
    | cons y ys =>
      rw [List.nil_append, List.nil_append, List.intercalate_cons_cons, List.append_assoc]
      simp
  | cons x xs ih =>
    rw [List.cons_append, List.cons_append, List.intercalate_cons_of_ne_nil (by simp),
      List.intercalate_cons_of_ne_nil (by simp)]
    exact (List.prefix_append_right_inj _).2 ih

/-- A segment that is no component is empty or a dot. -/
theorem name_of_not_isReal {c : Component} (h : c.isReal = false) :
    c.name = [] ∨ c.name = [dot] := by
  unfold Component.isReal at h
  by_cases hempty : c.name = []
  · exact .inl hempty
  · by_cases hdot : c.name = [dot]
    · exact .inr hdot
    · simp [hempty, hdot] at h

theorem name_ne_nil {c : Component} (h : c.isReal = true) : c.name ≠ [] := by
  intro hempty
  simp [Component.isReal, hempty] at h

theorem slash_not_mem_of_mem_splitOn {bytes name : Bytes} (h : name ∈ bytes.splitOn slash) :
    slash ∉ name := by
  induction bytes generalizing name with
  | nil =>
    rw [List.splitOn_nil, List.mem_singleton] at h
    rw [h]
    exact List.not_mem_nil
  | cons b bytes ih =>
    rw [List.splitOn_cons_eq_if_modifyHead] at h
    split at h
    · rcases List.mem_cons.1 h with rfl | h
      · exact List.not_mem_nil
      · exact ih h
    · next hb =>
      cases hsplit : bytes.splitOn slash with
      | nil => exact absurd hsplit (List.splitOn_ne_nil slash bytes)
      | cons first rest =>
        rw [hsplit, List.modifyHead_cons] at h
        rw [hsplit] at ih
        rcases List.mem_cons.1 h with rfl | h
        · intro hmem
          rcases List.mem_cons.1 hmem with he | hfirst
          · exact hb (by rw [he, beq_self_eq_true])
          · exact ih List.mem_cons_self hfirst
        · exact ih (List.mem_cons_of_mem _ h)

/-! ## A path up to one of its components -/

/-- `p` up to the end of the component `c`. -/
def upTo (p : Path) (c : Component) : Path := ⟨p.bytes.take c.stop⟩

/-- What stands before a component and behind it, among all that stands between slashes. -/
theorem splitOn_upTo {p : Path} {cs ds : List Component} {c : Component}
    (h : p.components = cs ++ c :: ds) :
    ∃ xs ys, p.bytes.splitOn slash = xs ++ c.name :: ys ∧
      (p.upTo c).bytes.splitOn slash = xs ++ [c.name] ∧ (p.upTo c).bytes.length = c.stop ∧
      (p.upTo c).components = cs ++ [c] ∧
      (segments (c.stop + 1) ys).filter Component.isReal = ds := by
  obtain ⟨before, rest, hsegments, hcs, hrest⟩ := List.filter_eq_append_iff.1 h
  obtain ⟨skipped, after, rfl, hskipped, hreal, hds⟩ := List.filter_eq_cons_iff.1 hrest
  rw [← List.append_assoc] at hsegments
  obtain ⟨xs, ys, hnames, hbefore, hafter, hstop⟩ := segments_eq_append hsegments
  rw [Nat.zero_add] at hstop
  have hbytes : p.bytes = ([slash] : Bytes).intercalate (xs ++ c.name :: ys) := by
    rw [← hnames, List.intercalate_splitOn]
  have hupTo : (p.upTo c).bytes = ([slash] : Bytes).intercalate (xs ++ [c.name]) := by
    obtain ⟨more, hmore⟩ := intercalate_prefix xs ys c.name
    rw [upTo, hbytes, ← hmore, hstop, List.take_left']
    rfl
  have hsplit : (p.upTo c).bytes.splitOn slash = xs ++ [c.name] := by
    rw [hupTo]
    refine List.splitOn_intercalate slash (fun name hname => ?_) (by simp)
    have hmem : name ∈ p.bytes.splitOn slash := by
      rw [hnames]
      rcases List.mem_append.1 hname with hx | hx
      · exact List.mem_append_left _ hx
      · rw [List.mem_singleton.1 hx]
        exact List.mem_append_right _ List.mem_cons_self
    exact slash_not_mem_of_mem_splitOn hmem
  refine ⟨xs, ys, hnames, hsplit, by rw [hupTo, hstop], ?_, by rw [hafter, hds]⟩
  rw [components, hsplit, hbefore, List.filter_append, List.filter_append, hcs,
    List.filter_eq_nil_iff.2 hskipped, List.append_nil, List.filter_cons_of_pos hreal,
    List.filter_nil]

/-! ## The paths that contain a path -/

theorem stop_le {p : Path} {c : Component} (h : c ∈ p.components) : c.stop ≤ p.bytes.length := by
  obtain ⟨cs, ds, hsplit⟩ := List.mem_iff_append.1 h
  obtain ⟨-, -, -, -, hlength, -⟩ := splitOn_upTo hsplit
  rw [← hlength, upTo, List.length_take]
  exact Nat.min_le_right _ _

theorem isAbsolute_upTo {p : Path} {c : Component} (h : c ∈ p.components) :
    (p.upTo c).isAbsolute = p.isAbsolute := by
  have hstop : c.stop ≠ 0 := by
    obtain ⟨cs, ds, hsplit⟩ := List.mem_iff_append.1 h
    obtain ⟨-, -, -, -, hlength, hcomponents, -⟩ := splitOn_upTo hsplit
    intro hzero
    rw [hzero] at hlength
    have hempty : p.upTo c = ⟨[]⟩ := congrArg Path.mk (List.length_eq_zero_iff.1 hlength)
    rw [hempty] at hcomponents
    exact absurd hcomponents.symm (List.append_ne_nil_of_right_ne_nil _ (List.cons_ne_nil _ _))
  unfold isAbsolute upTo
  rw [List.head?_take, if_neg hstop]

theorem parents_concat {p : Path} {cs : List Component} {c : Component}
    (h : p.components = cs ++ [c]) : p.parents = cs.reverse.map p.upTo ++ [p.origin] := by
  unfold parents
  rw [h, List.reverse_append, List.reverse_singleton]
  rfl

/-- The path up to the last component but one is the first parent, and its parents are the further
ones. -/
theorem parents_upTo {p : Path} {cs : List Component} {c d : Component}
    (h : p.components = cs ++ [c] ++ [d]) : p.parents = p.upTo c :: (p.upTo c).parents := by
  have hc : p.components = cs ++ c :: [d] := by rw [h, List.append_assoc]; rfl
  obtain ⟨-, -, -, -, hlength, hcomponents, -⟩ := splitOn_upTo hc
  have hbelow : ∀ e ∈ cs, (p.upTo c).upTo e = p.upTo e := by
    intro e he
    have hle := stop_le (p := p.upTo c) (c := e)
      (hcomponents ▸ List.mem_append_left _ he)
    rw [hlength] at hle
    rw [upTo, upTo, List.take_take, Nat.min_eq_left hle]
    rfl
  have hmem : c ∈ p.components := hc ▸ List.mem_append_right _ List.mem_cons_self
  have horigin : (p.upTo c).origin = p.origin := by
    unfold origin
    rw [isAbsolute_upTo hmem]
  rw [parents_concat h, parents_concat hcomponents, horigin, List.reverse_append,
    List.reverse_singleton, List.map_append, List.map_congr_left fun e he =>
      (hbelow e (List.mem_reverse.1 he)).symm]
  rfl

/-- The first component is the first of the names that is neither empty nor a dot. -/
theorem steps_of_component {start : Nat} (hstart : 0 < start) {names : List Bytes}
    {d : Component} {ds : List Component}
    (h : (segments start names).filter Component.isReal = d :: ds) :
    ∃ dots tail, names.filter (· != []) = dots ++ d.name :: tail ∧ (∀ x ∈ dots, x = [dot]) ∧
      d.name ≠ [] ∧ d.name ≠ [dot] := by
  obtain ⟨skipped, after, hsegments, hskipped, hreal, -⟩ := List.filter_eq_cons_iff.1 h
  obtain ⟨xs, ys, hnames, hbefore, -, hstop⟩ := segments_eq_append hsegments
  have hxs : xs = skipped.map Component.name := by
    have hmap := congrArg (List.map Component.name) hbefore
    rw [map_name_segments, List.map_append] at hmap
    exact List.append_inj_left' hmap rfl
  have hne := name_ne_nil hreal
  refine ⟨xs.filter (· != []), ys.filter (· != []), ?_, ?_, hne, ?_⟩
  · rw [hnames, List.filter_append, List.filter_cons_of_pos (by simpa using hne)]
  · intro x hx
    obtain ⟨hmem, hx⟩ := List.mem_filter.1 hx
    rw [hxs] at hmem
    obtain ⟨c, hc, rfl⟩ := List.mem_map.1 hmem
    exact (name_of_not_isReal (Bool.eq_false_iff.2 (hskipped c hc))).resolve_left
      (bne_iff_ne.1 hx)
  · -- a dot counts only at the very start
    intro hdot
    have hlong : 1 ≤ (([slash] : Bytes).intercalate (xs ++ [d.name])).length := by
      rw [hdot]
      cases xs with
      | nil => exact Nat.le_refl 1
      | cons x xs =>
        rw [List.cons_append, List.intercalate_cons_of_ne_nil (by simp)]
        simp only [List.length_append, List.length_singleton]
        omega
    have hone : d.stop = 1 := by simpa [Component.isReal, hdot] using hreal
    omega

/-- The steps of `p` are those of `q`, then dots, then a name and what follows it. -/
structure Under (p q : Path) : Prop where
  absolute : q.isAbsolute = p.isAbsolute
  steps : ∃ dots name tail,
    p.withoutSlashes.steps = q.withoutSlashes.steps ++ (dots ++ name :: tail) ∧
      (∀ x ∈ dots, x = [dot]) ∧ name ≠ [] ∧ name ≠ [dot]

/-- `p` and `q` start at the same place. -/
theorem Under.origin_eq {p q : Path} (h : p.Under q) (t : FileTree) : t.origin p = t.origin q := by
  unfold FileTree.origin
  rw [h.absolute]

theorem under_upTo {p : Path} {cs : List Component} {c d : Component}
    (h : p.components = cs ++ [c] ++ [d]) : p.Under (p.upTo c) := by
  have hc : p.components = cs ++ c :: [d] := by rw [h, List.append_assoc]; rfl
  obtain ⟨xs, ys, hnames, hsplit, -, -, hlast⟩ := splitOn_upTo hc
  obtain ⟨dots, tail, hys, hdots, hname⟩ := steps_of_component (Nat.succ_pos _) hlast
  have hmem : c ∈ p.components := hc ▸ List.mem_append_right _ List.mem_cons_self
  refine ⟨isAbsolute_upTo hmem, dots, d.name, tail, ?_, hdots, hname⟩
  rw [steps_withoutSlashes, steps_withoutSlashes, hnames, hsplit, ← hys, ← List.filter_append,
    List.append_assoc]
  rfl

theorem under_root {p : Path} (habsolute : p.isAbsolute = true) {d : Component}
    (h : p.components = [d]) : p.Under ⟨[slash]⟩ := by
  obtain ⟨rest, hbytes⟩ : ∃ rest, p.bytes = slash :: rest := by
    unfold isAbsolute at habsolute
    cases hp : p.bytes with
    | nil => rw [hp] at habsolute; cases habsolute
    | cons b rest =>
      rw [hp] at habsolute
      have hb : b = slash := by simpa using habsolute
      exact ⟨rest, by rw [hb]⟩
  have hnames : p.bytes.splitOn slash = [] :: rest.splitOn slash := by
    rw [hbytes, List.splitOn_cons_eq_if_modifyHead, if_pos (beq_self_eq_true slash)]
  have hrest : (segments 1 (rest.splitOn slash)).filter Component.isReal = [d] := by
    unfold components at h
    rw [hnames, segments] at h
    exact h
  obtain ⟨dots, tail, hsteps, hdots, hname⟩ := steps_of_component Nat.one_pos hrest
  refine ⟨habsolute.symm ▸ rfl, dots, d.name, tail, ?_, hdots, hname⟩
  rw [steps_withoutSlashes, hnames, List.filter_cons_of_neg (by simp), hsteps]
  rfl

/-- **The first parent `q` of `p` has the further ones as its parents**, and `p` is `Under` it
unless `q` is empty. -/
theorem parents_cons {p q : Path} {rest : List Path} (h : p.parents = q :: rest) :
    rest = q.parents ∧ (q.bytes = [] ∨ p.Under q) := by
  rcases List.eq_nil_or_concat' p.components with hnil | ⟨cs, d, hcomponents⟩
  · rw [parents, hnil] at h
    cases h
  rcases List.eq_nil_or_concat' cs with rfl | ⟨cs, c, rfl⟩
  · rw [parents_concat hcomponents] at h
    cases h
    unfold origin
    cases habsolute : p.isAbsolute with
    | true => exact ⟨by decide, .inr (under_root habsolute hcomponents)⟩
    | false => exact ⟨by decide, .inl rfl⟩
  · rw [parents_upTo hcomponents] at h
    cases h
    exact ⟨rfl, .inr (under_upTo hcomponents)⟩

end ClipLedger.Path
