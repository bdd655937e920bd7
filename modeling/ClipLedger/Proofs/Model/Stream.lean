import ClipLedger.Model.Stream
import ClipLedger.Proofs.Text.Lines

/-
  What is collected from a stream, told at once: the deltas before the first failure, each where
  it comes first, put together, cut at the ceiling and trimmed (`collect_eq_firsts`). From there
  follows how far a stream is read. Every delta that is new takes from the ceiling and a delta
  that is repeated does not, so that only the repeats of a stream are read without a bound
  (`collect_of_repeats`); and where they never end, nothing stops the reading
  (`collect_unbounded`).
-/
namespace ClipLedger.StreamEvent

/-! ## The deltas that count -/

/-- The deltas before the first failure. -/
def deltas : List StreamEvent → List Text
  | [] => []
  | .failure _ :: _ => []
  | .delta t :: rest => t :: deltas rest

/-- The texts that are not among `seen`, each where it comes first. -/
def firsts (seen texts : List Text) : List Text := (texts.removeAll seen).eraseDups

theorem firsts_nil_left (texts : List Text) : firsts [] texts = texts.eraseDups := by
  rw [firsts, List.removeAll_nil]

theorem firsts_cons_of_mem {seen : List Text} {t : Text} (h : t ∈ seen) (texts : List Text) :
    firsts seen (t :: texts) = firsts seen texts := by
  rw [firsts, List.cons_removeAll, if_neg (by simpa using h), firsts]

theorem firsts_cons_of_not_mem {seen : List Text} {t : Text} (h : t ∉ seen) (texts : List Text) :
    firsts seen (t :: texts) = t :: firsts (t :: seen) texts := by
  have hseen : (texts.removeAll seen).filter (fun u => !u == t) = texts.removeAll (t :: seen) := by
    unfold List.removeAll
    rw [List.filter_filter]
    refine List.filter_congr fun u _ => ?_
    by_cases hu : u = t <;> simp [hu]
  unfold firsts
  rw [List.cons_removeAll, if_pos (by simpa using h), List.eraseDups_cons, hseen]

/-- `gather` keeps the `firsts` of the deltas, as far as there is room. -/
theorem gather_eq (seen : List Text) (room : Nat) (events : List StreamEvent) :
    gather seen room events = (firsts seen (deltas events)).flatten.take room := by
  fun_induction gather seen room events with
  | case1 => exact List.take_nil.symm
  | case2 => exact List.take_nil.symm
  | case3 seen room t rest hseen ih =>
    rw [deltas, firsts_cons_of_mem hseen]
    exact ih
  | case4 seen room t rest hnew hfull =>
    rw [deltas, firsts_cons_of_not_mem hnew, List.flatten_cons, List.take_append_of_le_length hfull]
  | case5 seen room t rest hnew hroom ih =>
    rw [deltas, firsts_cons_of_not_mem hnew, List.flatten_cons, List.take_append,
      List.take_of_length_le (by omega), ih]

theorem collect_eq (max : Nat) (events : List StreamEvent) :
    collect max events = Text.trim ((deltas events).eraseDups.flatten.take max) := by
  rw [collect, gather_eq, firsts_nil_left]

theorem length_collect_le (max : Nat) (events : List StreamEvent) :
    (collect max events).length ≤ max :=
  Nat.le_trans (Text.length_trim_le _) (length_gather_le [] max events)

/-! ## What comes too late -/

theorem deltas_prefix_append (events later : List StreamEvent) :
    deltas events <+: deltas (events ++ later) := by
  induction events with
  | nil => exact List.nil_prefix
  | cons event events ih =>
    cases event with
    | delta t => exact List.cons_prefix_cons.2 ⟨rfl, ih⟩
    | failure e => exact List.nil_prefix

theorem deltas_failure (events later : List StreamEvent) (e : ModelError) :
    deltas (events ++ .failure e :: later) = deltas events := by
  induction events with
  | nil => rfl
  | cons event events ih =>
    cases event with
    | delta t => exact congrArg (t :: ·) ih
    | failure e' => rfl

/-- Where the ceiling is reached, nothing that comes later counts. -/
theorem collect_append_of_full {max : Nat} {events : List StreamEvent}
    (hfull : max ≤ (deltas events).eraseDups.flatten.length) (later : List StreamEvent) :
    collect max (events ++ later) = collect max events := by
  obtain ⟨more, hmore⟩ := deltas_prefix_append events later
  rw [collect_eq, collect_eq, ← hmore, List.eraseDups_append, List.flatten_append,
    List.take_append_of_le_length hfull]

/-- **What is collected**: the `deltas` before the first failure, each where it comes first, up to
`max` characters and without blanks at the ends. So nothing behind a failure counts, nor does
anything once the ceiling is reached, be it a delta or a failure. -/
theorem collect_eq_firsts (max : Nat) (events : List StreamEvent) :
    collect max events = Text.trim ((deltas events).eraseDups.flatten.take max) ∧
    (collect max events).length ≤ max ∧
    (∀ e later, collect max (events ++ .failure e :: later) = collect max events) ∧
    (max ≤ (deltas events).eraseDups.flatten.length →
      ∀ later, collect max (events ++ later) = collect max events) := by
  refine ⟨collect_eq max events, length_collect_le max events, fun e later => ?_,
    collect_append_of_full⟩
  rw [collect_eq, collect_eq, deltas_failure]

/-- A repeated delta, an empty one, and a failure in the middle of the delta that fills up. -/
theorem collect_eq_firsts_at_ceiling :
    let events := [.delta "ab".toList, .delta [], .delta "ab".toList, .delta "cde".toList]
    4 ≤ (deltas events).eraseDups.flatten.length ∧
      collect 4 (events ++ [.failure .transport, .delta "f".toList]) = collect 4 events ∧
      collect 4 events = "abcd".toList := by
  intro events
  have hfull : 4 ≤ (deltas events).eraseDups.flatten.length := by decide
  obtain ⟨hcollect, -, -, hlate⟩ := collect_eq_firsts 4 events
  refine ⟨hfull, hlate hfull _, ?_⟩
  rw [hcollect]
  decide

/-! ## How far a stream is read -/

/-- How many of `texts` stand there already before. -/
def repeats (texts : List Text) : Nat := texts.length - texts.eraseDups.length

theorem length_eraseDups_le : (texts : List Text) → texts.eraseDups.length ≤ texts.length
  | [] => Nat.le_refl _
  | t :: texts => by
    have hfilter := List.length_filter_le (fun u => !u == t) texts
    have hrest := length_eraseDups_le (texts.filter fun u => !u == t)
    rw [List.eraseDups_cons, List.length_cons, List.length_cons]
    omega
termination_by texts => texts.length
decreasing_by
  rw [List.length_cons]
  omega

theorem length_eraseDups_append_le (texts more : List Text) :
    (texts ++ more).eraseDups.length ≤ texts.eraseDups.length + more.length := by
  have hnew : (more.removeAll texts).eraseDups.length ≤ more.length :=
    Nat.le_trans (length_eraseDups_le _) (List.length_filter_le _ _)
  rw [List.eraseDups_append, List.length_append]
  omega

/-- The front of a list has no more repeats than all of it. -/
theorem length_take_le_add_repeats (texts : List Text) {n : Nat} (hn : n ≤ texts.length) :
    n ≤ (texts.take n).eraseDups.length + repeats texts := by
  have hall := length_eraseDups_append_le (texts.take n) (texts.drop n)
  rw [List.take_append_drop, List.length_drop] at hall
  have hle := length_eraseDups_le texts
  unfold repeats
  omega

theorem deltas_map (texts : List Text) : deltas (texts.map .delta) = texts := by
  induction texts with
  | nil => rfl
  | cons t texts ih => exact congrArg (t :: ·) ih

theorem length_le_length_flatten {texts : List Text} (h : ∀ t ∈ texts, t ≠ []) :
    texts.length ≤ texts.flatten.length := by
  induction texts with
  | nil => exact Nat.zero_le _
  | cons t texts ih =>
    obtain ⟨ht, hrest⟩ := List.forall_mem_cons.1 h
    have hpos := List.length_pos_iff.2 ht
    have hle := ih hrest
    rw [List.length_cons, List.flatten_cons, List.length_append]
    omega

/-- The first `bound` deltas decide what `collect max` gives, for every stream of deltas that are
not empty. -/
def Settles (max bound : Nat) : Prop :=
  ∀ texts : List Text, (∀ t ∈ texts, t ≠ []) →
    collect max (texts.map .delta) = collect max ((texts.take bound).map .delta)

/-- If there are `max` different deltas among the first `bound`, the later ones do not count. -/
theorem collect_take_of_le {max bound : Nat} {texts : List Text} (h : ∀ t ∈ texts, t ≠ [])
    (hnew : max ≤ (texts.take bound).eraseDups.length) :
    collect max (texts.map .delta) = collect max ((texts.take bound).map .delta) := by
  have hne : ∀ t ∈ (texts.take bound).eraseDups, t ≠ [] := fun t ht =>
    h t (List.mem_of_mem_take (List.mem_eraseDups.1 ht))
  have hfull : max ≤ (deltas ((texts.take bound).map .delta)).eraseDups.flatten.length := by
    rw [deltas_map]
    exact Nat.le_trans hnew (length_le_length_flatten hne)
  have hsplit : texts.map StreamEvent.delta =
      (texts.take bound).map .delta ++ (texts.drop bound).map .delta := by
    rw [← List.map_append, List.take_append_drop]
  rw [hsplit]
  exact collect_append_of_full hfull _

theorem collect_take_repeats (max : Nat) {texts : List Text} (h : ∀ t ∈ texts, t ≠ []) :
    collect max (texts.map .delta) =
      collect max ((texts.take (max + repeats texts)).map .delta) := by
  by_cases hlong : max + repeats texts ≤ texts.length
  · have hfront := length_take_le_add_repeats texts hlong
    exact collect_take_of_le h (by omega)
  · rw [List.take_of_length_le (by omega)]

theorem eraseDups_replicate_succ (n : Nat) (t : Text) :
    (List.replicate (n + 1) t).eraseDups = [t] := by
  have hrest : (List.replicate n t).filter (fun u => !u == t) = [] := by
    rw [List.filter_eq_nil_iff]
    intro u hu
    simp [List.eq_of_mem_replicate hu]
  rw [List.replicate_succ, List.eraseDups_cons, hrest, List.eraseDups_nil]

theorem settles_one {max : Nat} (hmax : max ≤ 1) : Settles max 1 := by
  intro texts h
  cases texts with
  | nil => rfl
  | cons t texts =>
    have hone : ((t :: texts).take 1).eraseDups = [t] := eraseDups_replicate_succ 0 t
    exact collect_take_of_le h (by rw [hone]; exact hmax)

/-- Where there is room for two characters, a delta that is repeated any number of times does not
keep a new one out. -/
theorem not_settles {max : Nat} (hmax : 2 ≤ max) (bound : Nat) : ¬ Settles max bound := by
  intro hsettles
  have hne : ∀ t ∈ List.replicate bound ['a'] ++ [['b']], t ≠ [] := by
    intro t ht
    rcases List.mem_append.1 ht with hrepeated | hlast
    · rw [List.eq_of_mem_replicate hrepeated]
      exact List.cons_ne_nil _ _
    · rw [List.mem_singleton.1 hlast]
      exact List.cons_ne_nil _ _
  have hsame := hsettles _ hne
  have hfront :
      (List.replicate bound ['a'] ++ [['b']]).take bound = List.replicate bound ['a'] := by
    rw [List.take_append_of_le_length (by simp), List.take_of_length_le (by simp)]
  have hnew : [['b']].removeAll (List.replicate bound ['a']) = [['b']] := by
    unfold List.removeAll
    rw [List.filter_eq_self]
    intro t ht
    simp [List.mem_singleton.1 ht, List.mem_replicate]
  rw [hfront, collect_eq, collect_eq, deltas_map, deltas_map, List.eraseDups_append, hnew,
    show [['b']].eraseDups = [['b']] from eraseDups_replicate_succ 0 ['b']] at hsame
  cases bound with
  | zero =>
    have hroom : [['b']].flatten.take max = ['b'] :=
      List.take_of_length_le (Nat.le_trans (by decide) hmax)
    rw [List.replicate_zero, List.eraseDups_nil, List.nil_append, hroom, List.flatten_nil,
      List.take_nil] at hsame
    exact absurd hsame (by decide)
  | succ n =>
    have hroom : ([['a']] ++ [['b']]).flatten.take max = ['a', 'b'] :=
      List.take_of_length_le (Nat.le_trans (by decide) hmax)
    have hroom' : [['a']].flatten.take max = ['a'] :=
      List.take_of_length_le (Nat.le_trans (by decide) hmax)
    rw [eraseDups_replicate_succ, hroom, hroom'] at hsame
    exact absurd hsame (by decide)

/-- **Only repeats are read without a bound.** The first `max + repeats texts` deltas decide what is
collected; a `bound` for all streams exists exactly where `max ≤ 1`. -/
theorem collect_of_repeats (max : Nat) :
    (∀ texts : List Text, (∀ t ∈ texts, t ≠ []) →
      collect max (texts.map .delta) =
        collect max ((texts.take (max + repeats texts)).map .delta)) ∧
    ((∃ bound, Settles max bound) ↔ max ≤ 1) := by
  refine ⟨fun texts h => collect_take_repeats max h, fun ⟨bound, hsettles⟩ => ?_,
    fun hmax => ⟨1, settles_one hmax⟩⟩
  exact Nat.not_lt.1 fun hmax => not_settles hmax bound hsettles

/-- Three repeats are read over, and what comes after five deltas is not read. -/
theorem collect_of_repeats_three :
    let texts : List Text := [['a'], ['a'], ['a'], ['a'], ['b'], ['c'], ['d']]
    (∀ t ∈ texts, t ≠ []) ∧ repeats texts = 3 ∧
      collect 2 (texts.map .delta) = collect 2 ((texts.take 5).map .delta) := by
  intro texts
  have hne : ∀ t ∈ texts, t ≠ [] := by decide
  have hrepeats : repeats texts = 3 := by decide
  have hall := (collect_of_repeats 2).1 texts hne
  rw [hrepeats] at hall
  exact ⟨hne, hrepeats, hall⟩

/-- No ceiling bounds how many deltas are read of every stream. -/
theorem collect_unbounded : ¬ ∀ max, ∃ bound, Settles max bound := by
  intro h
  obtain ⟨bound, hsettles⟩ := h 2
  exact not_settles (Nat.le_refl 2) bound hsettles

end ClipLedger.StreamEvent
