import ClipLedger.Proofs.Pipeline.Effects
import Mathlib.Data.List.Chain

/-
  The collector and its gate over whole runs. Polls come one after the other, whatever they
  capture. Between them others push items, take items from the queue one by one or by the batch,
  and change files, in any order. The gate remembers the last item that it let through, also where
  the queue had no room for that item, and nothing else changes it; hence content that stays the
  same is let through once, however long it stays (`moves_letThrough`).
-/
namespace ClipLedger

/-- Whether the item is a text of fewer than `least` characters. -/
def Item.isShort (least : Nat) : Item → Bool
  | .text t => t.length < least
  | .image .. => false

/-- The three verdicts of `check`, and what the gate remembers after each. -/
theorem Gate.check_cases (g : Gate) (item : Item) :
    g.last = some item.fingerprint ∧ g.check item = (.skip .duplicate, g) ∨
    g.last ≠ some item.fingerprint ∧ item.isShort g.minLength = true ∧
      g.check item = (.skip .tooShort, g) ∨
    g.last ≠ some item.fingerprint ∧ item.isShort g.minLength = false ∧
      g.check item = (.accept, { g with last := some item.fingerprint }) := by
  unfold check verdict Verdict.of
  by_cases hlast : g.last = some item.fingerprint
  · rw [if_pos hlast]
    exact .inl ⟨hlast, rfl⟩
  rw [if_neg hlast]
  refine .inr ?_
  cases item with
  | image path digest => exact .inr ⟨hlast, rfl, rfl⟩
  | text t =>
    dsimp only [Item.asText?, Option.map_some, Item.isShort]
    by_cases hshort : t.length < g.minLength
    · rw [if_pos hshort]
      exact .inl ⟨hlast, decide_eq_true hshort, rfl⟩
    · rw [if_neg hshort]
      exact .inr ⟨hlast, decide_eq_false hshort, rfl⟩

namespace Pipeline

/-! ## One poll -/

/-- What a poll can answer, given the item that it captured, and what it leaves of `s`. -/
inductive Polled (s : PipelineState) :
    Option Item → Except Failure Collected → PipelineState → Prop where
  | nothing : Polled s none (.ok .nothing) s
  | failed (e : Failure) : Polled s none (.error e) s
  | duplicate {item : Item} (same : s.gate.last = some item.fingerprint) :
      Polled s (some item) (.ok (.skipped .duplicate)) s
  | tooShort {item : Item} (new : s.gate.last ≠ some item.fingerprint)
      (short : item.isShort s.gate.minLength = true) :
      Polled s (some item) (.ok (.skipped .tooShort)) s
  | queued {item : Item} (new : s.gate.last ≠ some item.fingerprint)
      (long : item.isShort s.gate.minLength = false) (room : s.queue.length < s.queue.capacity) :
      Polled s (some item) (.ok .queued)
        { s with
          gate := { s.gate with last := some item.fingerprint }
          queue := { s.queue with items := s.queue.items ++ [item] } }
  | dropped {item : Item} (new : s.gate.last ≠ some item.fingerprint)
      (long : item.isShort s.gate.minLength = false) (full : s.queue.capacity ≤ s.queue.length) :
      Polled s (some item) (.ok .dropped)
        { s with gate := { s.gate with last := some item.fingerprint } }

theorem enqueue_polled (item : Item) (s : PipelineState) :
    Polled s (some item) (.ok (enqueue item s).1) (enqueue item s).2 := by
  unfold enqueue
  rcases s.gate.check_cases item with ⟨hlast, hcheck⟩ | ⟨hlast, hshort, hcheck⟩ |
    ⟨hlast, hlong, hcheck⟩
  · rw [hcheck]
    exact .duplicate hlast
  · rw [hcheck]
    exact .tooShort hlast hshort
  · rw [hcheck]
    dsimp only
    by_cases hroom : s.queue.length < s.queue.capacity
    · rw [WorkQueue.push_of_lt item hroom]
      exact .queued hlast hlong hroom
    · have hfull : s.queue.capacity ≤ s.queue.length := Nat.le_of_not_lt hroom
      rw [WorkQueue.push_of_le item hfull]
      exact .dropped hlast hlong hfull

/-- A capture changes files alone; what follows is up to the gate and the queue. -/
theorem collect_polled (p : Pipeline) (reading : Reading) (s : PipelineState) :
    ∃ files, Polled { s with files := files } (p.captured? reading s) (p.collect reading s).1
      (p.collect reading s).2 := by
  unfold collect captured?
  cases p.source.capture s.files reading with
  | mk result files =>
    refine ⟨files, ?_⟩
    cases result with
    | error e => exact .failed e
    | ok item? =>
      cases item? with
      | none => exact .nothing
      | some item => exact enqueue_polled item { s with files := files }

/-- What a poll answers and changes, given the fingerprint `latest` that was let through last and
the item that the poll captured. -/
structure Answers (p : Pipeline) (s : PipelineState) (latest : Option Fingerprint)
    (captured : Option Item) (answer : Except Failure Collected) (s' : PipelineState) : Prop where
  verdict : ∀ item, captured = some item → answer = .ok (
    if latest = some item.fingerprint then .skipped .duplicate
    else if item.isShort p.performance.minContent then .skipped .tooShort
    else if s.queue.length < max p.performance.maxQueue 1 then .queued
    else .dropped)
  bound : s.queue.length ≤ max p.performance.maxQueue 1
  nothing : captured = none → answer = .ok .nothing ∨ ∃ e, answer = .error e
  gate : answer ≠ .ok .queued → answer ≠ .ok .dropped → s'.gate = s.gate
  queue : answer ≠ .ok .queued → s'.queue = s.queue
  added : answer = .ok .queued → ∃ item, captured = some item ∧
    s'.queue = { s.queue with items := s.queue.items ++ [item] }

theorem Polled.gate_eq {s s' : PipelineState} {captured : Option Item}
    {answer : Except Failure Collected} (h : Polled s captured answer s')
    (hqueued : answer ≠ .ok .queued) (hdropped : answer ≠ .ok .dropped) : s'.gate = s.gate := by
  cases h with
  | queued => exact absurd rfl hqueued
  | dropped => exact absurd rfl hdropped
  | _ => rfl

theorem Polled.queue_eq {s s' : PipelineState} {captured : Option Item}
    {answer : Except Failure Collected} (h : Polled s captured answer s')
    (hqueued : answer ≠ .ok .queued) : s'.queue = s.queue := by
  cases h with
  | queued => exact absurd rfl hqueued
  | _ => rfl

theorem Polled.answers {p : Pipeline} {s s' : PipelineState} {captured : Option Item}
    {answer : Except Failure Collected} (h : Polled s captured answer s')
    (hleast : s.gate.minLength = p.performance.minContent)
    (hcapacity : s.queue.capacity = max p.performance.maxQueue 1)
    (hbound : s.queue.length ≤ s.queue.capacity) :
    Answers p s s.gate.last captured answer s' := by
  rw [hcapacity] at hbound
  refine ⟨?_, hbound, ?_, h.gate_eq, h.queue_eq, ?_⟩
  · intro item hitem
    rw [← hleast, ← hcapacity]
    cases h with
    | nothing => cases hitem
    | failed e => cases hitem
    | duplicate same =>
      cases hitem
      rw [if_pos same]
    | tooShort new short =>
      cases hitem
      rw [if_neg new, if_pos short]
    | queued new long room =>
      cases hitem
      rw [if_neg new, if_neg (by simp [long]), if_pos room]
    | dropped new long full =>
      cases hitem
      rw [if_neg new, if_neg (by simp [long]), if_neg (Nat.not_lt.2 full)]
  · intro hnone
    cases h with
    | nothing => exact .inl rfl
    | failed e => exact .inr ⟨e, rfl⟩
    | _ => cases hnone
  · intro hqueued
    cases h with
    | queued new long room => exact ⟨_, rfl, rfl⟩
    | _ => cases hqueued

/-! ## Runs -/

/-- What can happen next: a poll, or anything else, which leaves the gate as it is. -/
inductive Move where
  | poll (reading : Reading)
  | push (item : Item)
  | take
  | batch
  | meanwhile (change : FileTree → FileTree)

/-- What is seen of a poll: the item that it captured, and its answer. -/
structure Look where
  captured : Option Item
  answer : Except Failure Collected

/-- The item that was let through, if one was: it was queued, or dropped for want of room. -/
def Look.letThrough? (l : Look) : Option Item :=
  match l.answer with
  | .ok .queued => l.captured
  | .ok .dropped => l.captured
  | _ => none

/-- The items that were let through, in order. -/
def letThrough (looks : List Look) : List Item := looks.filterMap Look.letThrough?

theorem letThrough_append (looks more : List Look) :
    letThrough (looks ++ more) = letThrough looks ++ letThrough more := List.filterMap_append

/-- The fingerprint that was let through last. -/
def latest? (looks : List Look) : Option Fingerprint :=
  ((letThrough looks).map Item.fingerprint).getLast?

def move (p : Pipeline) (s : PipelineState) : Move → PipelineState × List Look
  | .poll reading =>
    let (answer, s') := p.collect reading s
    (s', [⟨p.captured? reading s, answer⟩])
  | .push item => ({ s with queue := (s.queue.push item).2 }, [])
  | .take => ({ s with queue := s.queue.take.2 }, [])
  | .batch => ((p.nextBatch s).2, [])
  | .meanwhile change => ({ s with files := change s.files }, [])

/-- The moves one after the other: the state at the end, and all looks. -/
def moves (p : Pipeline) : PipelineState → List Move → PipelineState × List Look
  | s, [] => (s, [])
  | s, m :: rest =>
    let (s, seen) := p.move s m
    let (s, later) := moves p s rest
    (s, seen ++ later)

theorem moves_cons (p : Pipeline) (s : PipelineState) (m : Move) (rest : List Move) :
    p.moves s (m :: rest) = ((p.moves (p.move s m).1 rest).1,
      (p.move s m).2 ++ (p.moves (p.move s m).1 rest).2) := rfl

theorem moves_append (p : Pipeline) (s : PipelineState) (ms ns : List Move) :
    p.moves s (ms ++ ns) = ((p.moves (p.moves s ms).1 ns).1,
      (p.moves s ms).2 ++ (p.moves (p.moves s ms).1 ns).2) := by
  induction ms generalizing s with
  | nil => rfl
  | cons m ms ih => rw [List.cons_append, moves_cons, moves_cons, ih, List.append_assoc]

/-! ## What a run preserves -/

/-- The gate and the queue of `s` after `looks`: the gate remembers the latest item let through,
none of these is short, and no two in a row have the same fingerprint. -/
structure Tracks (p : Pipeline) (s : PipelineState) (looks : List Look) : Prop where
  least : s.gate.minLength = p.performance.minContent
  capacity : s.queue.capacity = max p.performance.maxQueue 1
  bound : s.queue.length ≤ s.queue.capacity
  last : s.gate.last = latest? looks
  long : ∀ item ∈ letThrough looks, item.isShort p.performance.minContent = false
  differ : ((letThrough looks).map Item.fingerprint).IsChain (· ≠ ·)

theorem tracks_start {p : Pipeline} {files : FileTree} {s : PipelineState}
    (hstart : p.start files = .ok s) : Tracks p s [] := by
  unfold start WorkQueue.create? at hstart
  split at hstart
  · cases hstart
  split at hstart
  · cases hstart
  cases hstart
  exact ⟨rfl, rfl, Nat.zero_le _, rfl, fun _ h => absurd h List.not_mem_nil, .nil⟩

/-- Looks that let nothing through leave the gate as it is, and the queue within its bound. -/
theorem Tracks.aside {p : Pipeline} {s s' : PipelineState} {looks more : List Look}
    (h : Tracks p s looks) (hnone : letThrough more = []) (hgate : s'.gate = s.gate)
    (hcapacity : s'.queue.capacity = s.queue.capacity)
    (hbound : s'.queue.length ≤ s'.queue.capacity) : Tracks p s' (looks ++ more) := by
  have hsame : letThrough (looks ++ more) = letThrough looks := by
    rw [letThrough_append, hnone, List.append_nil]
  refine ⟨?_, ?_, hbound, ?_, ?_, ?_⟩
  · rw [hgate]
    exact h.least
  · rw [hcapacity]
    exact h.capacity
  · rw [hgate, h.last, latest?, latest?, hsame]
  · rw [hsame]
    exact h.long
  · rw [hsame]
    exact h.differ

/-- A look that lets an item through which is neither short nor like the one before. -/
theorem Tracks.letIn {p : Pipeline} {s s' : PipelineState} {looks : List Look} {l : Look}
    {item : Item} (h : Tracks p s looks) (hitem : l.letThrough? = some item)
    (hnew : s.gate.last ≠ some item.fingerprint) (hlong : item.isShort s.gate.minLength = false)
    (hgate : s'.gate = { s.gate with last := some item.fingerprint })
    (hcapacity : s'.queue.capacity = s.queue.capacity)
    (hbound : s'.queue.length ≤ s'.queue.capacity) : Tracks p s' (looks ++ [l]) := by
  have hone : letThrough [l] = [item] := by
    rw [letThrough, List.filterMap_cons_some hitem, List.filterMap_nil]
  have hmore : letThrough (looks ++ [l]) = letThrough looks ++ [item] := by
    rw [letThrough_append, hone]
  refine ⟨?_, ?_, hbound, ?_, ?_, ?_⟩
  · rw [hgate]
    exact h.least
  · rw [hcapacity]
    exact h.capacity
  · rw [hgate, latest?, hmore]
    simp
  · rw [hmore]
    intro i hi
    rcases List.mem_append.1 hi with hi | hi
    · exact h.long i hi
    · rw [List.mem_singleton.1 hi, ← h.least]
      exact hlong
  · rw [hmore, List.map_append, List.map_singleton, List.isChain_append]
    refine ⟨h.differ, .singleton _, ?_⟩
    intro f hf g hg heq
    have hlast : latest? looks = some f := hf
    have hg' : item.fingerprint = g := Option.some.inj hg
    exact hnew (by rw [h.last, hlast, hg', heq])

/-- A poll, by its outcome. -/
theorem poll_tracks {p : Pipeline} {s : PipelineState} {looks : List Look} (h : Tracks p s looks)
    (reading : Reading) :
    Tracks p (p.collect reading s).2
      (looks ++ [⟨p.captured? reading s, (p.collect reading s).1⟩]) := by
  obtain ⟨files, hpoll⟩ := p.collect_polled reading s
  generalize p.captured? reading s = captured at hpoll ⊢
  generalize p.collect reading s = out at hpoll ⊢
  obtain ⟨answer, s'⟩ := out
  dsimp only at hpoll ⊢
  cases hpoll with
  | nothing => exact h.aside rfl rfl rfl h.bound
  | failed e => exact h.aside rfl rfl rfl h.bound
  | duplicate same => exact h.aside rfl rfl rfl h.bound
  | tooShort new short => exact h.aside rfl rfl rfl h.bound
  | queued new long room =>
    refine h.letIn rfl new long rfl rfl ?_
    show (s.queue.items ++ [_]).length ≤ s.queue.capacity
    have hroom : s.queue.items.length < s.queue.capacity := room
    simp
    omega
  | dropped new long full => exact h.letIn rfl new long rfl rfl h.bound

theorem move_tracks {p : Pipeline} {s : PipelineState} {looks : List Look} (h : Tracks p s looks)
    (m : Move) : Tracks p (p.move s m).1 (looks ++ (p.move s m).2) := by
  have hbound := h.bound
  cases m with
  | poll reading => exact poll_tracks h reading
  | push item =>
    exact h.aside rfl rfl (s.queue.capacity_push item) (s.queue.length_push_le item hbound)
  | take =>
    have hcapacity := s.queue.capacity_take
    have hlength := s.queue.length_take_le
    refine h.aside rfl rfl hcapacity ?_
    show s.queue.take.2.length ≤ s.queue.take.2.capacity
    omega
  | batch =>
    refine h.aside rfl rfl rfl ?_
    show (s.queue.items.drop p.batchLimit).length ≤ s.queue.capacity
    have hlength : s.queue.items.length ≤ s.queue.capacity := hbound
    rw [List.length_drop]
    omega
  | meanwhile change => exact h.aside rfl rfl rfl hbound

theorem moves_tracks {p : Pipeline} {s : PipelineState} {looks : List Look} (h : Tracks p s looks)
    (ms : List Move) : Tracks p (p.moves s ms).1 (looks ++ (p.moves s ms).2) := by
  induction ms generalizing s looks with
  | nil =>
    rw [moves, List.append_nil]
    exact h
  | cons m ms ih =>
    have hfirst := move_tracks h m
    rw [moves_cons, ← List.append_assoc]
    exact ih hfirst

/-- After any looks, the answer to a poll follows from what was let through last. -/
theorem Tracks.answers {p : Pipeline} {s : PipelineState} {looks : List Look}
    (h : Tracks p s looks) (reading : Reading) :
    Answers p s (latest? looks) (p.captured? reading s) (p.collect reading s).1
      (p.collect reading s).2 := by
  obtain ⟨files, hpoll⟩ := p.collect_polled reading s
  have hanswers := hpoll.answers h.least h.capacity h.bound
  rw [← h.last]
  exact ⟨hanswers.verdict, hanswers.bound, hanswers.nothing, hanswers.gate, hanswers.queue,
    hanswers.added⟩

/-! ## Content that stays the same -/

theorem captured_of_letThrough? {l : Look} {item : Item} (h : l.letThrough? = some item) :
    l.captured = some item := by
  unfold Look.letThrough? at h
  split at h
  · exact h
  · exact h
  · cases h

/-- Where no two fingerprints in a row are the same and all items are, there is one item at
most. -/
theorem length_le_one_of_isChain {items : List Item} {item : Item}
    (hchain : (items.map Item.fingerprint).IsChain (· ≠ ·)) (hsame : ∀ i ∈ items, i = item) :
    items.length ≤ 1 := by
  match items with
  | [] => exact Nat.zero_le 1
  | [_] => exact Nat.le_refl 1
  | i :: j :: rest =>
    have hi : i = item := hsame i List.mem_cons_self
    have hj : j = item := hsame j (List.mem_cons_of_mem i List.mem_cons_self)
    rw [List.map_cons, List.map_cons, List.isChain_cons_cons, hi, hj] at hchain
    exact absurd rfl hchain.1

/-- **Content is let through once, however long it stays.** In every sequence of moves the gate
remembers the latest item that was let through, and each poll `Answers` by it. No two items in a row
are let through with one fingerprint. And in a `stretch` in which nothing but `item` and short texts
are captured, one item is let through at most, whatever happens to the queue. -/
theorem moves_letThrough {p : Pipeline} {files : FileTree} {s : PipelineState}
    (hstart : p.start files = .ok s) (ms : List Move) :
    let (s', looks) := p.moves s ms
    s'.gate.last = latest? looks ∧
    (∀ before reading after, ms = before ++ .poll reading :: after →
      let (s₁, seen) := p.moves s before
      let (answer, s₂) := p.collect reading s₁
      Answers p s₁ (latest? seen) (p.captured? reading s₁) answer s₂) ∧
    ((letThrough looks).map Item.fingerprint).IsChain (· ≠ ·) ∧
    ∀ before stretch after item, ms = before ++ stretch ++ after →
      let looks := (p.moves (p.moves s before).1 stretch).2
      (∀ l ∈ looks, ∀ i, l.captured = some i →
        i = item ∨ i.isShort p.performance.minContent = true) →
      (letThrough looks).length ≤ 1 := by
  have hrun (ms : List Move) : Tracks p (p.moves s ms).1 (p.moves s ms).2 :=
    moves_tracks (tracks_start hstart) ms
  refine ⟨(hrun ms).last, ?_, (hrun ms).differ, ?_⟩
  · intro before reading after hms
    exact (hrun before).answers reading
  · intro before stretch after item hms looks hcaptured
    have hwhole : (p.moves s ms).2 = (p.moves s before).2 ++ looks ++
        (p.moves (p.moves (p.moves s before).1 stretch).1 after).2 := by
      rw [hms, List.append_assoc, moves_append, moves_append]
      exact (List.append_assoc _ _ _).symm
    have hdiffer := (hrun ms).differ
    have hlong := (hrun ms).long
    rw [hwhole, letThrough_append, letThrough_append] at hdiffer hlong
    rw [List.map_append, List.map_append] at hdiffer
    have hsame : ∀ i ∈ letThrough looks, i = item := by
      intro i hi
      obtain ⟨l, hl, hlet⟩ := List.mem_filterMap.1 hi
      have hmem : i ∈ letThrough (p.moves s before).2 ++ letThrough looks :=
        List.mem_append_right _ hi
      rcases hcaptured l hl i (captured_of_letThrough? hlet) with hsame | hshort
      · exact hsame
      · have hnot := hlong i (List.mem_append_left _ hmem)
        rw [hshort] at hnot
        cases hnot
    exact length_le_one_of_isChain hdiffer.left_of_append.right_of_append hsame

/-- A text stays in the clipboard of a full queue, between a short text and a breakdown, and is
let through once. -/
theorem moves_letThrough_full_queue :
    let p := Pipeline.ofSettings
      { performance := { Performance.default with maxQueue := 0 }
        model := .default
        paths := .under (.ofString "home") }
      (.script [] false) (fun _ => ⟨[], []⟩)
    let text := "the text that stays".toList
    let stretch : List Move := [.push (.text "from elsewhere".toList), .poll (.text text),
      .poll (.text "tiny".toList), .take, .poll .breakdown, .poll (.text text)]
    ∃ s, p.start (.empty 0) = .ok s ∧
      (∀ l ∈ (p.moves s stretch).2, ∀ i, l.captured = some i →
        i = .text text ∨ i.isShort p.performance.minContent = true) ∧
      (letThrough (p.moves s stretch).2).length ≤ 1 := by
  intro p text stretch
  have hcaptured (s : PipelineState) : ∀ l ∈ (p.moves s stretch).2, ∀ i, l.captured = some i →
      i = .text text ∨ i.isShort p.performance.minContent = true := by
    have hlooks : (p.moves s stretch).2.map Look.captured =
        [some (.text text), some (.text "tiny".toList), none, some (.text text)] := rfl
    have hshort : (Item.text "tiny".toList).isShort p.performance.minContent = true := by decide
    intro l hl i hi
    have hmem := List.mem_map_of_mem (f := Look.captured) hl
    rw [hlooks, hi] at hmem
    simp only [List.mem_cons, Option.some.injEq, reduceCtorEq, false_or, List.not_mem_nil,
      or_false] at hmem
    rcases hmem with rfl | rfl | rfl
    · exact .inl rfl
    · exact .inr hshort
    · exact .inl rfl
  refine ⟨_, rfl, hcaptured _, ?_⟩
  exact (moves_letThrough (p := p) rfl stretch).2.2.2 [] stretch [] (.text text)
    (by simp) (hcaptured _)

end Pipeline
end ClipLedger
