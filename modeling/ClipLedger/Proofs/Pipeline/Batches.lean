import ClipLedger.Proofs.Files.Alike
import ClipLedger.Proofs.Pipeline.Conservation

/-
  How many items a batch may have makes no difference. Waiting for one item and then taking what is
  there yields the front of the queue (`takeBatch_ofQueue`), and processing looks at nothing of the
  queue (`process_withQueue`); so a worker that takes batches until the queue is empty does what
  processing the items one by one does (`drain_eq`). Other identities and times in what is stored
  make no difference to anything else either (`process_matches`), and so none to the outcome
  (`drain_unobservable`).
-/
namespace ClipLedger

open FileTree (Alike)

namespace SharedQueue

variable {α : Type}

/-! ## Waiting for a batch -/

/-- Takes items with `tryTake` until `batch` has `limit` of them or none is there. -/
def fill (s : SharedQueue α) (limit : Nat) (batch : List α) : List α × SharedQueue α :=
  if batch.length < limit then
    match s.tryTake with
    | (none, s) => (batch, s)
    | (some a, s) => fill s limit (batch ++ [a])
  else (batch, s)
termination_by limit - batch.length
decreasing_by
  rw [List.length_append, List.length_singleton]
  omega

/-- Waits for one item, and takes those that are there behind it. Where none comes the taker gives
up. -/
def takeBatch (s : SharedQueue α) (taker limit : Nat) : List α × SharedQueue α :=
  match s.arrive taker with
  | (none, s) => ([], (s.settle taker).2)
  | (some first, s) => s.fill limit [first]

theorem fill_ofQueue (capacity limit : Nat) (batch items : List α) :
    (ofQueue ⟨capacity, items⟩).fill limit batch =
      (batch ++ items.take (limit - batch.length),
        ofQueue ⟨capacity, items.drop (limit - batch.length)⟩) := by
  induction items generalizing batch with
  | nil =>
    have hnone : (ofQueue ⟨capacity, ([] : List α)⟩).tryTake = (none, ofQueue ⟨capacity, []⟩) := rfl
    rw [fill, hnone, List.take_nil, List.drop_nil, List.append_nil, ite_self]
  | cons a items ih =>
    have hsome : (ofQueue ⟨capacity, a :: items⟩).tryTake =
        (some a, ofQueue ⟨capacity, items⟩) := rfl
    rw [fill, hsome]
    dsimp only
    split
    · next hroom =>
      obtain ⟨n, hn⟩ : ∃ n, limit - batch.length = n + 1 := ⟨limit - batch.length - 1, by omega⟩
      have hrest : limit - (batch ++ [a]).length = n := by
        rw [List.length_append, List.length_singleton]
        omega
      rw [ih, hrest, hn, List.take_succ_cons, List.drop_succ_cons, List.append_assoc,
        List.singleton_append]
    · next hfull =>
      rw [Nat.sub_eq_zero_of_le (Nat.le_of_not_lt hfull), List.take_zero, List.drop_zero,
        List.append_nil]

/-- **Where nobody else waits, `takeBatch` takes the front of the queue.** -/
theorem takeBatch_ofQueue (q : WorkQueue α) (taker limit : Nat) :
    (ofQueue q).takeBatch taker limit =
      ((q.takeMany (max limit 1)).1, ofQueue (q.takeMany (max limit 1)).2) := by
  obtain ⟨capacity, items⟩ := q
  unfold takeBatch WorkQueue.takeMany
  cases items with
  | nil =>
    have hcomes : (ofQueue ⟨capacity, ([] : List α)⟩).arrive taker =
        (none, ⟨⟨capacity, []⟩, [taker], some taker⟩) := by
      simp [arrive, ofQueue, perform, act, WorkQueue.take, Result.item?]
    rw [hcomes, List.take_nil, List.drop_nil]
    simp [settle, ofQueue, perform, act, WorkQueue.take, Result.item?, leave]
  | cons first rest =>
    have hcomes : (ofQueue ⟨capacity, first :: rest⟩).arrive taker =
        (some first, ofQueue ⟨capacity, rest⟩) := by
      simp [arrive, ofQueue, perform, act, WorkQueue.take, Result.item?, leave]
    obtain ⟨n, hn⟩ : ∃ n, max limit 1 = n + 1 := ⟨max limit 1 - 1, by omega⟩
    have hmore : limit - [first].length = n := by
      rw [List.length_singleton]
      omega
    rw [hcomes, hn, List.take_succ_cons, List.drop_succ_cons]
    dsimp only
    rw [fill_ofQueue, hmore, List.singleton_append]

end SharedQueue

namespace Dataset

/-! ## What is stored under other stamps -/

/-- The same bytes but for identities and times: lines that were stored for the same records, and
snapshots of the same statistics. -/
inductive Restamped (m : ModelInfo) : Bytes → Bytes → Prop
  | same (bytes : Bytes) : Restamped m bytes bytes
  | line {before before' : Bytes} (front : Restamped m before before') {stamp stamp' : Stamp}
      {item : Item} {r : Record Float} {text text' : Text}
      (stored : line? m stamp item r = some text) (stored' : line? m stamp' item r = some text') :
      Restamped m (before ++ Utf8.encode (text ++ ['\n']))
        (before' ++ Utf8.encode (text' ++ ['\n']))
  | snapshot (metrics : BaselineMetrics) (time time' : Text) :
      Restamped m (Utf8.encode (metrics.toJson time).pretty)
        (Utf8.encode (metrics.toJson time').pretty)

/-- Whether there is a line for a record does not depend on the stamp. -/
theorem line?_restamp (m : ModelInfo) (item : Item) (r : Record Float) (stamp stamp' : Stamp) :
    line? m stamp item r = none ∧ line? m stamp' item r = none ∨
      ∃ text text', line? m stamp item r = some text ∧ line? m stamp' item r = some text' := by
  unfold line? object?
  cases item.toJson? with
  | none => exact .inl ⟨rfl, rfl⟩
  | some content => exact .inr ⟨_, _, rfl, rfl⟩

theorem append_restamp {m : ModelInfo} {t t' : FileTree} (h : Alike (Restamped m) t t') (q : Path)
    (stamp stamp' : Stamp) (item : Item) (r : Record Float) :
    (append t q m stamp item r).1 = (append t' q m stamp' item r).1 ∧
      Alike (Restamped m) (append t q m stamp item r).2 (append t' q m stamp' item r).2 := by
  unfold append
  rcases line?_restamp m item r stamp stamp' with
    ⟨hnone, hnone'⟩ | ⟨text, text', hsome, hsome'⟩
  · rw [hnone, hnone']
    exact ⟨rfl, h⟩
  · rw [hsome, hsome']
    dsimp only
    have hlines : ∀ before before', Restamped m before before' →
        Restamped m (before ++ Utf8.encode (text ++ ['\n']))
          (before' ++ Utf8.encode (text' ++ ['\n'])) :=
      fun _ _ hfront => .line hfront hsome hsome'
    have happend := h.update (.same []) q hlines
    unfold appendLine
    rw [FileTree.append_whole, FileTree.append_whole]
    generalize t.update q _ = out at happend ⊢
    generalize t'.update q _ = out' at happend ⊢
    obtain ⟨result, files⟩ := out
    obtain ⟨result', files'⟩ := out'
    obtain ⟨hresult, hfiles⟩ := happend
    cases (show result = result' from hresult)
    cases result with
    | error e => exact ⟨rfl, hfiles⟩
    | ok _ => exact ⟨rfl, hfiles⟩

end Dataset

/-- The state with another queue. -/
def PipelineState.withQueue (s : PipelineState) (queue : WorkQueue Item) : PipelineState :=
  { s with queue := queue }

theorem PipelineState.queue_withQueue (s : PipelineState) (queue : WorkQueue Item) :
    (s.withQueue queue).queue = queue := rfl

namespace Pipeline

open Dataset (Restamped)

/-! ## Processing and the queue -/

theorem observe_withQueue (p : Pipeline) (a : Analysis Float) (s : PipelineState)
    (queue : WorkQueue Item) :
    p.observe a (s.withQueue queue) = (p.observe a s).withQueue queue := by
  unfold observe
  cases a.baseline with
  | none => rfl
  | some m => rfl

theorem store_withQueue (p : Pipeline) (item : Item) (r : Record Float) (s : PipelineState)
    (queue : WorkQueue Item) :
    p.store item r (s.withQueue queue) =
      ((p.store item r s).1, (p.store item r s).2.withQueue queue) := rfl

theorem finish_withQueue (p : Pipeline) (item : Item) (a : Analysis Float) (s : PipelineState)
    (queue : WorkQueue Item) :
    p.finish item a (s.withQueue queue) =
      ((p.finish item a s).1, (p.finish item a s).2.withQueue queue) := by
  unfold finish
  rw [p.observe_withQueue a s queue]
  generalize p.observe a s = s'
  dsimp only
  cases a.record.isEmpty with
  | true => rfl
  | false =>
    rw [p.store_withQueue item a.record s' queue]
    generalize p.store item a.record s' = out
    obtain ⟨result, s''⟩ := out
    cases result with
    | error e => rfl
    | ok _ => rfl

theorem analyse_withQueue (p : Pipeline) (item : Item) (s : PipelineState)
    (queue : WorkQueue Item) :
    p.analyse item (s.withQueue queue) =
      ((p.analyse item s).1, (p.analyse item s).2.withQueue queue) := by
  have hsame : p.analyzer.analyze p.client (s.withQueue queue).tracker item
      (s.withQueue queue).session = p.analyzer.analyze p.client s.tracker item s.session := rfl
  unfold analyse
  rw [hsame]
  generalize p.analyzer.analyze p.client s.tracker item s.session = out
  obtain ⟨result, session⟩ := out
  cases result with
  | ok a => rfl
  | error e =>
    cases e with
    | template e => rfl
    | halt h => rfl

/-- `process` looks at nothing of the queue, which it leaves as it is (`queue_process`). -/
theorem process_withQueue (p : Pipeline) (item : Item) (s : PipelineState)
    (queue : WorkQueue Item) :
    p.process item (s.withQueue queue) =
      ((p.process item s).1, (p.process item s).2.withQueue queue) := by
  unfold process
  rw [p.analyse_withQueue item s queue]
  generalize p.analyse item s = out
  obtain ⟨result, s'⟩ := out
  cases result with
  | error e => rfl
  | ok a =>
    dsimp only
    rw [p.finish_withQueue item a s' queue]
    generalize p.finish item a s' = out
    obtain ⟨result, s''⟩ := out
    cases result with
    | error e => rfl
    | ok done => rfl

theorem processAll_withQueue (p : Pipeline) (items : List Item) (s : PipelineState)
    (queue : WorkQueue Item) :
    p.processAll items (s.withQueue queue) =
      ((p.processAll items s).1, (p.processAll items s).2.withQueue queue) := by
  induction items generalizing s with
  | nil => rfl
  | cons item items ih =>
    rw [processAll_cons, processAll_cons, p.process_withQueue item s queue]
    dsimp only
    rw [ih]

theorem queue_processAll (p : Pipeline) (items : List Item) (s : PipelineState) :
    (p.processAll items s).2.queue = s.queue := by
  induction items generalizing s with
  | nil => rfl
  | cons item items ih =>
    rw [processAll_cons]
    exact (ih _).trans (p.queue_process item s)

theorem processAll_append (p : Pipeline) (items more : List Item) (s : PipelineState) :
    p.processAll (items ++ more) s =
      ((p.processAll items s).1 ++ (p.processAll more (p.processAll items s).2).1,
        (p.processAll more (p.processAll items s).2).2) := by
  induction items generalizing s with
  | nil => rfl
  | cons item items ih =>
    rw [List.cons_append, processAll_cons, processAll_cons, ih]
    rfl

/-! ## Batches until the queue is empty -/

/-- `nextBatch` takes the front of the queue, as many items as there are and `batchSize` allows, but
at least one. -/
theorem nextBatch_eq (p : Pipeline) (s : PipelineState) :
    p.nextBatch s = (s.queue.items.take (min s.queue.length (max p.performance.batchSize 1)),
      s.withQueue { s.queue with
        items := s.queue.items.drop (min s.queue.length (max p.performance.batchSize 1)) }) := by
  have hmany : s.queue.takeMany (max p.performance.batchSize 1) =
      s.queue.takeMany (min s.queue.length (max p.performance.batchSize 1)) := by
    unfold WorkQueue.takeMany WorkQueue.length
    rw [List.take_eq_take_min, List.drop_eq_drop_min, Nat.min_comm]
  unfold nextBatch batchLimit
  rw [hmany]
  rfl

theorem nextBatch_shorter (p : Pipeline) {s : PipelineState} (hne : s.queue.items ≠ []) :
    (p.nextBatch s).2.queue.items.length < s.queue.items.length := by
  have hlength := List.length_pos_of_ne_nil hne
  have hlimit : 1 ≤ p.batchLimit := Nat.le_max_right _ _
  show (s.queue.items.drop p.batchLimit).length < s.queue.items.length
  rw [List.length_drop]
  omega

/-- Takes batches and processes each, until the queue is empty. -/
def drain (p : Pipeline) (s : PipelineState) :
    List (Except Trouble (Option Processed)) × PipelineState :=
  if s.queue.items = [] then ([], s)
  else
    let done := p.processAll (p.nextBatch s).1 (p.nextBatch s).2
    let later := drain p done.2
    (done.1 ++ later.1, later.2)
termination_by s.queue.items.length
decreasing_by
  next hne =>
  rw [p.queue_processAll]
  exact p.nextBatch_shorter hne

/-- **`drain` is `processAll` of all that is queued**, whatever the size of batches. -/
theorem drain_eq (p : Pipeline) (s : PipelineState) :
    p.drain s = ((p.processAll s.queue.items s).1,
      (p.processAll s.queue.items s).2.withQueue { s.queue with items := [] }) := by
  induction s using drain.induct p with
  | case1 s hempty =>
    have hqueue : { s.queue with items := [] } = s.queue := by rw [← hempty]
    rw [drain, if_pos hempty, hempty, hqueue]
    rfl
  | case2 s hne done ih =>
    have hitems : s.queue.items = (p.nextBatch s).1 ++ (p.nextBatch s).2.queue.items :=
      (s.queue.takeMany_append p.batchLimit).symm
    -- the batch is processed as it would be with nothing taken from the queue
    have htaken : done = ((p.processAll (p.nextBatch s).1 s).1,
        (p.processAll (p.nextBatch s).1 s).2.withQueue (p.nextBatch s).2.queue) :=
      p.processAll_withQueue (p.nextBatch s).1 s (p.nextBatch s).2.queue
    have hrest := p.processAll_withQueue (p.nextBatch s).2.queue.items
      (p.processAll (p.nextBatch s).1 s).2 (p.nextBatch s).2.queue
    have hunfold : p.drain s = (done.1 ++ (p.drain done.2).1, (p.drain done.2).2) := by
      rw [drain, if_neg hne]
    rw [hunfold, ih, htaken]
    dsimp only
    rw [PipelineState.queue_withQueue, hrest, hitems, p.processAll_append]
    rfl

/-! ## Other stamps -/

/-- `p` with batches of another size and with other stamps. -/
def varied (p : Pipeline) (batchSize : Nat) (stamp : Nat → Stamp) : Pipeline :=
  { p with performance := { p.performance with batchSize := batchSize }, stamp := stamp }

/-- The same was observed and said in both states, and their files differ in stamps alone. -/
structure Matches (m : ModelInfo) (s s' : PipelineState) : Prop where
  tracker : s'.tracker = s.tracker
  session : s'.session = s.session
  files : Alike (Restamped m) s.files s'.files

theorem Matches.refl (m : ModelInfo) (s : PipelineState) : Matches m s s :=
  ⟨rfl, rfl, .refl .same s.files⟩

section

variable (p : Pipeline) (batchSize : Nat) (stamp : Nat → Stamp) {s s' : PipelineState}

theorem observe_matches (a : Analysis Float) (h : Matches p.modelInfo s s') :
    Matches p.modelInfo (p.observe a s) ((p.varied batchSize stamp).observe a s') := by
  unfold observe
  cases a.baseline with
  | none => exact ⟨rfl, h.session, h.files⟩
  | some m =>
    exact ⟨rfl, h.session,
      (h.files.update (.same []) p.baseline fun _ _ _ => .snapshot m _ _).2⟩

theorem finish_matches (item : Item) (a : Analysis Float) (h : Matches p.modelInfo s s') :
    ((p.varied batchSize stamp).finish item a s').1 = (p.finish item a s).1 ∧
      Matches p.modelInfo (p.finish item a s).2
        ((p.varied batchSize stamp).finish item a s').2 := by
  have hobserve := p.observe_matches batchSize stamp a h
  unfold finish
  generalize p.observe a s = seen at hobserve ⊢
  generalize (p.varied batchSize stamp).observe a s' = seen' at hobserve ⊢
  dsimp only
  cases a.record.isEmpty with
  | true => exact ⟨rfl, hobserve⟩
  | false =>
    obtain ⟨hresult, hfiles⟩ := Dataset.append_restamp hobserve.files p.dataset
      (p.stamp seen.stamped) (stamp seen'.stamped) item a.record
    have hstored : ((p.varied batchSize stamp).store item a.record seen').1 =
          (p.store item a.record seen).1 ∧
        Matches p.modelInfo (p.store item a.record seen).2
          ((p.varied batchSize stamp).store item a.record seen').2 :=
      ⟨hresult.symm, hobserve.tracker, hobserve.session, hfiles⟩
    generalize p.store item a.record seen = out at hstored ⊢
    generalize (p.varied batchSize stamp).store item a.record seen' = out' at hstored ⊢
    obtain ⟨result, stored⟩ := out
    obtain ⟨result', stored'⟩ := out'
    obtain ⟨rfl, hmatches⟩ : result' = result ∧ Matches p.modelInfo stored stored' := hstored
    cases result' with
    | error e => exact ⟨rfl, hmatches⟩
    | ok _ => exact ⟨rfl, hmatches⟩

theorem analyse_matches (item : Item) (h : Matches p.modelInfo s s') :
    ((p.varied batchSize stamp).analyse item s').1 = (p.analyse item s).1 ∧
      Matches p.modelInfo (p.analyse item s).2 ((p.varied batchSize stamp).analyse item s').2 := by
  have hsame : (p.varied batchSize stamp).analyzer.analyze (p.varied batchSize stamp).client
      s'.tracker item s'.session = p.analyzer.analyze p.client s.tracker item s.session := by
    rw [h.tracker, h.session]
    rfl
  unfold analyse
  rw [hsame]
  generalize p.analyzer.analyze p.client s.tracker item s.session = out
  obtain ⟨result, session⟩ := out
  cases result with
  | ok a => exact ⟨rfl, h.tracker, rfl, h.files⟩
  | error e =>
    cases e with
    | template e => exact ⟨rfl, h.tracker, rfl, h.files⟩
    | halt e => exact ⟨rfl, h.tracker, rfl, h.files⟩

/-- `process` has the same outcome under other stamps. -/
theorem process_matches (item : Item) (h : Matches p.modelInfo s s') :
    ((p.varied batchSize stamp).process item s').1 = (p.process item s).1 ∧
      Matches p.modelInfo (p.process item s).2 ((p.varied batchSize stamp).process item s').2 := by
  have hanalyse := p.analyse_matches batchSize stamp item h
  unfold process
  generalize p.analyse item s = out at hanalyse ⊢
  generalize (p.varied batchSize stamp).analyse item s' = out' at hanalyse ⊢
  obtain ⟨result, asked⟩ := out
  obtain ⟨result', asked'⟩ := out'
  obtain ⟨rfl, hasked⟩ : result' = result ∧ Matches p.modelInfo asked asked' := hanalyse
  cases result' with
  | error e => exact ⟨rfl, hasked⟩
  | ok a =>
    dsimp only
    have hfinish := p.finish_matches batchSize stamp item a hasked
    generalize p.finish item a asked = out at hfinish ⊢
    generalize (p.varied batchSize stamp).finish item a asked' = out' at hfinish ⊢
    obtain ⟨result, done⟩ := out
    obtain ⟨result', done'⟩ := out'
    obtain ⟨rfl, hdone⟩ : result' = result ∧ Matches p.modelInfo done done' := hfinish
    cases result' with
    | error e => exact ⟨rfl, hdone⟩
    | ok d => exact ⟨rfl, hdone⟩

theorem processAll_matches (items : List Item) (h : Matches p.modelInfo s s') :
    ((p.varied batchSize stamp).processAll items s').1 = (p.processAll items s).1 ∧
      Matches p.modelInfo (p.processAll items s).2
        ((p.varied batchSize stamp).processAll items s').2 := by
  induction items generalizing s s' with
  | nil => exact ⟨rfl, h⟩
  | cons item items ih =>
    obtain ⟨hfirst, hstates⟩ := p.process_matches batchSize stamp item h
    obtain ⟨hrest, hend⟩ := ih hstates
    rw [processAll_cons, processAll_cons, hfirst, hrest]
    exact ⟨rfl, hend⟩

end

/-- **The size of batches cannot be observed.** `drain`, with batches of any size and any stamps,
comes to what `processAll` item by item comes to: the results, the conversation, the tracker, and
every file up to `Restamped`. And a batch, by `nextBatch` as by `takeBatch`, is the front of the
queue, `min s.queue.length (max batchSize 1)` items. -/
theorem drain_unobservable (p : Pipeline) (batchSize : Nat) (stamp : Nat → Stamp)
    (s : PipelineState) :
    let q := p.varied batchSize stamp
    let (results, single) := p.processAll s.queue.items s
    let (results', drained) := q.drain s
    (results' = results ∧ drained.session = single.session ∧ drained.tracker = single.tracker ∧
      drained.queue.items = [] ∧
      ∀ f, Restamped p.modelInfo (single.files.contentOf f) (drained.files.contentOf f)) ∧
    ∀ (s : PipelineState) (taker : Nat),
      let n := min s.queue.length (max batchSize 1)
      q.nextBatch s = (s.queue.items.take n,
        s.withQueue { s.queue with items := s.queue.items.drop n }) ∧
      (SharedQueue.ofQueue s.queue).takeBatch taker batchSize =
        ((q.nextBatch s).1, .ofQueue (q.nextBatch s).2.queue) := by
  intro q
  obtain ⟨hresults, hmatches⟩ :=
    p.processAll_matches batchSize stamp s.queue.items (.refl p.modelInfo s)
  refine ⟨?_, fun s taker => ⟨q.nextBatch_eq s, ?_⟩⟩
  · rw [drain_eq]
    exact ⟨hresults, hmatches.session, hmatches.tracker, rfl,
      fun f => hmatches.files.contentOf (.same []) f⟩
  · exact SharedQueue.takeBatch_ofQueue s.queue taker batchSize

end Pipeline
end ClipLedger
