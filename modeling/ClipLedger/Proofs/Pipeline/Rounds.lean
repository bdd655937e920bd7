import ClipLedger.Proofs.Pipeline.Effects
import ClipLedger.Proofs.Timing

/-
  Rounds: one look at the clipboard, one batch, and its items processed and reported one after the
  other (`Pipeline.round`). With a client that `Opens` every stream at once and a dataset that is
  `Ready`, an analysis takes no time and every item that is `Storable` is stored, at whatever time
  that is (`analyse_finishes`); a round leaves nothing queued and the dataset ready (`round_idle`).
-/
namespace ClipLedger

open FileTree (Apart Grows SameLinks Writable)

/-! ## Time makes no difference -/

/-- `s` at another time. -/
def PipelineState.timed (s : PipelineState) (clock : Nat) (deadline : Option Nat) :
    PipelineState :=
  { s with session := ⟨s.session.sent, clock, deadline⟩ }

/-- `s` is `s'` at some other time. -/
def PipelineState.SameAs (s s' : PipelineState) : Prop :=
  ∃ clock deadline, s = s'.timed clock deadline

/-- `s` with nothing queued. -/
def PipelineState.drained (s : PipelineState) : PipelineState :=
  { s with queue := { s.queue with items := [] } }

namespace PipelineState.SameAs

variable {s s' s'' : PipelineState}

theorem refl (s : PipelineState) : s.SameAs s := ⟨s.session.clock, s.session.deadline, rfl⟩

theorem symm (h : s.SameAs s') : s'.SameAs s := by
  obtain ⟨_, _, rfl⟩ := h
  exact ⟨s'.session.clock, s'.session.deadline, rfl⟩

theorem trans (h : s.SameAs s') (h' : s'.SameAs s'') : s.SameAs s'' := by
  obtain ⟨clock, deadline, rfl⟩ := h
  obtain ⟨_, _, rfl⟩ := h'
  exact ⟨clock, deadline, rfl⟩

theorem queue (h : s.SameAs s') : s.queue = s'.queue := by
  obtain ⟨_, _, rfl⟩ := h
  rfl

theorem drained (h : s.SameAs s') : s.drained.SameAs s'.drained := by
  obtain ⟨clock, deadline, rfl⟩ := h
  exact ⟨clock, deadline, rfl⟩

theorem setQueue (h : s.SameAs s') (queue : WorkQueue Item) :
    SameAs { s with queue := queue } { s' with queue := queue } := by
  obtain ⟨clock, deadline, rfl⟩ := h
  exact ⟨clock, deadline, rfl⟩

theorem files (h : s.SameAs s') : s.files = s'.files := by
  obtain ⟨_, _, rfl⟩ := h
  rfl

end PipelineState.SameAs

namespace Pipeline

/-! ## Rounds -/

/-- Processes `item`, and reports it where it was stored. -/
def handle (p : Pipeline) (s : PipelineState) (item : Item) : PipelineState :=
  match p.process item s with
  | (.ok (some done), s) => (p.report done.item s).2
  | (_, s) => s

/-- Looks once at the clipboard, takes a batch and handles it. -/
def round (p : Pipeline) (reading : Reading) (s : PipelineState) : PipelineState :=
  let (batch, s) := p.nextBatch (p.collect reading s).2
  batch.foldl p.handle s

/-- Rounds one after the other, as many as the number says. -/
def rounds (p : Pipeline) (reading : Nat → Reading) (s : PipelineState) : Nat → PipelineState
  | 0 => s
  | n + 1 => p.round (reading n) (rounds p reading s n)

/-! ## Items that can be stored -/

/-- The item can be written down: it is a text, or the path of its image is one. -/
def Storable (item : Item) : Prop := ∃ content, item.writtenContent? = some content

theorem Storable.line {item : Item} (h : Storable item) (m : ModelInfo) (stamp : Stamp)
    (r : Record Float) : ∃ line, Dataset.line? m stamp item r = some line := by
  obtain ⟨content, hcontent⟩ := h
  unfold Dataset.line? Dataset.object? Item.toJson?
  rw [hcontent]
  exact ⟨_, rfl⟩

end Pipeline

theorem Source.capture_storable {s : Source} {text : Text}
    (h : Utf8.decode? s.assets.bytes = some text) {t t' : FileTree} {reading : Reading}
    {item : Item} (hcapture : s.capture t reading = (.ok (some item), t')) :
    Pipeline.Storable item := by
  rcases Source.capture_eq_ok hcapture with ⟨text, rfl⟩ | ⟨f, rfl⟩
  · exact ⟨text, rfl⟩
  · exact Assets.decode_location h f

namespace Pipeline

/-! ## A dataset that can be written -/

/-- The dataset can be written, and no folder for images is made in its place. -/
structure Ready (p : Pipeline) (t : FileTree) : Prop where
  writable : t.Writable p.dataset
  clear : ∀ q ∈ p.source.assets :: p.source.assets.parents, Apart t q p.dataset

theorem Ready.of_grows {p : Pipeline} {t t' : FileTree} (h : Ready p t) (hgrows : Grows t t')
    (hwritable : t'.Writable p.dataset) : Ready p t' :=
  ⟨hwritable, fun q hq => hgrows.links.apart (h.clear q hq)⟩

theorem Ready.of_puts {p : Pipeline} {t t' : FileTree} {q : Path} (h : Ready p t)
    (hputs : FileTree.Puts t q t') : Ready p t' :=
  h.of_grows hputs.grows (hputs.writable h.writable)

/-- `collect` puts one item in the queue at most, and leaves the files `Ready`. -/
theorem collect_ready {p : Pipeline} {text : Text}
    (hassets : Utf8.decode? p.source.assets.bytes = some text) {s : PipelineState}
    (hs : Ready p s.files) (hqueue : s.queue.items = []) (reading : Reading) :
    let s' := (p.collect reading s).2
    Ready p s'.files ∧ s'.queue.items.length ≤ 1 ∧ ∀ item ∈ s'.queue.items, Storable item := by
  have hready : Ready p (p.source.capture s.files reading).2 :=
    hs.of_grows (p.source.capture_grows s.files reading)
      (Source.capture_writable hs.writable hs.clear reading)
  have hnone : s.queue.items.length ≤ 1 ∧ ∀ item ∈ s.queue.items, Storable item := by
    rw [hqueue]
    exact ⟨Nat.zero_le 1, fun _ h => absurd h List.not_mem_nil⟩
  unfold collect
  cases hcapture : p.source.capture s.files reading with
  | mk result files =>
    rw [hcapture] at hready
    cases result with
    | error e => exact ⟨hready, hnone⟩
    | ok item? =>
      cases item? with
      | none => exact ⟨hready, hnone⟩
      | some item =>
        have hitem := Source.capture_storable hassets hcapture
        dsimp only
        unfold enqueue
        dsimp only
        cases s.gate.check item with
        | mk verdict gate =>
          cases verdict with
          | skip reason => exact ⟨hready, hnone⟩
          | accept =>
            dsimp only
            rcases s.queue.push_cases item with hpush | hpush
            · rw [hpush, hqueue]
              exact ⟨hready, Nat.le_refl 1, fun _ h => List.mem_singleton.1 h ▸ hitem⟩
            · rw [hpush]
              exact ⟨hready, hnone⟩

theorem observe_ready {p : Pipeline} {s : PipelineState} (hs : Ready p s.files)
    (a : Analysis Float) :
    Ready p (p.observe a s).files ∧ (p.observe a s).queue = s.queue := by
  unfold observe
  dsimp only
  split
  · exact ⟨hs, rfl⟩
  · exact ⟨hs.of_puts (FileTree.write_puts _ _ _), rfl⟩

variable {p : Pipeline} {s u x : PipelineState} {item : Item}

/-- Where the files are `Ready`, an item that is `Storable` is stored. -/
theorem store_ready (hitem : Storable item) (hs : Ready p s.files) (r : Record Float) :
    (p.store item r s).1 = .ok () ∧ Ready p (p.store item r s).2.files := by
  obtain ⟨line, hline⟩ := hitem.line p.modelInfo (p.stamp s.stamped) r
  exact ⟨Dataset.append_eq_ok hs.writable hline,
    hs.of_puts (Dataset.append_puts s.files p.dataset p.modelInfo _ item r .whole)⟩

theorem report_ready (hs : Ready p s.files) (item : Item) :
    Ready p (p.report item s).2.files := by
  have hputs := EventLog.append_puts s.files p.log (p.stamp s.stamped).timestamp
    "Content Processed".toList (reportText item) .whole
  exact hs.of_puts hputs

/-! ## An item at any time -/

theorem observe_sameAs (h : s.SameAs x) (a : Analysis Float) :
    (p.observe a s).SameAs (p.observe a x) := by
  obtain ⟨clock, deadline, rfl⟩ := h
  unfold observe PipelineState.timed
  dsimp only
  cases a.baseline <;> exact ⟨clock, deadline, rfl⟩

theorem report_sameAs (h : s.SameAs x) (item : Item) :
    (p.report item s).2.SameAs (p.report item x).2 := by
  obtain ⟨clock, deadline, rfl⟩ := h
  exact ⟨clock, deadline, rfl⟩

theorem store_sameAs (h : s.SameAs x) (item : Item) (r : Record Float) :
    (p.store item r s).1 = (p.store item r x).1 ∧
      (p.store item r s).2.SameAs (p.store item r x).2 := by
  obtain ⟨clock, deadline, rfl⟩ := h
  exact ⟨rfl, clock, deadline, rfl⟩

/-- If the client `Opens` every stream, `analyse` takes no time, and nothing but the conversation
changes. -/
theorem analyse_instant (hc : p.client.Opens) (item : Item) (s : PipelineState) :
    ∃ a, ∃ s₁ : PipelineState, s₁.files = s.files ∧ s₁.queue = s.queue ∧ ∀ clock deadline,
      p.analyse item (s.timed clock deadline) = (.ok a, s₁.timed clock deadline) := by
  obtain ⟨a, sent, ha⟩ := p.analyzer.analyze_instant hc s.tracker item s.session.sent
  refine ⟨a, { s with session := ⟨sent, 0, none⟩ }, rfl, rfl, fun clock deadline => ?_⟩
  have hanalyse := ha clock deadline
  unfold analyse PipelineState.timed
  dsimp only
  rw [hanalyse]

/-- What is left of an item once `a` has come of its analysis leads from `x` to `u`. -/
inductive Finishes (p : Pipeline) (item : Item) (a : Analysis Float) (x u : PipelineState) : Prop
  | empty (hr : a.record.isEmpty = true) (hu : (p.observe a x).SameAs u)
  | stored (hr : a.record.isEmpty = false)
      (hok : (p.store item a.record (p.observe a x)).1 = .ok ())
      (hu : (p.report item (p.store item a.record (p.observe a x)).2).2.SameAs u)

section Finishes

variable {a : Analysis Float} {v : PipelineState}

theorem Finishes.of_sameAs (h : Finishes p item a x u) (hs : s.SameAs x) (hv : u.SameAs v) :
    Finishes p item a s v := by
  have hobserve := observe_sameAs (p := p) hs a
  cases h with
  | empty hr hu => exact .empty hr ((hobserve.trans hu).trans hv)
  | stored hr hok hu =>
    obtain ⟨hsame, hstore⟩ := store_sameAs (p := p) hobserve item a.record
    exact .stored hr (hsame.trans hok) (((report_sameAs hstore item).trans hu).trans hv)

/-- All states that `Finishes` leads to are the same but for the time. -/
theorem Finishes.sameAs (h : Finishes p item a x u) (h' : Finishes p item a x v) : u.SameAs v := by
  cases h with
  | empty hr hu =>
    cases h' with
    | empty _ hv => exact hu.symm.trans hv
    | stored hr' => exact absurd (hr.symm.trans hr') (by decide)
  | stored hr _ hu =>
    cases h' with
    | empty hr' => exact absurd (hr.symm.trans hr') (by decide)
    | stored _ _ hv => exact hu.symm.trans hv

theorem Finishes.ready (h : Finishes p item a x u) (hitem : Storable item)
    (hx : Ready p x.files) : Ready p u.files ∧ u.queue = x.queue := by
  obtain ⟨hobserve, hqueue⟩ := observe_ready hx a
  cases h with
  | empty _ hu => exact ⟨hu.files ▸ hobserve, hu.queue.symm.trans hqueue⟩
  | stored _ _ hu =>
    have hstore := (store_ready hitem hobserve a.record).2
    exact ⟨hu.files ▸ report_ready hstore item, hu.queue.symm.trans hqueue⟩

/-- To handle an item is to analyse it, and to do what is left of it then. -/
theorem handle_finishes (hitem : Storable item) (h : p.analyse item s = (.ok a, x))
    (hx : Ready p x.files) : Finishes p item a x (p.handle s item) := by
  obtain ⟨hok, -⟩ := store_ready hitem (observe_ready hx a).1 a.record
  unfold handle process finish
  rw [h]
  dsimp only
  by_cases hr : a.record.isEmpty = true
  · rw [if_pos hr]
    exact .empty hr (.refl _)
  · rw [if_neg hr]
    refine .stored (Bool.eq_false_iff.2 hr) hok ?_
    generalize p.store item a.record (p.observe a x) = out at hok
    obtain ⟨result, x'⟩ := out
    obtain rfl : result = .ok () := hok
    exact .refl _

end Finishes

/-- `handle_finishes` at another time, with the analysis then. -/
theorem analyse_finishes (hc : p.client.Opens) (hitem : Storable item) (hs : Ready p s.files)
    (clock : Nat) (deadline : Option Nat) :
    ∃ a s', p.analyse item (s.timed clock deadline) = (.ok a, s') ∧ s'.session.clock = clock ∧
      s'.files = s.files ∧ s'.queue = s.queue ∧ Finishes p item a s' (p.handle s item) := by
  obtain ⟨a, x, hfiles, hqueue, ha⟩ := analyse_instant hc item s
  have hnow := handle_finishes hitem (ha s.session.clock s.session.deadline)
    (hfiles ▸ hs : Ready p x.files)
  exact ⟨a, _, ha clock deadline, rfl, hfiles, hqueue, hnow.of_sameAs ⟨_, _, rfl⟩ (.refl _)⟩

theorem handle_ready (hc : p.client.Opens) (hitem : Storable item) (hs : Ready p s.files) :
    Ready p (p.handle s item).files ∧ (p.handle s item).queue = s.queue := by
  obtain ⟨a, x, -, -, hfiles, hqueue, hfinish⟩ := analyse_finishes hc hitem hs 0 none
  obtain ⟨hready, hkept⟩ := hfinish.ready hitem (hfiles ▸ hs)
  exact ⟨hready, hkept.trans hqueue⟩

theorem handle_sameAs (hc : p.client.Opens) (hitem : Storable item) (hx : Ready p x.files)
    (h : s.SameAs x) : (p.handle s item).SameAs (p.handle x item) := by
  obtain ⟨clock, deadline, rfl⟩ := h
  obtain ⟨a, y, ha, -, hfiles, -, hfinish⟩ := analyse_finishes hc hitem hx clock deadline
  exact (handle_finishes hitem ha (hfiles ▸ hx)).sameAs hfinish

/-! ## Rounds at any time -/

theorem nextBatch_of_empty (p : Pipeline) {s : PipelineState} (hqueue : s.queue.items = []) :
    p.nextBatch s = ([], s) := by
  have hqueue' : { s.queue with items := s.queue.items.drop p.batchLimit } = s.queue := by
    rw [hqueue, List.drop_nil, ← hqueue]
  unfold nextBatch WorkQueue.takeMany
  rw [hqueue', hqueue, List.take_nil]

/-- Between two rounds nothing is queued, and the files are `Ready`. -/
structure Idle (p : Pipeline) (s : PipelineState) : Prop where
  ready : Ready p s.files
  empty : s.queue.items = []

/-- What a look brings about is the rest of a round: nothing, or the item that it put in the queue
is to be handled. -/
theorem round_cases {text : Text} (hassets : Utf8.decode? p.source.assets.bytes = some text)
    (hs : Idle p s) (reading : Reading) :
    let s' := (p.collect reading s).2
    (s'.queue.items = [] ∧ Ready p s'.files ∧ p.round reading s = s') ∨
    ∃ item, s'.queue.items = [item] ∧ Storable item ∧ Ready p s'.files ∧
      p.round reading s = p.handle s'.drained item := by
  obtain ⟨hready, hone, hitems⟩ := collect_ready hassets hs.ready hs.empty reading
  dsimp only
  unfold round
  generalize (p.collect reading s).2 = s' at hready hone hitems
  cases hqueue : s'.queue.items with
  | nil => exact .inl ⟨rfl, hready, by rw [nextBatch_of_empty p hqueue]; rfl⟩
  | cons item rest =>
    rw [hqueue] at hone hitems
    obtain rfl : rest = [] := List.eq_nil_of_length_eq_zero (by simpa using hone)
    refine .inr ⟨item, rfl, hitems item (List.mem_singleton.2 rfl), hready, ?_⟩
    have hbatch : p.nextBatch s' = ([item], s'.drained) := by
      have hlimit : 1 ≤ p.batchLimit := Nat.le_max_right _ _
      have htake : [item].take p.batchLimit = [item] := List.take_of_length_le hlimit
      have hdrop : [item].drop p.batchLimit = [] := List.drop_eq_nil_of_le hlimit
      unfold nextBatch WorkQueue.takeMany
      rw [hqueue, htake, hdrop, PipelineState.drained]
    rw [hbatch]
    rfl

theorem round_idle (hc : p.client.Opens) {text : Text}
    (hassets : Utf8.decode? p.source.assets.bytes = some text) (hs : Idle p s)
    (reading : Reading) : Idle p (p.round reading s) := by
  rcases round_cases hassets hs reading with ⟨hempty, hready, hround⟩ |
    ⟨item, -, hitem, hready, hround⟩
  · rw [hround]
    exact ⟨hready, hempty⟩
  · rw [hround]
    obtain ⟨hready', hqueue⟩ := handle_ready (s := (p.collect reading s).2.drained) hc hitem hready
    exact ⟨hready', congrArg WorkQueue.items hqueue⟩

theorem rounds_idle (hc : p.client.Opens) {text : Text}
    (hassets : Utf8.decode? p.source.assets.bytes = some text) (reading : Nat → Reading)
    (hs : Idle p s) (n : Nat) : Idle p (p.rounds reading s n) := by
  induction n with
  | zero => exact hs
  | succ n ih => exact round_idle hc hassets ih (reading n)

end Pipeline
end ClipLedger
