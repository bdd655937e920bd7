import ClipLedger.Pipeline.Run
import ClipLedger.Proofs.Pipeline.Effects

/-
  The worker of `runUntil`. Each of its steps costs `RunState.rank` (`workerStep_rank`), of which
  `workBound` is a bound; so `workUntil` ends where no step is due any more
  (`workerStep_workUntil`). A step at `now` is due before `limit`, or at `limit` where `atLimit`
  (`isDue_iff`).
-/
namespace ClipLedger

/-- What the worker of a run can still do: three steps for an item, and one to take a batch. -/
def RunState.rank (r : RunState) : Nat :=
  match r.worker with
  | .ready _ [] => 3 * r.state.queue.length + 2
  | .ready _ (_ :: rest) => 3 * (r.state.queue.length + rest.length) + 4
  | .analysed _ _ _ rest => 3 * (r.state.queue.length + rest.length) + 3
  | _ => 0

namespace Pipeline

variable {p : Pipeline} {deadline limit : Nat} {atLimit : Bool} {s : PipelineState}
  {r r' : RunState}

/-! ## Steps that are due -/

theorem isDue_iff {now : Nat} : isDue now limit atLimit = true ↔
    now < limit ∨ now = limit ∧ atLimit = true := by
  unfold isDue
  rw [Bool.or_eq_true, decide_eq_true_iff, Bool.and_eq_true, beq_iff_eq]

theorem le_of_isDue {now : Nat} (h : isDue now limit atLimit = true) : now ≤ limit :=
  (isDue_iff.1 h).elim Nat.le_of_lt fun h => Nat.le_of_eq h.1

theorem isDue_of_ready {now : Nat} {batch : List Item}
    (h : p.workerStep deadline limit atLimit ⟨s, .ready now batch⟩ = none) :
    isDue now limit atLimit = false := by
  unfold workerStep at h
  refine Bool.eq_false_iff.2 fun hdue => ?_
  cases batch with
  | nil => exact absurd ((if_pos hdue).symm.trans h) (Option.some_ne_none _)
  | cons item rest => exact absurd ((if_pos hdue).symm.trans h) (Option.some_ne_none _)

theorem isDue_of_analysed {now : Nat} {item : Item} {a : Analysis Float} {rest : List Item}
    (h : p.workerStep deadline limit atLimit ⟨s, .analysed now item a rest⟩ = none) :
    isDue now limit (atLimit && a.record.isEmpty) = false := by
  unfold workerStep at h
  exact Bool.eq_false_iff.2 fun hdue =>
    absurd ((if_pos hdue).symm.trans h) (Option.some_ne_none _)

theorem le_of_not_isDue {now : Nat} (h : isDue now limit atLimit = false) : limit ≤ now :=
  Nat.le_of_not_lt fun hlt => Bool.eq_false_iff.1 h (isDue_iff.2 (.inl hlt))

/-! ## All steps that are due -/

theorem rank_ready_le (now : Nat) (batch : List Item) (s : PipelineState) :
    RunState.rank ⟨s, .ready now batch⟩ ≤ 3 * (s.queue.length + batch.length) + 2 := by
  unfold RunState.rank
  cases batch with
  | nil => exact Nat.le_refl _
  | cons item rest =>
    dsimp only
    rw [List.length_cons]
    omega

theorem fetch_rank (p : Pipeline) (now : Nat) (s : PipelineState) :
    (p.fetch now s).rank < 3 * s.queue.length + 2 := by
  have hsplit := congrArg List.length (s.queue.takeMany_append p.batchLimit)
  rw [List.length_append] at hsplit
  unfold fetch nextBatch
  generalize s.queue.takeMany p.batchLimit = out at hsplit ⊢
  obtain ⟨batch, queue⟩ := out
  cases batch with
  | nil => exact Nat.succ_pos _
  | cons item rest =>
    unfold RunState.rank WorkQueue.length
    dsimp only at hsplit ⊢
    rw [List.length_cons] at hsplit
    omega

theorem begin_rank (p : Pipeline) (now deadline : Nat) (item : Item) (rest : List Item)
    (s : PipelineState) :
    (p.begin now deadline item rest s).rank < 3 * (s.queue.length + rest.length) + 4 := by
  have hqueue := p.queue_analyse item
    { s with session := { s.session with clock := now, deadline := some deadline } }
  unfold begin
  dsimp only
  split
  · next a s' h =>
    have hs' : s'.queue = s.queue := snd_of_eq h hqueue
    rw [← hs']
    exact Nat.lt_succ_self _
  · next s' h =>
    have hs' : s'.queue = s.queue := snd_of_eq h hqueue
    have hready := rank_ready_le (s'.session.clock + errorPause) rest s'
    rw [← hs']
    omega
  · exact Nat.succ_pos _
  · exact Nat.succ_pos _

theorem conclude_rank (p : Pipeline) (now : Nat) (item : Item) (a : Analysis Float)
    (rest : List Item) (s : PipelineState) :
    (p.conclude now item a rest s).rank < 3 * (s.queue.length + rest.length) + 3 := by
  have hqueue := p.queue_finish item a s
  unfold conclude
  split <;> next s' h =>
    have hs' : s'.queue = s.queue := snd_of_eq h hqueue
    rw [← hs']
    exact Nat.lt_succ_of_le (rank_ready_le _ _ _)

theorem workerStep_rank (h : p.workerStep deadline limit atLimit r = some r') :
    r'.rank < r.rank := by
  obtain ⟨s, worker⟩ := r
  unfold workerStep at h
  cases worker with
  | ready now batch =>
    cases batch with
    | nil =>
      dsimp only at h
      split at h
      · cases h
        exact p.fetch_rank now s
      · cases h
    | cons item rest =>
      dsimp only at h
      split at h
      · cases h
        exact p.begin_rank now deadline item rest s
      · cases h
  | analysed now item a rest =>
    dsimp only at h
    split at h
    · cases h
      exact p.conclude_rank now item a rest s
    · cases h
  | waiting => cases h
  | cutOff => cases h
  | broken time => cases h

/-- The worker goes on as long as a step is due. -/
theorem workerStep_workUntil (p : Pipeline) (deadline limit : Nat) (atLimit : Bool)
    (r : RunState) :
    p.workerStep deadline limit atLimit (p.workUntil deadline limit atLimit r) = none := by
  have hbound : r.rank ≤ workBound r := by
    obtain ⟨s, worker⟩ := r
    cases worker with
    | ready now batch =>
      exact Nat.le_succ_of_le (rank_ready_le now batch s)
    | analysed now item a rest => exact Nat.le_refl _
    | waiting => exact Nat.zero_le _
    | cutOff => exact Nat.zero_le _
    | broken time => exact Nat.zero_le _
  unfold workUntil
  generalize workBound r = fuel at hbound
  induction fuel generalizing r with
  | zero =>
    cases h : p.workerStep deadline limit atLimit r with
    | none => exact h
    | some r' => exact absurd (workerStep_rank h) (by omega)
  | succ fuel ih =>
    rw [work]
    cases h : p.workerStep deadline limit atLimit r with
    | none => exact h
    | some r' =>
      have hrank := workerStep_rank h
      exact ih r' (by omega)

/-! ## Breakdowns and waiting -/

theorem le_of_not_brokeBy {now time : Nat} (h : brokeBy now r = false)
    (hr : r.worker = .broken time) : now ≤ time := by
  unfold brokeBy at h
  rw [hr] at h
  exact Nat.le_of_lt (Nat.lt_of_not_le fun hle => of_decide_eq_false h hle)

theorem broken_of_brokeBy {now : Nat} (h : brokeBy now r = true) :
    ∃ time, r.worker = .broken time ∧ time ≤ now := by
  unfold brokeBy at h
  split at h
  · next time hr => exact ⟨time, hr, of_decide_eq_true h⟩
  · cases h

theorem workUntil_of_broken {time : Nat} (hr : r.worker = .broken time) :
    p.workUntil deadline limit atLimit r = r := by
  unfold workUntil workBound
  obtain ⟨s, worker⟩ := r
  obtain rfl : worker = .broken time := hr
  rfl

theorem wake_of_busy {w : Worker} (h : w ≠ .waiting) (now : Nat) (s : PipelineState) :
    p.wake now ⟨s, w⟩ = ⟨s, w⟩ := by
  unfold wake
  split
  · next hw => exact absurd hw h
  · rfl

end Pipeline
end ClipLedger
