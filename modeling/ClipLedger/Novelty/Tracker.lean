import ClipLedger.Novelty.Arith
import ClipLedger.Novelty.Tally
import ClipLedger.Novelty.Baseline
import ClipLedger.Persona.Record

/-
  Novelty: how rare the keys and values of a text are among all that was observed. The tracker
  counts keys and values, keeps the latest records, and collects the first responses until it has
  enough of them for the baseline statistics, once.
-/
namespace ClipLedger

/-- What was observed so far. `collected` holds the pairs of the first responses, the newest last,
and is `none` once the baseline is complete. -/
structure Tracker (α : Type) where
  historySize : Nat
  baselinePeriod : Nat
  history : List (Record α)
  keys : Tally
  values : Tally
  collected : Option (List (List Pair))

namespace Tracker

variable {α : Type}

/-- A tracker that has observed nothing. It collects no baseline if `baselinePeriod` is zero. -/
def fresh (historySize baselinePeriod : Nat) : Tracker α :=
  ⟨historySize, baselinePeriod, [], .empty, .empty, if baselinePeriod = 0 then none else some []⟩

section Score

variable [Arith α]

/-- `1 / (1 + n)` for a text that was seen `n` times. -/
def rarity (t : Tally) (key : Text) : α :=
  Arith.div (Arith.ofNat 1) (Arith.add (Arith.ofNat 1) (Arith.ofNat (t.count key)))

/-- The mean `rarity` of `texts`. -/
def meanRarity (t : Tally) (texts : List Text) : α :=
  let total := texts.foldl (fun sum k => Arith.add sum (rarity t k)) (Arith.ofNat 0)
  Arith.div total (Arith.ofNat texts.length)

/-- The novelty of `pairs`: the mean of the `meanRarity` of their keys and that of their
values. -/
def scorePairs (t : Tracker α) (pairs : List Pair) : α :=
  if pairs = [] then Arith.ofNat 0
  else
    let ofKeys : α := meanRarity t.keys (pairs.map Pair.key)
    let ofValues : α := meanRarity t.values (pairs.map Pair.value)
    Arith.div (Arith.add ofKeys ofValues) (Arith.ofNat 2)

/-- The novelty of `text`, from zero to one; zero where it holds no pair. -/
def score (t : Tracker α) (text : Text) : α := t.scorePairs (Text.pairs text)

end Score

/-- Counts the pairs of `response`, and adds them to `collected` while that is incomplete. The
response that completes it yields the statistics. -/
def observeResponse (t : Tracker α) (response : Text) : Tracker α × Option BaselineMetrics :=
  let pairs := Text.pairs response
  let t := { t with
    keys := t.keys.addAll (pairs.map Pair.key)
    values := t.values.addAll (pairs.map Pair.value) }
  match t.collected with
  | none => (t, none)
  | some collected =>
    let collected := collected ++ [pairs]
    if t.baselinePeriod ≤ collected.length then
      ({ t with collected := none }, some (.of collected))
    else ({ t with collected := some collected }, none)

/-- Observes responses one after the other; of several baselines the last would count. -/
def observeResponses : Tracker α → List Text → Tracker α × Option BaselineMetrics
  | t, [] => (t, none)
  | t, response :: rest =>
    let (t, first) := t.observeResponse response
    let (t, later) := observeResponses t rest
    (t, later.or first)

/-- Adds `r` to the history, which keeps the latest `historySize` records. -/
def remember (t : Tracker α) (r : Record α) : Tracker α :=
  if t.historySize = 0 then t
  else
    let kept := if t.history.length = t.historySize then t.history.tail else t.history
    { t with history := kept ++ [r] }

/-- Observes `r`. The one record that completes the baseline yields the statistics. -/
def observe (t : Tracker α) (r : Record α) : Tracker α × Option BaselineMetrics :=
  let (t, metrics) := t.observeResponses (r.map Answer.response)
  (t.remember r, metrics)

/-- Observes `r`, and writes the statistics, if there are any, to `file`. That this fails changes
nothing in the tracker. -/
def observeInto (t : Tracker α) (file : Option Path) (timestamp : Text) (r : Record α)
    (files : FileTree) : (Tracker α × Option BaselineMetrics) × FileTree :=
  let observed := t.observe r
  let files := match file, observed.2 with
    | some path, some m => m.writeTo files path timestamp
    | _, _ => files
  (observed, files)

/-- Whether the baseline is incomplete. -/
def isCollecting (t : Tracker α) : Bool := t.collected.isSome

end Tracker
end ClipLedger
