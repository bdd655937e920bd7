import ClipLedger.Model.Completion
import ClipLedger.Novelty.Tracker
import ClipLedger.Persona.Roster

/-
  The analysis of one item: every persona is asked in turn, each sees the answers recorded
  before it, and of several completions the best one is kept. A persona none of whose
  completions is usable is left out.
-/
namespace ClipLedger

/-- How items are analysed. `weight` is that of novelty, from zero to one; `none` stands for a
weight that cannot be compared. -/
structure Analyzer (α : Type) where
  inference : Inference
  candidates : Nat
  maxPrompt : Nat
  weight : Option α

/-- The `text` of a completion that is no error, with its `novelty`. -/
structure Candidate (α : Type) where
  text : Text
  novelty : α

/-- What `analyze` yields: the record, the tracker that observed it, and the statistics where it
completed the baseline. -/
structure Analysis (α : Type) where
  record : Record α
  tracker : Tracker α
  baseline : Option BaselineMetrics

namespace Analyzer

variable {α : Type} [Arith α]

/-- `1 - weight + weight * novelty`. -/
def worth (weight novelty : α) : α :=
  Arith.add (Arith.sub (Arith.ofNat 1) weight) (Arith.mul weight novelty)

/-- `new` is worth more than `best`, strictly. Without a `weight` it never is. -/
def prefers (a : Analyzer α) (best new : Candidate α) : Bool :=
  match a.weight with
  | none => false
  | some w => Arith.less (worth w best.novelty) (worth w new.novelty)

/-- The better of `best` and `new`; the earlier one where `new` is not preferred. -/
def better (a : Analyzer α) (best : Option (Candidate α)) (new : Candidate α) :
    Option (Candidate α) :=
  match best with
  | none => some new
  | some c => if a.prefers c new then some new else some c

/-- The best so far after the completion `c`, which is passed over where it is an error. -/
def consider (a : Analyzer α) (t : Tracker α) (best : Option (Candidate α)) (c : Completion) :
    Option (Candidate α) :=
  if c.isError then best else a.better best ⟨c.text, t.score c.text⟩

/-- The best of `cs` by `consider`, from the first on; `none` where all are errors. -/
def best (a : Analyzer α) (t : Tracker α) (cs : List Completion) : Option (Candidate α) :=
  cs.foldl (a.consider t) none

/-- Asks for `n` completions of `prompt`, one after the other. -/
def completions (a : Analyzer α) (client : Client) (prompt : Text) :
    Nat → Session → Except Halt (List Completion) × Session
  | 0, s => (.ok [], s)
  | n + 1, s =>
    match a.inference.complete client prompt s with
    | (.error h, s) => (.error h, s)
    | (.ok c, s) =>
      match completions a client prompt n s with
      | (.error h, s) => (.error h, s)
      | (.ok cs, s) => (.ok (c :: cs), s)

/-- The answer of the persona `p` that is recorded for `c`: its text is cut to `maxPrompt`, its
novelty is that of the whole text. -/
def answer (a : Analyzer α) (p : Persona) (contentClass : ContentClass) (previous : Text)
    (c : Candidate α) : Answer α :=
  ⟨p.id, Text.truncate a.maxPrompt c.text, c.novelty, contentClass, previous, p.role⟩

/-- Why `analyze` yields nothing: the template of a persona, or a `Halt`. -/
inductive Stop where
  | template (e : TemplateError)
  | halt (h : Halt)
  deriving DecidableEq

/-- Asks the persona `p`, with the thoughts of `r` in its prompt: `r`, with its answer at the end
where one of the completions is no error. -/
def ask (a : Analyzer α) (client : Client) (t : Tracker α) (item : Item) (p : Persona)
    (r : Record α) (s : Session) : Except Stop (Record α) × Session :=
  let contentClass := ContentClass.ofItem item
  let previous := r.thoughts
  match p.prompt contentClass previous item a.maxPrompt with
  | .error e => (.error (.template e), s)
  | .ok prompt =>
    match a.completions client prompt (max a.candidates 1) s with
    | (.error h, s) => (.error (.halt h), s)
    | (.ok cs, s) =>
      match a.best t cs with
      | none => (.ok r, s)
      | some c => (.ok (r ++ [a.answer p contentClass previous c]), s)

/-- `ask` for one persona after the other. -/
def askAll (a : Analyzer α) (client : Client) (t : Tracker α) (item : Item) :
    List Persona → Record α → Session → Except Stop (Record α) × Session
  | [], r, s => (.ok r, s)
  | p :: ps, r, s =>
    match a.ask client t item p r s with
    | (.error e, s) => (.error e, s)
    | (.ok r, s) => askAll a client t item ps r s

/-- Asks the whole roster about `item`, from an empty record on. The record is observed once,
after the last persona. -/
def analyze (a : Analyzer α) (client : Client) (t : Tracker α) (item : Item) (s : Session) :
    Except Stop (Analysis α) × Session :=
  match a.askAll client t item Persona.roster [] s with
  | (.error e, s) => (.error e, s)
  | (.ok r, s) =>
    let (t, baseline) := t.observe r
    (.ok ⟨r, t, baseline⟩, s)

end Analyzer

/-- `w` brought into the range from zero to one; `none` where it is no number. -/
def clampWeight (w : Float) : Option Float :=
  if w.isNaN then none
  else if w < 0 then some 0
  else if 1 < w then some 1
  else some w

end ClipLedger
