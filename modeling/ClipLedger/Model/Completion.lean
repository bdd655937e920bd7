import ClipLedger.Model.Client
import ClipLedger.Model.Retry

/-
  Completions: the text that a model gives for a prompt. Failure to open a stream is answered
  with a text that is marked as an error, so a completion always has a text.
-/
namespace ClipLedger

/-- The text that one prompt was answered with. -/
structure Completion where
  text : Text
  deriving DecidableEq, Repr

namespace Completion

/-- What a text begins with that stands for a failure. -/
def errorMark : Text := "Error:".toList

/-- The completion where no stream could be opened. -/
def unavailable : Completion := ⟨errorMark ++ " inference server unavailable".toList⟩

/-- Whether `c` has no usable text: it is empty or begins with `errorMark`. -/
def isError (c : Completion) : Bool := c.text.isEmpty || errorMark.isPrefixOf c.text

end Completion

/-- How prompts are put to a model: the instruction, the sampling, the `policy` for opening a
stream, and the ceiling of the answer. -/
structure Inference where
  policy : RetryPolicy
  system : Text
  sampling : Sampling
  maxResponse : Nat

namespace Inference

/-- What every prompt ends with. -/
def conciseness : Text := "\n\nIMPORTANT: Keep responses concise. No repetition.".toList

/-- The request for `prompt`, which ends with `conciseness`. -/
def request (i : Inference) (prompt : Text) : Request :=
  ⟨i.system, prompt ++ conciseness, i.sampling⟩

/-- One attempt to open a stream for `request`. -/
def openStream (client : Client) (request : Request) (s : Session) :
    Attempt ModelError (List StreamEvent) × Session :=
  match s.send client request with
  | (.stream events, s) => (.success events, s)
  | (.refused e, s) => (.failure e, s)
  | (.breakdown, s) => (.halted .breakdown, s)

/-- The completion of `prompt`: the text that `StreamEvent.collect` gathers, or `unavailable` where
no attempt of `i.policy` opened a stream. -/
def complete (i : Inference) (client : Client) (prompt : Text) (s : Session) :
    Except Halt Completion × Session :=
  match i.policy.run (openStream client (i.request prompt)) (fun d s => s.wait d) s with
  | (.success events, s) => (.ok ⟨StreamEvent.collect i.maxResponse events⟩, s)
  | (.failure _, s) => (.ok .unavailable, s)
  | (.halted h, s) => (.error h, s)

end Inference
end ClipLedger
