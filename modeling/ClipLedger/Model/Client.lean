import ClipLedger.Json.Number
import ClipLedger.Model.Stream

/-
  Requests to a chat model, and the clients that carry them there. What a client does with a
  request may depend on all the requests before it and on nothing else.
-/
namespace ClipLedger

/-- How a model chooses its next words. -/
structure Sampling where
  strategy : Text
  temperature : Float
  topP : Float
  topK : Nat
  maxTokens : Nat
  repetitionPenalty : Float

/-- The sampling as a JSON object. -/
def Sampling.toJson (s : Sampling) : Json :=
  .record [("strategy", .text s.strategy), ("temperature", .ofFloat s.temperature),
    ("top_p", .ofFloat s.topP), ("top_k", .ofNat s.topK), ("max_tokens", .ofNat s.maxTokens),
    ("repetition_penalty", .ofFloat s.repetitionPenalty)]

/-- One turn of a chat: the `system` instruction, and what the `user` says. -/
structure Request where
  system : Text
  user : Text
  sampling : Sampling

/-- What comes of a request: a stream of events, a refusal, or a breakdown of the client
itself. -/
inductive Opening where
  | stream (events : List StreamEvent)
  | refused (e : ModelError)
  | breakdown

/-- A client answers a request in view of all the earlier ones. -/
structure Client where
  answer : Array Request → Request → Opening

namespace Client

/-- Gives `reply` every time. -/
def constant (reply : Text) : Client := ⟨fun _ _ => .stream (StreamEvent.ofReply reply)⟩

/-- The refusal of a server that cannot be reached. -/
def refusal : Opening := .refused (.unavailable "connection refused".toList)

/-- Refuses the first `failures` requests, then gives `reply` every time; without a number it
refuses all. -/
def flaky (failures : Option Nat) (reply : Text) : Client :=
  ⟨fun sent _ =>
    match failures with
    | none => refusal
    | some n => if sent.size < n then refusal else .stream (StreamEvent.ofReply reply)⟩

/-- Answers with the number of characters that the user said. -/
def mock : Client :=
  ⟨fun _ request => .stream (StreamEvent.ofReply
    ("source: mock\nprompt_chars: ".toList ++ Text.ofNat request.user.length))⟩

/-- Answers with `entries` one after the other, from the start again if it `cycles`. -/
def script (entries : List Opening) (cycles : Bool) : Client :=
  ⟨fun sent _ =>
    let n := if cycles then sent.size % entries.length else sent.size
    (entries[n]?).getD (.refused (.unavailable "script exhausted".toList))⟩

end Client

/-- A conversation with a client: the requests `sent`, the `clock` in milliseconds, and the
`deadline`, if there is one. -/
structure Session where
  sent : Array Request
  clock : Nat
  deadline : Option Nat

namespace Session

def fresh : Session := ⟨#[], 0, none⟩

/-- Sends `request`; no time goes by. -/
def send (s : Session) (client : Client) (request : Request) : Opening × Session :=
  (client.answer s.sent request, { s with sent := s.sent.push request })

/-- Lets `delay` milliseconds go by; `none` where the deadline comes before. -/
def wait (s : Session) (delay : Nat) : Option Session :=
  let clock := s.clock + delay
  match s.deadline with
  | none => some { s with clock := clock }
  | some deadline => if clock < deadline then some { s with clock := clock } else none

end Session
end ClipLedger
