import ClipLedger.Failure

/-
  Answers come as streams of text deltas. Collecting a stream skips deltas that were seen
  before, stops at the first failure, and reads no further once the ceiling is reached.
-/
namespace ClipLedger

/-- What a stream brings: a delta, or the failure that ends it. -/
inductive StreamEvent where
  | delta (t : Text)
  | failure (e : ModelError)
  deriving DecidableEq, Repr

namespace StreamEvent

/-- The text gathered from events, where `seen` holds the deltas so far and `room` counts the
characters that still fit. -/
def gather (seen : List Text) (room : Nat) : List StreamEvent → Text
  | [] => []
  | .failure _ :: _ => []
  | .delta t :: rest =>
    if t ∈ seen then gather seen room rest
    else if room ≤ t.length then t.take room
    else t ++ gather (t :: seen) (room - t.length) rest

/-- The text of a stream: at most `max` characters of it, without blanks at the ends. -/
def collect (max : Nat) (events : List StreamEvent) : Text := Text.trim (gather [] max events)

/-- `reply` as deltas, one for each of its lines with the line end. -/
def ofReply (reply : Text) : List StreamEvent := (Text.pieces reply).map .delta

theorem length_gather_le (seen : List Text) (room : Nat) (events : List StreamEvent) :
    (gather seen room events).length ≤ room := by
  fun_induction gather seen room events with
  | case1 => exact Nat.zero_le _
  | case2 => exact Nat.zero_le _
  | case3 _ _ _ _ _ ih => exact ih
  | case4 => exact List.length_take_le ..
  | case5 seen room t rest _ h ih =>
    rw [List.length_append]
    omega

end StreamEvent
end ClipLedger
