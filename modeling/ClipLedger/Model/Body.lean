import ClipLedger.Model.Chunk
import ClipLedger.Model.Stream
import ClipLedger.Text.Utf8

/-
  Streamed answers as they come over a connection: pieces of bytes that are gathered until a line
  is complete. What is left at the end is read as a line too, also after the connection broke.
-/
namespace ClipLedger.Body

/-- The text that `Chunk.decodeLine` finds in the bytes of one line. -/
def lineText? (line : Bytes) : Option Text := Chunk.decodeLine (Utf8.decodeLossy line)

/-- The byte that ends a line. -/
def newline : UInt8 := 0x0A

/-- Takes the complete lines off the front of a buffer, and answers them and what is left. -/
def takeLines : Bytes → List Bytes × Bytes
  | [] => ([], [])
  | b :: rest =>
    let (lines, left) := takeLines rest
    if b = newline then ([b] :: lines, left)
    else match lines with
      | [] => ([], b :: left)
      | line :: lines => ((b :: line) :: lines, left)

/-- Takes `piece` into `buffer`: the texts of the lines that are complete now, and what is
left. -/
def feed (buffer piece : Bytes) : List Text × Bytes :=
  let (lines, left) := takeLines (buffer ++ piece)
  (lines.filterMap lineText?, left)

/-- Takes the pieces into the buffer one after the other with `feed`. -/
def feedAll : Bytes → List Bytes → List Text × Bytes
  | buffer, [] => ([], buffer)
  | buffer, piece :: rest =>
    let (texts, buffer) := feed buffer piece
    let (more, buffer) := feedAll buffer rest
    (texts ++ more, buffer)

/-- The events of a body that came in `pieces`. Where the connection is `broken` after them, a
failure follows the complete lines; what is left in the buffer is read as a last line. -/
def events (pieces : List Bytes) (broken : Bool) : List StreamEvent :=
  let (texts, left) := feedAll [] pieces
  texts.map .delta ++ (if broken then [.failure .transport] else [])
    ++ ((lineText? left).map .delta).toList

/-- The lines of `a ++ b` are those of `a`, and then those of `b` behind what `a` leaves over. -/
theorem takeLines_append (a b : Bytes) :
    takeLines (a ++ b) = ((takeLines a).1 ++ (takeLines ((takeLines a).2 ++ b)).1,
      (takeLines ((takeLines a).2 ++ b)).2) := by
  induction a with
  | nil => simp [takeLines]
  | cons c a ih =>
    rw [List.cons_append, takeLines, ih, takeLines]
    by_cases hc : c = newline
    · simp [hc]
    · cases h : (takeLines a).1 with
      | nil => simp [hc, h, takeLines]
      | cons l ls => simp [hc, h]

/-- No byte is lost: the lines and what is left over make up the buffer. -/
theorem takeLines_flatten (a : Bytes) : (takeLines a).1.flatten ++ (takeLines a).2 = a := by
  induction a with
  | nil => rfl
  | cons c a ih =>
    rw [takeLines]
    by_cases hc : c = newline
    · simp [hc, ih]
    · cases h : (takeLines a).1 with
      | nil => rw [h] at ih; simpa [hc, h] using ih
      | cons l ls => rw [h] at ih; simpa [hc, h] using ih

end ClipLedger.Body
