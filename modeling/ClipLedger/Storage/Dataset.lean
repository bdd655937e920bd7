import ClipLedger.Failure
import ClipLedger.Files.Operations
import ClipLedger.Model.Client
import ClipLedger.Persona.Record

/-
  The dataset: a file with one JSON object on each line, one line for each stored analysis; and the
  event log, a plain text with one event on each line. A line is appended in one write, whose
  outcome is a parameter (`Writing`); `.whole` is the default, which the pipeline assumes. Left out:
  the lock that keeps two appends of one sink apart, since each is one step here.
-/
namespace ClipLedger

/-- Which model gave the answers, and with what settings. -/
structure ModelInfo where
  provider : Text
  model : Text
  environment : Text
  system : Text
  sampling : Sampling

/-- The description of the model as a JSON object. -/
def ModelInfo.toJson (m : ModelInfo) : Json :=
  .record [("provider", .text m.provider), ("model", .text m.model),
    ("environment", .text m.environment), ("system_message", .text m.system),
    ("sampling", m.sampling.toJson)]

/-- What tells stored analyses apart: the `id`, and the `timestamp` of storing. -/
structure Stamp where
  id : Text
  timestamp : Text
  deriving DecidableEq

namespace Dataset

/-- The object that is stored for `item` with its record; `none` where the path of an image is no
text. -/
def object? (m : ModelInfo) (stamp : Stamp) (item : Item) (r : Record Float) : Option Json :=
  item.toJson?.map fun content =>
    .record [("id", .text stamp.id), ("timestamp", .text stamp.timestamp), ("content", content),
      ("ai_response", r.toJson), ("model_metadata", m.toJson),
      ("analysis_metadata", .record [("agent_count", .ofNat r.length),
        ("content_type", .text item.kind.name), ("content_length", .ofNat item.length)])]

/-- The line that is stored, `object?` on one line without its line end. -/
def line? (m : ModelInfo) (stamp : Stamp) (item : Item) (r : Record Float) : Option Text :=
  (object? m stamp item r).map Json.compact

/-- Appends `line` and its line end to the file at `p`. -/
def appendLine (t : FileTree) (p : Path) (line : Text) (w : Writing := .whole) : Change Unit :=
  t.append p (Utf8.encode (line ++ ['\n'])) w

/-- Appends the line of `item` and `r`; fails before the file is opened where there is none, since
the path of an image is no text. -/
def append (t : FileTree) (p : Path) (m : ModelInfo) (stamp : Stamp) (item : Item)
    (r : Record Float) (w : Writing := .whole) : Except Failure Unit × FileTree :=
  match line? m stamp item r with
  | none => (.error .pathNotText, t)
  | some line =>
    match appendLine t p line w with
    | (.error e, t) => (.error (.file e), t)
    | (.ok (), t) => (.ok (), t)

end Dataset

namespace EventLog

/-- The line of the log for an event, without its line end. -/
def line (timestamp kind content : Text) : Text :=
  timestamp ++ " - ".toList ++ kind ++ ": ".toList ++ content

/-- Appends the `line` of an event to the log at `p`. -/
def append (t : FileTree) (p : Path) (timestamp kind content : Text) (w : Writing := .whole) :
    Except Failure Unit × FileTree :=
  match Dataset.appendLine t p (line timestamp kind content) w with
  | (.error e, t) => (.error (.file e), t)
  | (.ok (), t) => (.ok (), t)

end EventLog
end ClipLedger
