import ClipLedger.Failure
import ClipLedger.Files.Operations

/-
  The newest image in a folder: the latest modification time decides, and between equal times
  the greater name. Only files with the extension `png` count, in either case of its letters.
-/
namespace ClipLedger.Screenshots

/-- `name` has the extension `png`, in letters of any case. -/
def isImageName (name : Bytes) : Bool :=
  match (Path.extension? name).bind Utf8.decode? with
  | some extension => Text.sameIgnoringCase extension "png".toList
  | none => false

/-- An image that was found, with the time at which it was `modified`. -/
structure Shot where
  name : Bytes
  modified : Int
  deriving DecidableEq

/-- `b` was modified later than `a`, or at the same time with the greater name (`Bytes.less`). -/
def Shot.newer (a b : Shot) : Bool :=
  a.modified < b.modified || (a.modified == b.modified && Bytes.less a.name b.name)

/-- The newer of `newest` and `s`. -/
def keepNewer (newest : Option Shot) (s : Shot) : Option Shot :=
  match newest with
  | none => some s
  | some n => if n.newer s then some s else some n

/-- The newest of `shots`, whatever their order. -/
def newest? (shots : List Shot) : Option Shot := shots.foldl keepNewer none

/-- The image `name` in `folder`: a file with `isImageName`. -/
def shot? (t : FileTree) (folder : Path) (name : Bytes) : Option Shot :=
  if isImageName name then (t.modified? (folder.join ⟨name⟩)).map (Shot.mk name) else none

/-- The path of the newest image in `folder`. A folder that is missing holds none; one that cannot
be listed is a failure. -/
def latest (t : FileTree) (folder : Path) : Except Failure (Option Path) :=
  match t.list folder with
  | .error .notFound => .ok none
  | .error e => .error (.file e)
  | .ok names =>
    .ok ((newest? (names.filterMap (shot? t folder))).map fun s => folder.join ⟨s.name⟩)

end ClipLedger.Screenshots
