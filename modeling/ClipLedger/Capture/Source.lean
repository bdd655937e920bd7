import ClipLedger.Capture.Screenshots
import ClipLedger.Content.Item
import ClipLedger.Failure
import ClipLedger.Files.Operations

/-
  Capturing: the text of the clipboard if there is any, and the newest screenshot otherwise. A
  screenshot is stored first (`Assets.store`), in a file named by the fingerprint of its bytes, so
  that equal images share one.
-/
namespace ClipLedger

/-- What comes of one look at the clipboard. `breakdown`: the reader itself broke down. -/
inductive Reading where
  | text (t : Text)
  | empty
  | failed (reason : Text)
  | breakdown
  deriving DecidableEq, Repr

/-! ## Stored images -/

namespace Assets

/-- The name of the image with the fingerprint `f`: its digits and `.png`. -/
def fileName (f : Fingerprint) : Path := .ofText (f.hex ++ ".png".toList)

/-- Where the image with the fingerprint `f` is stored. -/
def location (folder : Path) (f : Fingerprint) : Path := folder.join (fileName f)

/-- Copies `image` to its `location` in `folder`, unless that path leads to something already,
whatever its bytes are. -/
def store (t : FileTree) (folder image : Path) : Except Failure (Path × Fingerprint) × FileTree :=
  match t.read image with
  | .error e => (.error (.file e), t)
  | .ok bytes =>
    let f := Fingerprint.of bytes
    let place := location folder f
    if t.holds place then (.ok (place, f), t)
    else match t.makeFolders folder with
      | (.error e, t) => (.error (.file e), t)
      | (.ok (), t) =>
        match t.write place bytes with
        | (.error e, t) => (.error (.file e), t)
        | (.ok (), t) => (.ok (place, f), t)

end Assets

/-! ## Capturing -/

/-- Where screenshots are found, and the folder in which images are stored. -/
structure Source where
  screenshots : Path
  assets : Path

namespace Source

/-- The newest screenshot (`Screenshots.latest`) as an item, after `Assets.store`. -/
def captureImage (s : Source) (t : FileTree) : Except Failure (Option Item) × FileTree :=
  match Screenshots.latest t s.screenshots with
  | .error e => (.error e, t)
  | .ok none => (.ok none, t)
  | .ok (some shot) =>
    match Assets.store t s.assets shot with
    | (.error e, t) => (.error e, t)
    | (.ok (path, f), t) => (.ok (some (.image path f)), t)

/-- What there is to capture: the text of the reading, or the newest screenshot where that is
empty. A reading that fails ends the capture, and a `breakdown` ends its task. -/
def capture (s : Source) (t : FileTree) : Reading → Except Failure (Option Item) × FileTree
  | .breakdown => (.error .task, t)
  | .failed reason => (.error (.clipboard reason), t)
  | .text [] => s.captureImage t
  | .text text => (.ok (some (.text text)), t)
  | .empty => s.captureImage t

end Source
end ClipLedger
