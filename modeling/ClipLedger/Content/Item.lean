import ClipLedger.Content.Fingerprint
import ClipLedger.Files.Path
import ClipLedger.Json.Number
import ClipLedger.Json.Reader
import ClipLedger.Json.Writer

/-
  Captured items: a text from the clipboard, or the path of a stored image together with the
  fingerprint of its bytes.
-/
namespace ClipLedger

/-- Where an item came from. -/
inductive Kind where
  | text
  | image
  deriving DecidableEq, Repr

def Kind.name : Kind → Text
  | .text => "text".toList
  | .image => "image".toList

/-- The kind with the `name` `t`. -/
def Kind.ofName? (t : Text) : Option Kind :=
  if t = Kind.text.name then some .text
  else if t = Kind.image.name then some .image
  else none

/-- The kind that a JSON value stands for: `name` as a text, or an object with `name` as its only
key and `null` under it. -/
def Kind.ofJson? : Json → Option Kind
  | .text t => Kind.ofName? t
  | .object [(t, .null)] => Kind.ofName? t
  | _ => none

/-- The kind that the JSON text `t` stands for (`Kind.ofJson?`), within the limits of numbers. -/
def Kind.read? (t : Text) : Option Kind :=
  (Json.read? t).bind fun v => if v.withinLimits then Kind.ofJson? v else none

/-- One piece of captured content: a text of the clipboard, or the `path` of a stored image with
the fingerprint of its bytes. -/
inductive Item where
  | text (t : Text)
  | image (path : Path) (digest : Fingerprint)
  deriving DecidableEq, Repr

namespace Item

def kind : Item → Kind
  | .text _ => .text
  | .image .. => .image

/-- The fingerprint of a text, or the digest of an image. -/
def fingerprint : Item → Fingerprint
  | .text t => .ofText t
  | .image _ digest => digest

/-- The text of the clipboard; `none` for an image. -/
def asText? : Item → Option Text
  | .text t => some t
  | .image .. => none

/-- What is shown of an item: the text itself, or the path of the image (`Path.display`). -/
def textual : Item → Text
  | .text t => t
  | .image path _ => path.display

/-- The number of characters of `textual`. -/
def length (i : Item) : Nat := i.textual.length

/-- The text that stands for an item in written records; `none` for an image whose path is not
UTF-8. -/
def writtenContent? : Item → Option Text
  | .text t => some t
  | .image path _ => Utf8.decode? path.bytes

/-- The item as a JSON object; `none` where it has no `writtenContent?`. -/
def toJson? (i : Item) : Option Json :=
  i.writtenContent?.map fun content =>
    .record [("type", .text i.kind.name), ("content", .text content),
      ("hash", .text i.fingerprint.hex)]

end Item
end ClipLedger
