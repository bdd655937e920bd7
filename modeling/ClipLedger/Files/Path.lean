import ClipLedger.Text.Utf8

/-
  Paths: byte sequences whose components stand between slashes. Empty components do not count,
  and neither does a single dot, unless a relative path starts with it.
-/
namespace ClipLedger

/-- A path as it is written. -/
structure Path where
  bytes : Bytes
  deriving DecidableEq, Repr

namespace Path

/-- The byte between components. -/
def slash : UInt8 := 0x2F

/-- The byte before an extension. -/
def dot : UInt8 := 0x2E

/-- The path that `t` spells in UTF-8. -/
def ofText (t : Text) : Path := ⟨Utf8.encode t⟩

/-- `ofText` for a literal. -/
def ofString (s : String) : Path := ofText s.toList

/-- The path as text, with U+FFFD for what is not UTF-8. -/
def display (p : Path) : Text := Utf8.decodeLossy p.bytes

/-- The path starts with a `slash`. -/
def isAbsolute (p : Path) : Bool := p.bytes.head? == some slash

/-- The path ends in a `slash`. -/
def endsInSlash (p : Path) : Bool := p.bytes.getLast? == some slash

/-- `q` seen from `p`. An absolute `q` stands for itself. -/
def join (p q : Path) : Path :=
  if q.isAbsolute then q
  else if p.bytes = [] ∨ p.endsInSlash then ⟨p.bytes ++ q.bytes⟩
  else ⟨p.bytes ++ slash :: q.bytes⟩

/-- A literal component `name` seen from `p`. -/
def child (p : Path) (name : String) : Path := p.join (ofString name)

/-- A component, and how many bytes of the path there are to its end. -/
structure Component where
  name : Bytes
  stop : Nat
  deriving DecidableEq

/-- What stands between slashes, each with the place where it ends; the first starts at
`start`. -/
def segments : Nat → List Bytes → List Component
  | _, [] => []
  | start, s :: rest => ⟨s, start + s.length⟩ :: segments (start + s.length + 1) rest

/-- A segment that counts as a component: not empty, and a dot only at the start of the path. -/
def Component.isReal (c : Component) : Bool := c.name != [] && (c.name != [dot] || c.stop == 1)

/-- The `segments` that count, in the order of the path. -/
def components (p : Path) : List Component :=
  (segments 0 (p.bytes.splitOn slash)).filter Component.isReal

/-- Where the components start: `/`, or the empty path. -/
def origin (p : Path) : Path := if p.isAbsolute then ⟨[slash]⟩ else ⟨[]⟩

/-- The paths that contain `p`, from the inside out: `p` up to each of its components but the
last, and then its `origin`. -/
def parents (p : Path) : List Path :=
  match p.components.reverse with
  | [] => []
  | _ :: before => before.map (fun c => ⟨p.bytes.take c.stop⟩) ++ [p.origin]

/-- The first of the `parents`. -/
def parent? (p : Path) : Option Path := p.parents.head?

/-- What follows the last dot of `name`, if something stands before that dot. -/
def extension? (name : Bytes) : Option Bytes :=
  if name = [dot, dot] then none
  else
    let after := (name.reverse.takeWhile (· != dot)).reverse
    let before := name.take (name.length - after.length - 1)
    if after.length = name.length ∨ before = [] then none else some after

end Path

namespace Bytes

/-- The order of byte sequences: by the first byte that differs, and a shorter one before a longer
one. -/
def less : Bytes → Bytes → Bool
  | _, [] => false
  | [], _ :: _ => true
  | a :: as, b :: bs => a < b || (a == b && less as bs)

end Bytes
end ClipLedger
