import ClipLedger.Files.Walk

/-
  Operations on a tree of files. Those that change the tree return it also where they fail,
  because a part of the work may have been done by then.
  `append` opens its file and writes at the end of it; what the system makes of the write is the
  parameter `Writing`, so an error may leave any part of the bytes. Every other operation is one
  step: `write` replaces a file wholly, if its path can be resolved at all. Left out: permissions,
  quotas, hard links, and what other processes do between two operations.
-/
namespace ClipLedger

/-- The outcome of an operation with the tree after it. -/
abbrev Change (α : Type) := Except FileError α × FileTree

/-- What holds of the tree after an operation holds of `b`, where the outcome is `(a, b)`. -/
@[elab_as_elim]
theorem snd_of_eq {α β : Type} {motive : β → Prop} {x : α × β} {a : α} {b : β} (hx : x = (a, b))
    (h : motive x.2) : motive b := by
  rw [hx] at h
  exact h

/-- What the system makes of bytes that are written at the end of an open file. `whole`: all of
them are in the file. `broken kept e`: writing or flushing ends with the error `e` when the first
`kept` bytes are in it. `discarded`: the file is a device that takes the bytes and keeps none. -/
inductive Writing where
  | whole
  | broken (kept : Nat) (e : FileError)
  | discarded
  deriving DecidableEq, Repr

namespace Writing

/-- What the writer is told: an error where the write is `broken`. -/
def result : Writing → Except FileError Unit
  | .broken _ e => .error e
  | _ => .ok ()

/-- Those of `bytes` that come to be in the file; `none` where the file is not touched. -/
def added? (bytes : Bytes) : Writing → Option Bytes
  | .whole => some bytes
  | .broken 0 _ => none
  | .broken (n + 1) _ => some (bytes.take (n + 1))
  | .discarded => none

/-- `added?`, with no bytes for a file that is not touched. -/
def kept (w : Writing) (bytes : Bytes) : Bytes := (w.added? bytes).getD []

/-- A write that succeeds has kept every byte, and one that fails none. -/
structure AllOrNothing (w : Writing) : Prop where
  all : w.result = .ok () → ∀ bytes, w.kept bytes = bytes
  nothing : ∀ e, w.result = .error e → ∀ bytes, w.added? bytes = none

theorem allOrNothing_iff {w : Writing} : w.AllOrNothing ↔ w = .whole ∨ ∃ e, w = .broken 0 e := by
  constructor
  · intro h
    cases w with
    | whole => exact .inl rfl
    | broken kept e =>
      cases kept with
      | zero => exact .inr ⟨e, rfl⟩
      | succ n => cases h.nothing e rfl [0]
    | discarded => cases h.all rfl [0]
  · rintro (rfl | ⟨e, rfl⟩)
    · exact ⟨fun _ _ => rfl, fun _ h => (by cases h)⟩
    · exact ⟨fun h => (by cases h), fun _ _ _ => rfl⟩

end Writing

namespace FileTree

/-- The path leads to a file or a folder, through any links. -/
def holds (t : FileTree) (p : Path) : Bool :=
  match t.find p with
  | .ok _ => true
  | .error _ => false

/-- The path leads to a folder, through any links. -/
def isFolder (t : FileTree) (p : Path) : Bool :=
  match t.find p with
  | .ok (_, .folder) => true
  | _ => false

/-- The modification time of the file at `p`, through any links; `none` for all that is no
file. -/
def modified? (t : FileTree) (p : Path) : Option Int :=
  match t.find p with
  | .ok (_, .file _ modified) => some modified
  | _ => none

/-- The bytes of the file at `p`. -/
def read (t : FileTree) (p : Path) : Except FileError Bytes :=
  match t.find p with
  | .error e => .error e
  | .ok (_, .file content _) => .ok content
  | .ok _ => .error .isFolder

/-- The text of the file at `p`; an error where its bytes are not UTF-8. -/
def readText (t : FileTree) (p : Path) : Except FileError Text :=
  match t.read p with
  | .error e => .error e
  | .ok bytes =>
    match Utf8.decode? bytes with
    | some text => .ok text
    | none => .error .notText

/-- The names inside the folder at `p`. -/
def list (t : FileTree) (p : Path) : Except FileError (List Bytes) :=
  match t.find p with
  | .error e => .error e
  | .ok (loc, .folder) => .ok (t.names loc)
  | .ok _ => .error .notFolder

/-- The place of the file to write at `p`, with the bytes it holds so far: none where the place is
free. -/
def target (t : FileTree) (p : Path) : Except FileError (Location × Bytes) :=
  match t.place .make p with
  | .error e => .error e
  | .ok (.vacant loc) => .ok (loc, [])
  | .ok (.found loc (.file content _)) => .ok (loc, content)
  | .ok (.found _ _) => .error .isFolder

/-- Makes `f content` the content of the file at `p`, where `content` is what it holds so far. -/
def update (t : FileTree) (p : Path) (f : Bytes → Bytes) : Change Unit :=
  match t.target p with
  | .error e => (.error e, t)
  | .ok (loc, content) => (.ok (), t.put loc (.file (f content) t.clock))

/-- Makes `bytes` the whole content of the file at `p`. -/
def write (t : FileTree) (p : Path) (bytes : Bytes) : Change Unit := t.update p fun _ => bytes

/-- Opens the file at `p` for adding to it: its place and what it holds. A missing file is made,
with nothing in it. -/
def openEnd (t : FileTree) (p : Path) : Change (Location × Bytes) :=
  match t.place .make p with
  | .error e => (.error e, t)
  | .ok (.vacant loc) => (.ok (loc, []), t.put loc (.file [] t.clock))
  | .ok (.found loc (.file content _)) => (.ok (loc, content), t)
  | .ok (.found _ _) => (.error .isFolder, t)

/-- Opens the file at `p`, then writes `bytes` behind the `content` that it holds, of which the
system makes `w`. -/
def append (t : FileTree) (p : Path) (bytes : Bytes) (w : Writing := .whole) : Change Unit :=
  match t.openEnd p with
  | (.error e, t) => (.error e, t)
  | (.ok (loc, content), t) =>
    match w.added? bytes with
    | none => (w.result, t)
    | some bytes => (w.result, t.put loc (.file (content ++ bytes) t.clock))

/-- The place of a device that keeps nothing of what is written to it. -/
def nullDevice : Location := [Utf8.encode "dev".toList, Utf8.encode "null".toList]

/-- The place of a device on which no space is ever left. -/
def fullDevice : Location := [Utf8.encode "dev".toList, Utf8.encode "full".toList]

/-- The tree with both devices, each as a file that holds nothing. -/
def withDevices (t : FileTree) : FileTree :=
  ((t.put (nullDevice.take 1) .folder).put nullDevice (.file [] t.clock)).put fullDevice
    (.file [] t.clock)

/-- What becomes of a write at `p` while the disk is well: only the devices do not take it. -/
def writingAt (t : FileTree) (p : Path) : Writing :=
  match t.target p with
  | .error _ => .whole
  | .ok (loc, _) =>
    if loc = nullDevice then .discarded
    else if loc = fullDevice then .broken 0 .noSpace
    else .whole

/-- The free place that the last component of `p` names. Dots name nothing new. -/
def freePlace (t : FileTree) (p : Path) : Except FileError Location :=
  match p.fault? with
  | some e => .error e
  | none =>
    let steps := p.withoutSlashes.steps
    match t.walk .follow linkLimit (t.origin p) steps.dropLast with
    | .error e => .error e
    | .ok (.vacant _) => .error .notFound
    | .ok (.found _ (.file ..)) => .error .notFolder
    | .ok (.found _ (.link _)) => .error .notFolder
    | .ok (.found loc .folder) =>
      match steps.getLast? with
      | none => .error .exists
      | some name =>
        if name = [Path.dot] ∨ name = [Path.dot, Path.dot] then .error .exists
        else if Path.nameLimit < name.length then .error .nameTooLong
        else match t.node? (loc ++ [name]) with
          | some _ => .error .exists
          | none => .ok (loc ++ [name])

/-- Makes one folder, at a `freePlace`. -/
def makeFolder (t : FileTree) (p : Path) : Change Unit :=
  match t.freePlace p with
  | .error e => (.error e, t)
  | .ok loc => (.ok (), t.put loc .folder)

/-- `e`, unless `p` leads to a folder: what could not be made is there. -/
def orFolder (t : FileTree) (p : Path) (e : FileError) : Change Unit :=
  (if t.isFolder p then .ok () else .error e, t)

/-- Makes the first path a folder, the further ones being the paths that contain it, from the
inside out. Those are made first where they are missing. -/
def makeAll : FileTree → List Path → Change Unit
  | t, [] => (.error .noParent, t)
  | t, p :: parents =>
    if p.bytes = [] then (.ok (), t)
    else match t.makeFolder p with
      | (.ok (), t) => (.ok (), t)
      | (.error .notFound, t) =>
        match makeAll t parents with
        | (.error e, t) => (.error e, t)
        | (.ok (), t) =>
          match t.makeFolder p with
          | (.ok (), t) => (.ok (), t)
          | (.error e, t) => t.orFolder p e
      | (.error e, t) => t.orFolder p e

/-- Makes the folder `p`, with those of its `parents` that are missing. -/
def makeFolders (t : FileTree) (p : Path) : Change Unit := makeAll t (p :: p.parents)

/-- Makes a link to `target` at `p`. -/
def makeLink (t : FileTree) (p target : Path) : Change Unit :=
  match t.freePlace p with
  | .error e => (.error e, t)
  | .ok loc => (.ok (), t.put loc (.link target))

/-- Removes what stands at `p`, a folder with all it holds; a link is not followed. -/
def remove (t : FileTree) (p : Path) : Change Unit :=
  match t.place .look p with
  | .error e => (.error e, t)
  | .ok (.vacant _) => (.error .notFound, t)
  | .ok (.found loc _) => (.ok (), t.drop loc)

/-- Sets the modification time of the file at `p`. -/
def setModified (t : FileTree) (p : Path) (time : Int) : Change Unit :=
  match t.find p with
  | .error e => (.error e, t)
  | .ok (loc, .file content _) => (.ok (), t.put loc (.file content time))
  | .ok _ => (.ok (), t)

/-- The path of the place `loc` seen from a folder above it; that of a folder ends in a slash. -/
def relative (loc : Location) (node : Node) : Path :=
  let names := ([Path.slash] : Bytes).intercalate loc
  match node with
  | .folder => ⟨names ++ [Path.slash]⟩
  | _ => ⟨names⟩

/-- The paths of all that lies below the working folder, as text and in the order of that. -/
def listing (t : FileTree) : List Text :=
  let below := t.nodes.filterMap fun e =>
    if t.workingFolder.isPrefixOf e.1 ∧ e.1 ≠ t.workingFolder then
      some (relative (e.1.drop t.workingFolder.length) e.2).display
    else none
  below.mergeSort fun a b => !Text.less b a

end FileTree
end ClipLedger
