import ClipLedger.Files.Path

/-
  A tree of files: folders, files with their bytes and modification time, and symbolic links.
  Places are lists of names from the root; the root is always a folder.
-/
namespace ClipLedger

/-- The names that lead from the root to a place. -/
abbrev Location := List Bytes

/-- What stands at a place: a folder, a file with the time it was modified, or a link. -/
inductive Node where
  | folder
  | file (content : Bytes) (modified : Int)
  | link (target : Path)
  deriving DecidableEq

/-- Why a file operation fails. -/
inductive FileError where
  | notFound
  | exists
  | notFolder
  | isFolder
  | tooManyLinks
  | nameTooLong
  | interiorNul
  | notText
  | noParent
  | noSpace
  deriving DecidableEq, Repr

/-- The wording of a file error. -/
def FileError.message : FileError → Text
  | .notFound => "No such file or directory (os error 2)".toList
  | .exists => "File exists (os error 17)".toList
  | .notFolder => "Not a directory (os error 20)".toList
  | .isFolder => "Is a directory (os error 21)".toList
  | .tooManyLinks => "Too many levels of symbolic links (os error 40)".toList
  | .nameTooLong => "File name too long (os error 36)".toList
  | .interiorNul => "file name contained an unexpected NUL byte".toList
  | .notText => "stream did not contain valid UTF-8".toList
  | .noParent => "failed to create whole tree".toList
  | .noSpace => "No space left on device (os error 28)".toList

/-- The nodes below the root, the folder that relative paths start from, and the `clock` that
writing stamps on a file. -/
structure FileTree where
  nodes : List (Location × Node)
  workingFolder : Location
  clock : Int

namespace FileTree

/-- Nothing but the root. -/
def empty (clock : Int) : FileTree := ⟨[], [], clock⟩

/-- Nothing but the working folder `folder` and the folders that it stands in. -/
def inside (folder : Location) (clock : Int) : FileTree :=
  ⟨(List.range folder.length).map fun n => (folder.take (n + 1), .folder), folder, clock⟩

/-- What stands at `loc`; the root is a folder. -/
def node? (t : FileTree) (loc : Location) : Option Node :=
  if loc = [] then some .folder else t.nodes.lookup loc

/-- The tree with `node` at `loc`, in place of any before. -/
def put (t : FileTree) (loc : Location) (node : Node) : FileTree :=
  { t with nodes := (loc, node) :: t.nodes.filter fun e => e.1 != loc }

/-- The tree without `loc` and all below it. -/
def drop (t : FileTree) (loc : Location) : FileTree :=
  { t with nodes := t.nodes.filter fun e => !loc.isPrefixOf e.1 }

/-- The names directly inside the folder at `loc`. -/
def names (t : FileTree) (loc : Location) : List Bytes :=
  t.nodes.filterMap fun e =>
    if e.1.dropLast = loc ∧ e.1 ≠ [] then e.1.getLast? else none

end FileTree
end ClipLedger
