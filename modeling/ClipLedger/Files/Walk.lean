import ClipLedger.Files.Tree

/-
  Following a path through a tree. Every component but the last has to lead to a folder, links
  are replaced by their targets, and at most forty links are followed on one way. A way that ends
  at a file to be made, if it is not there, must not end in a slash, nor may a link on it do so.
-/
namespace ClipLedger

/-- Where a path leads: to a node (`found`), or to a free name inside a folder (`vacant`). -/
inductive Place where
  | found (loc : Location) (node : Node)
  | vacant (loc : Location)

namespace Path

/-- The longest name of a component, in bytes. -/
def nameLimit : Nat := 255

/-- The longest path, in bytes. -/
def lengthLimit : Nat := 4095

/-- The components to follow. A slash at the end asks for a folder; it counts as an empty
component, which nothing but a slash at the end leaves. -/
def steps (p : Path) : List Bytes :=
  (p.bytes.splitOn slash).filter (· != []) ++ if p.endsInSlash then [[]] else []

/-- Why no walk along `p` can start: a zero byte, an empty path, or one beyond `lengthLimit`. -/
def fault? (p : Path) : Option FileError :=
  if p.bytes.contains 0 then some .interiorNul
  else if p.bytes = [] then some .notFound
  else if lengthLimit < p.bytes.length then some .nameTooLong
  else none

/-- `p` without the slashes at its end. -/
def withoutSlashes (p : Path) : Path := ⟨(p.bytes.reverse.dropWhile (· == slash)).reverse⟩

end Path

namespace FileTree

/-- Where a walk along `p` starts: at the root, or at the working folder. -/
def origin (t : FileTree) (p : Path) : Location := if p.isAbsolute then [] else t.workingFolder

/-- What a walk is for: to see what stands at the end itself (`look`), to see what a link there
leads to (`follow`), or to make a file there (`make`). -/
inductive Purpose where
  | look
  | follow
  | make
  deriving DecidableEq, Repr

/-- Walks from the folder at a location along names. `detour` goes on where a link has been
replaced by its target. -/
def walkFrom (t : FileTree) (purpose : Purpose)
    (detour : Location → List Bytes → Except FileError Place) :
    Location → List Bytes → Except FileError Place
  | loc, [] => .ok (.found loc .folder)
  | loc, name :: rest =>
    if name = [] ∨ name = [Path.dot] then walkFrom t purpose detour loc rest
    else if name = [Path.dot, Path.dot] then walkFrom t purpose detour loc.dropLast rest
    else if purpose = .make ∧ rest = [[]] then .error .isFolder
    else if Path.nameLimit < name.length then .error .nameTooLong
    else
      let here := loc ++ [name]
      match t.node? here with
      | none => if rest = [] then .ok (.vacant here) else .error .notFound
      | some .folder => walkFrom t purpose detour here rest
      | some (.file content modified) =>
        if rest = [] then .ok (.found here (.file content modified)) else .error .notFolder
      | some (.link target) =>
        if rest = [] ∧ purpose = .look then .ok (.found here (.link target))
        else detour (if target.isAbsolute then [] else loc) (target.steps ++ rest)

/-- `walkFrom`, with `n` links still allowed; a further one is an error. -/
def walk (t : FileTree) (purpose : Purpose) :
    Nat → Location → List Bytes → Except FileError Place
  | 0 => walkFrom t purpose fun _ _ => .error .tooManyLinks
  | n + 1 => walkFrom t purpose (walk t purpose n)

/-- How many links one walk may follow. -/
def linkLimit : Nat := 40

/-- Where `p` leads, from its `origin` along its `steps`. -/
def place (t : FileTree) (purpose : Purpose) (p : Path) : Except FileError Place :=
  match p.fault? with
  | some e => .error e
  | none => t.walk purpose linkLimit (t.origin p) p.steps

/-- The node that `p` leads to, through any links. -/
def find (t : FileTree) (p : Path) : Except FileError (Location × Node) :=
  match t.place .follow p with
  | .error e => .error e
  | .ok (.found loc node) => .ok (loc, node)
  | .ok (.vacant _) => .error .notFound

end FileTree
end ClipLedger
