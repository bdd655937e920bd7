import ClipLedger.Toml.Reader

/-
  TOML documents. The lines are gathered into tables, and the tables into one tree by their
  headers. A table may be opened once only, except that a doubled header opens one more element
  of a list; a table inside may be opened before the one around it.
-/
namespace ClipLedger.Toml

/-- A table as it stands in a document: the part of its header that is still to be placed, whether
the header is doubled (`many`), and its pairs. -/
structure Section where
  path : List Text
  many : Bool
  pairs : List (Text × Toml)

/-- What follows one header: key paths with their values. -/
structure Block where
  path : List Text
  many : Bool
  sets : List (List Text × Toml)

/-- Gathers lines into blocks, from the last line to the first. The lines in front of the first
header come separately. -/
def blocks : List Line → List (List Text × Toml) × List Block
  | [] => ([], [])
  | .set path v :: rest =>
    let (sets, bs) := blocks rest
    ((path, v) :: sets, bs)
  | .header path many :: rest =>
    let (sets, bs) := blocks rest
    ([], ⟨path, many, sets⟩ :: bs)

/-- The table of `b`; `none` where `build?` finds a key in the way of another. -/
def Block.section? (b : Block) : Option Section :=
  (build? b.sets).map fun pairs => ⟨b.path, b.many, pairs⟩

/-- The tables of a document. What stands before the first header is one of them if it is not
empty. -/
def sections? (ls : List Line) : Option (List Section) :=
  let (sets, bs) := blocks ls
  let first := if sets = [] then [] else [⟨[], false, sets⟩]
  (first ++ bs).mapM Block.section?

/-- The sections of one key: the key, and its sections without it. -/
abbrev Group := Text × List Section

/-- Adds `s` to the group of `k`, which comes last if it is new. -/
def addTo (k : Text) (s : Section) : List Group → List Group
  | [] => [(k, [s])]
  | (k', ss) :: rest => if k = k' then (k', ss ++ [s]) :: rest else (k', ss) :: addTo k s rest

/-- The sections of `ss` grouped by the first key of their headers, in the order of appearance. -/
def groups (ss : List Section) : List Group :=
  ss.foldl (fun gs s =>
    match s.path with
    | [] => gs
    | k :: ks => addTo k { s with path := ks } gs) []

/-- Whether `s` opens an element of the list at this place. -/
def Section.opensElement (s : Section) : Bool := s.many && s.path == []

/-- Cuts sections where an element opens: each opening one with those behind it. -/
def elements : List Section → List (List Section)
  | [] => []
  | s :: rest =>
    match elements rest with
    | [] => [[s]]
    | es@(e :: more) =>
      match e with
      | first :: _ => if first.opensElement then [s] :: es else (s :: e) :: more
      | [] => [s] :: more

/-- The sections of one element, of which the first is no longer doubled. -/
def asElement : List Section → List Section
  | [] => []
  | s :: rest => { s with many := false } :: rest

/-- The pairs of the tables below one header; `none` where a table is opened twice. The number
bounds the length of headers. -/
def assemble? : Nat → List Section → Option (List (Text × Toml))
  | 0, _ => none
  | n + 1, ss =>
    let own := ss.filter fun s => s.path == []
    let inside := (groups ss).mapM fun g =>
      match g.2 with
      | first :: _ =>
        if first.opensElement then
          ((elements g.2).mapM fun e => (assemble? n (asElement e)).map Toml.table).map
            fun items => (g.1, Toml.list items)
        else (assemble? n g.2).map fun pairs => (g.1, Toml.table pairs)
      | [] => none
    match own with
    | [] => inside
    | [s] => if s.many then none else inside.map (s.pairs ++ ·)
    | _ => none

/-- The pairs of the document `t`. -/
def read? (t : Text) : Option (List (Text × Toml)) := do
  let ts ← tokens t
  let ls ← lines? (2 * ts.length + 2) ts
  let ss ← sections? ls
  assemble? (ts.length + 2) ss

end ClipLedger.Toml
