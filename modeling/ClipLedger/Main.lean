import ClipLedger.CommandLine.Session
import Std.Async.Signal

/-
  The program. It takes a picture of the files that a call looks at, lets the call be decided on
  that picture, and carries out on the disk what was decided. No desktop clipboard can be read
  from here: each reading would fail and add nothing, so that what is left of the work is to wait
  for the signal that ends it.
-/
namespace ClipLedger.CommandLine

/-- The name of the place `loc` as the disk knows it. -/
def diskName (loc : Location) : String :=
  String.ofList (Path.mk (loc.flatMap (Path.slash :: ·))).display

/-- What stands at `name` on the disk, links followed. -/
def onDisk? (name : String) : IO (Option Node) := do
  try
    let place ← IO.FS.realPath name
    if ← place.isDir then return some .folder
    let content ← IO.FS.readBinFile place
    return some (.file content.toList 0)
  catch _ => return none

/-- The places on the way from `loc` along names. -/
def way : Location → List Bytes → List Location
  | _, [] => []
  | loc, name :: rest =>
    let next :=
      if name = [Path.dot] then loc
      else if name = [Path.dot, Path.dot] then loc.dropLast
      else loc ++ [name]
    next :: way next rest

/-- Adds to the picture `t` what stands on the way along `p`. -/
def addWay (t : FileTree) (p : Path) : IO FileTree :=
  (way (t.origin p) p.withoutSlashes.steps).foldlM (fun t loc => do
    match ← onDisk? (diskName loc) with
    | some node => return t.put loc node
    | none => return t) t

/-- A picture of the disk along `paths`, seen from `folder`. -/
def picture (folder : Path) (paths : List Path) : IO FileTree :=
  (folder :: paths).foldlM addWay ⟨[], folder.withoutSlashes.steps, 0⟩

/-- Makes on the disk the folders of `after` that the picture `before` does not have. -/
def makeFolders (before after : FileTree) : IO Unit :=
  after.nodes.forM fun e => do
    if e.2 = .folder ∧ before.node? e.1 ≠ some .folder then IO.FS.createDirAll (diskName e.1)

/-- Shows the messages of a call. -/
def tell (messages : List Text) : IO Unit :=
  messages.forM fun m => IO.println (String.ofList ("INFO ".toList ++ m))

/-- Waits for the signal that ends the work. -/
def awaitSignal : IO Unit := do
  let interrupted ← (← Std.Async.Signal.Waiter.mk .sigint false).wait
  let terminated ← (← Std.Async.Signal.Waiter.mk .sigterm false).wait
  let _ ← IO.waitAny [interrupted, terminated]

/-- Runs a call with the arguments `args`. -/
def run (args : List Text) : IO UInt32 := do
  let home := (← IO.getEnv "HOME").map Path.ofString
  let folder := Path.ofString (← IO.currentDir).toString
  let files ← picture folder (lookedAt args home (.empty 0))
  let files ← picture folder (lookedAt args home files)
  let outcome := call args home files
  makeFolders files outcome.files
  IO.print (String.ofList outcome.output)
  tell outcome.info
  if let some line := outcome.errorLine then IO.eprintln (String.ofList line)
  if outcome.untilSignal then awaitSignal
  tell outcome.farewell
  return outcome.exitCode.toUInt32

end ClipLedger.CommandLine

/-- Runs a call with the arguments of the command line. -/
def main (args : List String) : IO UInt32 := ClipLedger.CommandLine.run (args.map String.toList)
