import ClipLedger.CommandLine.Arguments
import ClipLedger.Settings.Decode
import ClipLedger.WorkQueue

/-
  What the program does with a command line: the messages it shows, the folders it makes, and how
  it ends. A program that gets to its work goes on until it is told to stop.
-/
namespace ClipLedger.CommandLine

/-- How a call of the program goes: the messages at the start and, where it works until a signal
stops it, those after that. -/
structure Outcome where
  exitCode : Nat
  untilSignal : Bool
  info : List Text
  farewell : List Text
  output : Text
  errorLine : Option Text
  files : FileTree

/-- The end of a call that shows `output` and does nothing else. -/
def Outcome.shows (output : Text) (files : FileTree) : Outcome :=
  ⟨0, false, [], [], output, none, files⟩

/-- The end of a call with a `Command.misuse`. -/
def Outcome.misused (files : FileTree) : Outcome := ⟨2, false, [], [], [], none, files⟩

/-- The end of a call that failed with `message`. -/
def Outcome.failed (message : Text) (files : FileTree) : Outcome :=
  ⟨1, false, [], [], [], some ("Error: ".toList ++ message), files⟩

/-- The exit code of a program that broke down. -/
def breakdownCode : Nat := 101

/-- The message that tells which server and which model of `m` are asked, or, with `o.mock`, that
inference is mocked. -/
def modelMessage (o : Options) (m : ModelSettings) : Text :=
  if o.mock then "using mock inference".toList
  else "using inference server base_url=".toList ++ m.baseUrl ++ " model=".toList ++ m.model

/-- The message at the start of the work, with the sizes of `p`. -/
def startMessage (p : Performance) : Text :=
  "starting clipboard monitor batch_size=".toList ++ Text.ofNat p.batchSize
    ++ " poll_interval_ms=".toList ++ Text.ofNat p.pollInterval
    ++ " workers=".toList ++ Text.ofNat p.workers

/-- The messages at the end of the work. -/
def stopMessages : List Text := ["shutting down".toList, "cleanup complete".toList]

/-- The settings of a call: the defaults, with those of the file over them where `o.config` names
one. -/
def settings (o : Options) (home : Option Path) (files : FileTree) : Except Failure Settings :=
  match o.config with
  | none => .ok (.default home)
  | some path => (Settings.default home).load files (.ofText path)

/-- What `e` says on the command line. -/
def failureText (e : FileError) : Text := ((Failure.file e).message?).getD []

/-- Starts the work with the settings `s`: the folders are made first (`ensureFolders`). -/
def start (o : Options) (s : Settings) (files : FileTree) : Outcome :=
  match s.paths.ensureFolders files with
  | (.error e, files) => .failed (failureText e) files
  | (.ok (), files) =>
    let shown (messages : List Text) :=
      if (o.logLevel.getD .info).showsInfo then messages else []
    let model := modelMessage o s.model
    if WorkQueue.capacityLimit < s.performance.maxQueue then
      ⟨breakdownCode, false, shown [model], [], [], none, files⟩
    else
      ⟨0, true, shown [model, startMessage s.performance], shown stopMessages, [], none, files⟩

/-- What becomes of a call with `args`. A daemon leaves its work to a process of its own. -/
def call (args : List Text) (home : Option Path) (files : FileTree) : Outcome :=
  match parse args with
  | .misuse => .misused files
  | .help => .shows helpText files
  | .version => .shows versionText files
  | .run o =>
    if o.daemon then .shows [] files
    else match settings o home files with
      | .error _ => .failed ("loading ".toList ++ (o.config.getD [])) files
      | .ok s => start o s files

/-- The paths that a call looks at, as far as they can be told from `files`: the configuration,
and once that is known the folders that have to be there. -/
def lookedAt (args : List Text) (home : Option Path) (files : FileTree) : List Path :=
  match parse args with
  | .run o =>
    let config := (o.config.map Path.ofText).toList
    match settings o home files with
    | .error _ => config
    | .ok s => config ++ s.paths.folders
  | _ => []

end ClipLedger.CommandLine
