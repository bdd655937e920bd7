import ClipLedger.Text.Basic

/-
  The arguments of the command line, read from left to right. The first fault decides, and so
  does a request for help or for the version, whichever comes first.
-/
namespace ClipLedger

/-- How much is logged. -/
inductive LogLevel where
  | error
  | warn
  | info
  | debug
  | trace
  deriving DecidableEq, Repr

namespace LogLevel

/-- Every `LogLevel`, from the least to the most that is logged. -/
def all : List LogLevel := [.error, .warn, .info, .debug, .trace]

def name : LogLevel → Text
  | .error => "error".toList
  | .warn => "warn".toList
  | .info => "info".toList
  | .debug => "debug".toList
  | .trace => "trace".toList

/-- The level with the name `t`, in any case of its letters where `ignoreCase`. -/
def ofName? (t : Text) (ignoreCase : Bool) : Option LogLevel :=
  all.find? fun l => if ignoreCase then Text.sameIgnoringCase t l.name else t == l.name

/-- The complaint about `t`, which is the name of no level. -/
def unknown (t : Text) : Text := "invalid variant: ".toList ++ t

/-- Whether messages of the level `info` are logged. -/
def showsInfo : LogLevel → Bool
  | .error => false
  | .warn => false
  | _ => true

end LogLevel

namespace CommandLine

/-- What was given on the command line, so far. -/
structure Options where
  config : Option Text
  logLevel : Option LogLevel
  mock : Bool
  daemon : Bool

def Options.none : Options := ⟨.none, .none, false, false⟩

/-- What `parse` makes of the command line. -/
inductive Command where
  | run (o : Options)
  | help
  | version
  | misuse

/-- Sets the configuration file. It may be set once, and not to an empty text. -/
def setConfig? (o : Options) (value : Text) : Option Options :=
  if o.config.isSome ∨ value = [] then .none else some { o with config := some value }

/-- Sets the log level, which may be set once. -/
def setLevel? (o : Options) (value : Text) : Option Options :=
  if o.logLevel.isSome then .none
  else (LogLevel.ofName? value false).map fun l => { o with logLevel := some l }

/-- What an option `name` with a value does; `none` where it has none. -/
def valued? (name : Text) : Option (Options → Text → Option Options) :=
  if name = "--config".toList then some setConfig?
  else if name = "--log-level".toList then some setLevel?
  else .none

/-- An option without a value. -/
inductive Switch where
  | mock
  | daemon
  | help
  | version

def longSwitch? (name : Text) : Option Switch :=
  if name = "--mock".toList then some .mock
  else if name = "--daemon".toList then some .daemon
  else if name = "--help".toList then some .help
  else if name = "--version".toList then some .version
  else .none

def shortSwitch? (c : Char) : Option Switch :=
  if c = 'd' then some .daemon
  else if c = 'h' then some .help
  else if c = 'V' then some .version
  else .none

/-- Turns a switch on: new options, or the `Command` that this amounts to. -/
def turnOn (o : Options) : Switch → Except Command Options
  | .mock => if o.mock then .error .misuse else .ok { o with mock := true }
  | .daemon => if o.daemon then .error .misuse else .ok { o with daemon := true }
  | .help => .error .help
  | .version => .error .version

/-- `turnOn` for each letter of a cluster such as `-dh`. -/
def turnOnAll : Options → Text → Except Command Options
  | o, [] => .ok o
  | o, c :: rest =>
    match shortSwitch? c with
    | .none => .error .misuse
    | some s =>
      match turnOn o s with
      | .error e => .error e
      | .ok o => turnOnAll o rest

/-- The name and the value of an argument such as `--config=path`. -/
def attached? (arg : Text) : Option (Text × Text) :=
  match arg with
  | '-' :: '-' :: _ => Text.splitFirst '=' arg
  | _ => .none

/-- A dash with something after it, which cannot be a value. -/
def looksLikeOption : Text → Bool
  | '-' :: _ :: _ => true
  | _ => false

/-- Reads arguments from the left, with the options so far. The first `Command` that one amounts
to ends it. -/
def parseFrom : Options → List Text → Command
  | o, [] => .run o
  | o, arg :: rest =>
    if arg = "--".toList then if rest = [] then .run o else .misuse
    else match attached? arg, valued? arg with
      | _, some set =>
        match rest with
        | [] => .misuse
        | value :: rest =>
          if looksLikeOption value then .misuse
          else match set o value with
            | .none => .misuse
            | some o => parseFrom o rest
      | some (name, value), .none =>
        match valued? name with
        | some set =>
          match set o value with
          | .none => .misuse
          | some o => parseFrom o rest
        | .none => .misuse
      | .none, .none =>
        match longSwitch? arg with
        | some s =>
          match turnOn o s with
          | .error c => c
          | .ok o => parseFrom o rest
        | .none =>
          match arg with
          | '-' :: '-' :: _ => .misuse
          | '-' :: c :: cs =>
            match turnOnAll o (c :: cs) with
            | .error c => c
            | .ok o => parseFrom o rest
          | _ => .misuse

/-- Reads the arguments behind the name of the program. -/
def parse (args : List Text) : Command := parseFrom .none args

/-- What `Command.version` shows. -/
def versionText : Text := "llama-pile 0.1.0\n".toList

/-- What `Command.help` shows. -/
def helpText : Text :=
  "Clipboard monitor that analyses captured content with a local model

Usage: llama-pile [OPTIONS]

Options:
      --config <CONFIG>        Optional TOML file overriding the built-in configuration
      --log-level <LOG_LEVEL>  Logging verbosity level [default: info] [possible values: error, warn, info, debug, trace]
      --mock                   Answer with an in-process mock instead of the inference server
  -d, --daemon                 Run as a background daemon
  -h, --help                   Print help
  -V, --version                Print version
".toList

end CommandLine
end ClipLedger
