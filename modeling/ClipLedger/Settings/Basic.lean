import ClipLedger.Analyzer
import ClipLedger.Files.Operations
import ClipLedger.Storage.Dataset

/-
  Settings with their defaults: sizes and weights of the work, the model that is asked, and the
  paths that are used.
-/
namespace ClipLedger

/-- Sizes, intervals in milliseconds, and weights. -/
structure Performance where
  batchSize : Nat
  pollInterval : Nat
  maxQueue : Nat
  minContent : Nat
  workers : Nat
  historySize : Nat
  noveltyWeight : Float
  baselinePeriod : Nat
  candidates : Nat
  maxPrompt : Nat
  maxResponse : Nat

def Performance.default : Performance :=
  ⟨5, 500, 100, 10, 2, 1000, 0.3, 100, 3, 512, 1000⟩

def Sampling.default : Sampling := ⟨"greedy".toList, 0.0, 0.95, 0, 512, 1.0⟩

/-- Which model is asked, where, and how often. -/
structure ModelSettings where
  baseUrl : Text
  provider : Text
  model : Text
  environment : Text
  system : Text
  sampling : Sampling
  retryAttempts : Nat
  retryDelay : Nat
  errorMessage : Text

def ModelSettings.default : ModelSettings where
  baseUrl := "http://localhost:5001".toList
  provider := "meta-reference".toList
  model := "meta-llama/Llama-3.2-1B-Instruct".toList
  environment := "single-node".toList
  system := "You are a poetic assistant, skilled in explaining complex programming concepts with creative flair.".toList
  sampling := .default
  retryAttempts := 3
  retryDelay := 5000
  errorMessage := "Inference server unavailable - ensure the server is running".toList

/-- How prompts are put to the model, with answers of at most `maxResponse` characters. -/
def ModelSettings.inference (m : ModelSettings) (maxResponse : Nat) : Inference :=
  ⟨.of m.retryAttempts m.retryDelay, m.system, m.sampling, maxResponse⟩

/-- What is stored about the model. -/
def ModelSettings.info (m : ModelSettings) : ModelInfo :=
  ⟨m.provider, m.model, m.environment, m.system, m.sampling⟩

/-- The analyzer of the settings `p` and `m`; the weight is clamped to the range from zero to
one. -/
def Analyzer.ofSettings (p : Performance) (m : ModelSettings) : Analyzer Float :=
  { inference := m.inference p.maxResponse
    candidates := p.candidates
    maxPrompt := p.maxPrompt
    weight := clampWeight p.noveltyWeight }

/-- The folders and files of a call. -/
structure Paths where
  assets : Path
  log : Path
  dataset : Path
  screenshots : Path
  deriving DecidableEq

namespace Paths

/-- The layout directly below `root`. -/
def under (root : Path) : Paths :=
  ⟨root.child "assets", root.child "clipboard_log.txt", root.child "clipboard_dataset.jsonl",
    root.child "Screenshots"⟩

/-- The layout below the folder `home`; without one, below the working folder. -/
def ofHome (home : Option Path) : Paths :=
  let home := home.getD (.ofString ".")
  let pile := (home.child "Desktop").child "llama-pile"
  ⟨pile.child "assets", pile.child "clipboard_log.txt", pile.child "clipboard_dataset.jsonl",
    home.child "Screenshots"⟩

/-- The file for the baseline statistics, next to `dataset`. -/
def baselineBeside (dataset : Path) : Path :=
  (dataset.parent?.getD (.ofString ".")).child "novelty_baseline.json"

/-- The file for the baseline statistics: `baselineBeside` the dataset. -/
def baseline (p : Paths) : Path := baselineBeside p.dataset

/-- The folders that have to be there: two that are named, and the parents of the two files. -/
def folders (p : Paths) : List Path :=
  [p.assets, p.screenshots] ++ p.log.parent?.toList ++ p.dataset.parent?.toList

end Paths

/-- Makes the folders one after the other, up to the first that cannot be made. -/
def FileTree.makeEach : FileTree → List Path → Change Unit
  | t, [] => (.ok (), t)
  | t, p :: rest =>
    match t.makeFolders p with
    | (.error e, t) => (.error e, t)
    | (.ok (), t) => makeEach t rest

/-- Makes each of `p.folders`. -/
def Paths.ensureFolders (p : Paths) (t : FileTree) : Change Unit := t.makeEach p.folders

/-- All settings of a call. -/
structure Settings where
  performance : Performance
  model : ModelSettings
  paths : Paths

/-- The settings of a call where no file sets any. -/
def Settings.default (home : Option Path) : Settings :=
  ⟨.default, .default, .ofHome home⟩

end ClipLedger
