import ClipLedger.Proofs.Toml.Access
import ClipLedger.Settings.Decode

/-
  The keys of settings: where each of them stands in a document, and the values that it takes
  (`Key.entry`). Values may be given for some of the keys (`Given`); they replace the fields of
  these keys in settings, and leave all others as they are (`Given.override`).
-/
namespace ClipLedger.Settings

open Toml

/-- The tables of settings. -/
inductive Table where
  | performance
  | inference
  | sampling
  | paths
  deriving DecidableEq

/-- The keys that lead to a table. -/
def Table.path : Table → List Text
  | .performance => ["performance".toList]
  | .inference => ["inference".toList]
  | .sampling => ["inference".toList, "sampling".toList]
  | .paths => ["paths".toList]

/-- The kinds of values. -/
inductive Kind where
  | natural
  | natural32
  | number
  | text

/-- The values of a kind: the natural numbers of 64 or 32 bits that TOML can hold, finite numbers,
and texts. -/
abbrev Kind.Value : Kind → Type
  | .natural => Fin (Nat.pow 2 63)
  | .natural32 => Fin (Nat.pow 2 32)
  | .number => { x : Float // x.isFinite = true }
  | .text => Text

/-- The value in TOML. -/
def Kind.toToml : (kind : Kind) → kind.Value → Toml
  | .natural, n => .integer n.val
  | .natural32, n => .integer n.val
  | .number, x => .float x.val
  | .text, t => .text t

/-- The keys of settings that are no tables. -/
inductive Key where
  | batchSize
  | pollInterval
  | maxQueue
  | minContent
  | workers
  | historySize
  | noveltyWeight
  | baselinePeriod
  | candidates
  | maxPrompt
  | maxResponse
  | baseUrl
  | provider
  | model
  | environment
  | system
  | retryAttempts
  | retryDelay
  | errorMessage
  | strategy
  | temperature
  | topP
  | topK
  | maxTokens
  | repetitionPenalty
  | assets
  | log
  | dataset
  | screenshots
  deriving DecidableEq

/-- The table of a key, its name there, and what it takes. -/
abbrev Key.entry : Key → Table × String × Kind
  | .batchSize => (.performance, "batch_size", .natural)
  | .pollInterval => (.performance, "poll_interval_ms", .natural)
  | .maxQueue => (.performance, "max_queue_size", .natural)
  | .minContent => (.performance, "min_content_length", .natural)
  | .workers => (.performance, "concurrent_agents", .natural)
  | .historySize => (.performance, "history_size", .natural)
  | .noveltyWeight => (.performance, "novelty_weight", .number)
  | .baselinePeriod => (.performance, "baseline_period", .natural)
  | .candidates => (.performance, "candidates_per_agent", .natural)
  | .maxPrompt => (.performance, "max_prompt_chars", .natural)
  | .maxResponse => (.performance, "max_response_chars", .natural)
  | .baseUrl => (.inference, "base_url", .text)
  | .provider => (.inference, "provider", .text)
  | .model => (.inference, "model_id", .text)
  | .environment => (.inference, "environment", .text)
  | .system => (.inference, "system_message", .text)
  | .retryAttempts => (.inference, "retry_attempts", .natural)
  | .retryDelay => (.inference, "retry_delay_ms", .natural)
  | .errorMessage => (.inference, "error_message", .text)
  | .strategy => (.sampling, "strategy", .text)
  | .temperature => (.sampling, "temperature", .number)
  | .topP => (.sampling, "top_p", .number)
  | .topK => (.sampling, "top_k", .natural32)
  | .maxTokens => (.sampling, "max_tokens", .natural32)
  | .repetitionPenalty => (.sampling, "repetition_penalty", .number)
  | .assets => (.paths, "assets_dir", .text)
  | .log => (.paths, "log_file", .text)
  | .dataset => (.paths, "dataset_file", .text)
  | .screenshots => (.paths, "screenshots_dir", .text)

abbrev Key.table (k : Key) : Table := k.entry.1

abbrev Key.name (k : Key) : Text := k.entry.2.1.toList

abbrev Key.kind (k : Key) : Kind := k.entry.2.2

/-- The keys that lead to the value of `k`. -/
def Key.path (k : Key) : List Text := k.table.path ++ [k.name]

/-- Values for some of the keys. -/
abbrev Given := (k : Key) → Option k.kind.Value

namespace Given

/-- The value of `k` in TOML, if `g` has one. -/
def toToml (g : Given) (k : Key) : Option Toml := (g k).map k.kind.toToml

/-- The pairs `content` set the values of `g`: each key leads to its value, or to none where `g` has
none, and what stands at the keys of the known tables are tables. -/
structure SetBy (g : Given) (content : List (Text × Toml)) : Prop where
  keys : ∀ k : Key, valueAt k.path content = g.toToml k
  tables : ∀ t : Table, ∀ v ∈ valueAt t.path content, ∃ inner, v = .table inner

/-- `d` with the values of `g` in the place of its own. -/
def override (g : Given) (d : Settings) : Settings where
  performance :=
    { batchSize := (g .batchSize).elim d.performance.batchSize Fin.val
      pollInterval := (g .pollInterval).elim d.performance.pollInterval Fin.val
      maxQueue := (g .maxQueue).elim d.performance.maxQueue Fin.val
      minContent := (g .minContent).elim d.performance.minContent Fin.val
      workers := (g .workers).elim d.performance.workers Fin.val
      historySize := (g .historySize).elim d.performance.historySize Fin.val
      noveltyWeight := (g .noveltyWeight).elim d.performance.noveltyWeight Subtype.val
      baselinePeriod := (g .baselinePeriod).elim d.performance.baselinePeriod Fin.val
      candidates := (g .candidates).elim d.performance.candidates Fin.val
      maxPrompt := (g .maxPrompt).elim d.performance.maxPrompt Fin.val
      maxResponse := (g .maxResponse).elim d.performance.maxResponse Fin.val }
  model :=
    { baseUrl := (g .baseUrl).getD d.model.baseUrl
      provider := (g .provider).getD d.model.provider
      model := (g .model).getD d.model.model
      environment := (g .environment).getD d.model.environment
      system := (g .system).getD d.model.system
      sampling :=
        { strategy := (g .strategy).getD d.model.sampling.strategy
          temperature := (g .temperature).elim d.model.sampling.temperature Subtype.val
          topP := (g .topP).elim d.model.sampling.topP Subtype.val
          topK := (g .topK).elim d.model.sampling.topK Fin.val
          maxTokens := (g .maxTokens).elim d.model.sampling.maxTokens Fin.val
          repetitionPenalty :=
            (g .repetitionPenalty).elim d.model.sampling.repetitionPenalty Subtype.val }
      retryAttempts := (g .retryAttempts).elim d.model.retryAttempts Fin.val
      retryDelay := (g .retryDelay).elim d.model.retryDelay Fin.val
      errorMessage := (g .errorMessage).getD d.model.errorMessage }
  paths :=
    { assets := (g .assets).elim d.paths.assets Path.ofText
      log := (g .log).elim d.paths.log Path.ofText
      dataset := (g .dataset).elim d.paths.dataset Path.ofText
      screenshots := (g .screenshots).elim d.paths.screenshots Path.ofText }

end Given
end ClipLedger.Settings
