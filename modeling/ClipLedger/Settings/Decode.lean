import ClipLedger.Fields
import ClipLedger.Settings.Basic
import ClipLedger.Toml.Document

/-
  Settings from TOML. Every key is optional; what is not set keeps its default, and unknown keys
  do not count. A table may also be written as a list of its values in the order of its keys.
-/
namespace ClipLedger

namespace Toml

/-- What a value gives for the keys `names`, each missing or present: a table by its keys, a list in
their order. A date counts as a table without these keys. -/
def fields? (names : List String) : Toml → Option (List (Option Toml))
  | .table pairs => Fields.uniqueAll? (names.map String.toList) pairs
  | .list items => Fields.ofList? (names.map String.toList) items
  | .datetime => some (names.map fun _ => none)
  | _ => none

/-- `read` of a value, or `default` where it is missing. -/
def orDefault? {α : Type} (read : Toml → Option α) (default : α) : Option Toml → Option α
  | none => some default
  | some v => read v

/-- A natural number below `bound`. -/
def natBelow? (bound : Nat) : Toml → Option Nat
  | .integer n => if 0 ≤ n ∧ n < bound then some n.toNat else none
  | _ => none

/-- A natural number of 64 bits. -/
def nat? : Toml → Option Nat := natBelow? (Nat.pow 2 64)

/-- A natural number of 32 bits. -/
def nat32? : Toml → Option Nat := natBelow? (Nat.pow 2 32)

/-- A binary64 number; whole numbers count as such. -/
def float? : Toml → Option Float
  | .float x => some x
  | .integer n => some (Float.ofInt n)
  | _ => none

def text? : Toml → Option Text
  | .text t => some t
  | _ => none

/-- A path, given as a text. -/
def path? (v : Toml) : Option Path := (text? v).map Path.ofText

end Toml

open Toml in
/-- The settings of the table `v` over those of `d`; `none` where a value has the wrong type. -/
def Performance.ofToml? (d : Performance) (v : Toml) : Option Performance := do
  match ← fields? ["batch_size", "poll_interval_ms", "max_queue_size", "min_content_length",
    "concurrent_agents", "history_size", "novelty_weight", "baseline_period",
    "candidates_per_agent", "max_prompt_chars", "max_response_chars"] v with
  | [a, b, c, e, f, g, h, i, j, k, l] =>
    return {
      batchSize := ← orDefault? nat? d.batchSize a
      pollInterval := ← orDefault? nat? d.pollInterval b
      maxQueue := ← orDefault? nat? d.maxQueue c
      minContent := ← orDefault? nat? d.minContent e
      workers := ← orDefault? nat? d.workers f
      historySize := ← orDefault? nat? d.historySize g
      noveltyWeight := ← orDefault? float? d.noveltyWeight h
      baselinePeriod := ← orDefault? nat? d.baselinePeriod i
      candidates := ← orDefault? nat? d.candidates j
      maxPrompt := ← orDefault? nat? d.maxPrompt k
      maxResponse := ← orDefault? nat? d.maxResponse l }
  | _ => none

open Toml in
/-- The sampling of the table `v` over that of `d`. -/
def Sampling.ofToml? (d : Sampling) (v : Toml) : Option Sampling := do
  match ← fields? ["strategy", "temperature", "top_p", "top_k", "max_tokens",
    "repetition_penalty"] v with
  | [a, b, c, e, f, g] =>
    return {
      strategy := ← orDefault? text? d.strategy a
      temperature := ← orDefault? float? d.temperature b
      topP := ← orDefault? float? d.topP c
      topK := ← orDefault? nat32? d.topK e
      maxTokens := ← orDefault? nat32? d.maxTokens f
      repetitionPenalty := ← orDefault? float? d.repetitionPenalty g }
  | _ => none

open Toml in
/-- The settings of the table `v` over those of `d`. -/
def ModelSettings.ofToml? (d : ModelSettings) (v : Toml) : Option ModelSettings := do
  match ← fields? ["base_url", "provider", "model_id", "environment", "system_message",
    "sampling", "retry_attempts", "retry_delay_ms", "error_message"] v with
  | [a, b, c, e, f, g, h, i, j] =>
    return {
      baseUrl := ← orDefault? text? d.baseUrl a
      provider := ← orDefault? text? d.provider b
      model := ← orDefault? text? d.model c
      environment := ← orDefault? text? d.environment e
      system := ← orDefault? text? d.system f
      sampling := ← orDefault? (Sampling.ofToml? d.sampling) d.sampling g
      retryAttempts := ← orDefault? nat? d.retryAttempts h
      retryDelay := ← orDefault? nat? d.retryDelay i
      errorMessage := ← orDefault? text? d.errorMessage j }
  | _ => none

open Toml in
/-- The paths of the table `v` over those of `d`. -/
def Paths.ofToml? (d : Paths) (v : Toml) : Option Paths := do
  match ← fields? ["assets_dir", "log_file", "dataset_file", "screenshots_dir"] v with
  | [a, b, c, e] =>
    return {
      assets := ← orDefault? path? d.assets a
      log := ← orDefault? path? d.log b
      dataset := ← orDefault? path? d.dataset c
      screenshots := ← orDefault? path? d.screenshots e }
  | _ => none

namespace Settings

open Toml in
/-- The settings of the pairs of a document over those of `d`. -/
def ofPairs? (d : Settings) (pairs : List (Text × Toml)) : Option Settings := do
  match ← fields? ["performance", "inference", "paths"] (.table pairs) with
  | [a, b, c] =>
    return {
      performance := ← orDefault? (Performance.ofToml? d.performance) d.performance a
      model := ← orDefault? (ModelSettings.ofToml? d.model) d.model b
      paths := ← orDefault? (Paths.ofToml? d.paths) d.paths c }
  | _ => none

/-- The settings of the document `t` over those of `d`. -/
def ofText? (d : Settings) (t : Text) : Option Settings := (Toml.read? t).bind d.ofPairs?

/-- The settings of the file at `p` over those of `d`. -/
def load (d : Settings) (t : FileTree) (p : Path) : Except Failure Settings :=
  match t.readText p with
  | .error e => .error (.file e)
  | .ok text =>
    match d.ofText? text with
    | some s => .ok s
    | none => .error .settings

end Settings
end ClipLedger
