import ClipLedger.Proofs.Settings.Keys

/-
  Settings from tables in which every key is found with its value. Each field is then the value that
  was given for its key, or its default: table by table, from the values up.
-/
namespace ClipLedger

namespace Fields

variable {α : Type} {fields : List (Text × α)}

theorem uniqueAll?_map {ι : Type} (l : List ι) {name : ι → Text} {value : ι → Option α}
    (h : ∀ i ∈ l, unique? (name i) fields = some (value i)) :
    uniqueAll? (l.map name) fields = some (l.map value) := by
  induction l with
  | nil => rfl
  | cons i l ih =>
    rw [List.map_cons, uniqueAll?, h i List.mem_cons_self,
      ih fun j hj => h j (List.mem_cons_of_mem _ hj)]
    rfl

theorem uniqueAll?_eq_none {names : List Text} {name : Text} (hmem : name ∈ names)
    (h : unique? name fields = none) : uniqueAll? names fields = none := by
  induction names with
  | nil => cases hmem
  | cons name' names ih =>
    rw [uniqueAll?]
    rcases List.mem_cons.1 hmem with rfl | hmem
    · rw [h]
    · rw [ih hmem]
      cases unique? name' fields <;> rfl

end Fields

namespace Settings

open Toml

/-! ## Values -/

section Values

variable {α β : Type}

theorem orDefault?_map {read : Toml → Option α} {write : β → Toml} {f : β → α}
    (h : ∀ v, read (write v) = some (f v)) (default : α) (v : Option β) :
    orDefault? read default (v.map write) = some (v.elim default f) := by
  cases v with
  | none => rfl
  | some v => exact h v

theorem orDefault?_getD {read : Toml → Option α} {write : α → Toml}
    (h : ∀ v, read (write v) = some v) (default : α) (v : Option α) :
    orDefault? read default (v.map write) = some (v.getD default) := by
  rw [orDefault?_map h]
  cases v <;> rfl

theorem natBelow?_natCast {n bound : Nat} (h : n < bound) :
    natBelow? bound (.integer n) = some n := by
  rw [natBelow?, if_pos ⟨Int.natCast_nonneg n, Int.ofNat_lt.2 h⟩, Int.toNat_natCast]

theorem nat?_natural (n : Fin (Nat.pow 2 63)) : nat? (Kind.natural.toToml n) = some n.val :=
  natBelow?_natCast (Nat.lt_trans n.isLt (by decide))

theorem nat32?_natural32 (n : Fin (Nat.pow 2 32)) : nat32? (Kind.natural32.toToml n) = some n.val :=
  natBelow?_natCast n.isLt

theorem float?_number (x : Kind.number.Value) : float? (Kind.number.toToml x) = some x.val := rfl

theorem text?_text (t : Text) : text? (Kind.text.toToml t) = some t := rfl

theorem path?_text (t : Text) : path? (Kind.text.toToml t) = some (Path.ofText t) := rfl

/-- A table that is missing is read like an empty one. -/
theorem orDefault?_table {read : Toml → Option α} {default x : α} {found : Option Toml}
    {out : List (Text × Toml)} (hfound : found = some (.table out) ∨ found = none ∧ out = [])
    (hempty : read (.table []) = some default) (h : read (.table out) = some x) :
    orDefault? read default found = some x := by
  rcases hfound with rfl | ⟨rfl, rfl⟩
  · exact h
  · rw [← h, hempty]
    rfl

end Values

/-! ## Tables -/

variable {g : Given} {out : List (Text × Toml)} {s : Settings}

/-- The fields `out` hold the value of `g` for each key of the table `t`. -/
def Finds (g : Given) (t : Table) (out : List (Text × Toml)) : Prop :=
  ∀ k : Key, k.table = t → Fields.unique? k.name out = some (g.toToml k)

theorem performance_ofToml? (h : Finds g .performance out) :
    Performance.ofToml? s.performance (.table out) = some (g.override s).performance := by
  have hall := Fields.uniqueAll?_map [.batchSize, .pollInterval, .maxQueue, .minContent,
    .workers, .historySize, .noveltyWeight, .baselinePeriod, .candidates, .maxPrompt, .maxResponse]
    fun k hk => h k (by revert k; decide)
  rw [Performance.ofToml?, fields?]
  simp only [List.map_cons, List.map_nil] at hall ⊢
  rw [hall]
  simp only [Option.bind_eq_bind, Option.bind_some, Given.toToml, Key.kind,
    orDefault?_map nat?_natural, orDefault?_map float?_number]
  rfl

theorem sampling_ofToml? (h : Finds g .sampling out) :
    Sampling.ofToml? s.model.sampling (.table out) = some (g.override s).model.sampling := by
  have hall := Fields.uniqueAll?_map [.strategy, .temperature, .topP, .topK, .maxTokens,
    .repetitionPenalty] fun k hk => h k (by revert k; decide)
  rw [Sampling.ofToml?, fields?]
  simp only [List.map_cons, List.map_nil] at hall ⊢
  rw [hall]
  simp only [Option.bind_eq_bind, Option.bind_some, Given.toToml, Key.kind,
    orDefault?_getD text?_text, orDefault?_map nat32?_natural32, orDefault?_map float?_number]
  rfl

theorem paths_ofToml? (h : Finds g .paths out) :
    Paths.ofToml? s.paths (.table out) = some (g.override s).paths := by
  have hall := Fields.uniqueAll?_map [.assets, .log, .dataset, .screenshots]
    fun k hk => h k (by revert k; decide)
  rw [Paths.ofToml?, fields?]
  simp only [List.map_cons, List.map_nil] at hall ⊢
  rw [hall]
  simp only [Option.bind_eq_bind, Option.bind_some, Given.toToml, Key.kind,
    orDefault?_map path?_text]
  rfl

theorem model_ofToml? (h : Finds g .inference out) {sampling : Option Toml}
    (hsampling : Fields.unique? "sampling".toList out = some sampling)
    (hread : orDefault? (Sampling.ofToml? s.model.sampling) s.model.sampling sampling =
      some (g.override s).model.sampling) :
    ModelSettings.ofToml? s.model (.table out) = some (g.override s).model := by
  -- The table for sampling stands between the other keys.
  let keys : List (Option Key) := [some .baseUrl, some .provider, some .model, some .environment,
    some .system, none, some .retryAttempts, some .retryDelay, some .errorMessage]
  have htable : ∀ k? ∈ keys, ∀ k ∈ k?, k.table = .inference := by decide
  have hfound : ∀ k? ∈ keys, Fields.unique? (k?.elim "sampling".toList Key.name) out =
      some (k?.elim sampling g.toToml) := by
    intro k? hk?
    cases k? with
    | none => exact hsampling
    | some k => exact h k (htable _ hk? k rfl)
  have hall := Fields.uniqueAll?_map keys hfound
  rw [ModelSettings.ofToml?, fields?]
  simp only [keys, List.map_cons, List.map_nil, Option.elim_some, Option.elim_none] at hall ⊢
  rw [hall]
  simp only [Option.bind_eq_bind, Option.bind_some, Given.toToml, Key.kind,
    orDefault?_getD text?_text, orDefault?_map nat?_natural, hread]
  rfl

theorem model_ofToml?_eq_none (h : Fields.unique? "sampling".toList out = none)
    (d : ModelSettings) : ModelSettings.ofToml? d (.table out) = none := by
  rw [ModelSettings.ofToml?, fields?, Fields.uniqueAll?_eq_none (by decide) h]
  rfl

/-- Settings are not read where those of the model are not. -/
theorem ofPairs?_eq_none {v : Toml} (hi : Fields.unique? "inference".toList out = some (some v))
    (h : ∀ d, ModelSettings.ofToml? d v = none) : s.ofPairs? out = none := by
  rw [ofPairs?, fields?]
  simp only [List.map_cons, List.map_nil, Fields.uniqueAll?, hi]
  cases Fields.unique? "performance".toList out with
  | none => rfl
  | some performance =>
    cases Fields.unique? "paths".toList out with
    | none => rfl
    | some paths =>
      have hmodel : orDefault? (ModelSettings.ofToml? s.model) s.model (some v) = none := h s.model
      simp only [Option.bind_eq_bind, Option.bind_some, hmodel, Option.bind_none]
      cases orDefault? (Performance.ofToml? s.performance) s.performance performance <;> rfl

end Settings
end ClipLedger
