import ClipLedger.Persona.Roster
import ClipLedger.Proofs.Text.ColonLines

/-
  What later personas are shown of a record, read line by line. A label stays on a line of its own,
  because a persona's id neither ends a line nor starts with a blank (`IsLabel`); so the lines with
  a colon in all blocks together are, for each answer, its label and the lines with a colon of its
  response (`colonLines_thoughts`), however its lines end and also where it has none.
-/
namespace ClipLedger.Record

variable {α : Type}

/-- `id` can stand in front of the colon of a label: it has no line feed, and `trim` takes nothing
from its start. -/
structure IsLabel (id : Text) : Prop where
  single : '\n' ∉ id
  starts : ∀ c ∈ id.head?, Text.isBlank c = false

theorem isLabel_iff {id : Text} :
    '\n' ∉ id ∧ (id.head?.all fun c => !Text.isBlank c) = true ↔ IsLabel id := by
  simp only [Option.all_eq_true, Bool.not_eq_true']
  exact ⟨fun h => ⟨h.1, h.2⟩, fun h => ⟨h.single, h.starts⟩⟩

instance (id : Text) : Decidable (IsLabel id) :=
  decidable_of_iff _ isLabel_iff

theorem isLabel_of_mem_roster {p : Persona} (hp : p ∈ Persona.roster) : IsLabel p.id := by
  have hall : ∀ p ∈ Persona.roster, IsLabel p.id := by decide +kernel
  exact hall p hp

theorem IsLabel.isColonLine {id : Text} (h : IsLabel id) : Text.IsColonLine (id ++ [':']) := by
  have hstart : Text.trimStart id = id := by
    cases id with
    | nil => rfl
    | cons c rest => exact List.dropWhile_cons_of_neg (by simp [h.starts c rfl])
  refine ⟨by simp, by simp [h.single], ?_⟩
  rw [Text.trim_append_colon, hstart]
  rfl

theorem colonLines_block {a : Answer α} (h : IsLabel a.persona) :
    Text.colonLines (block a) = (a.persona ++ [':']) :: Text.colonLines a.response := by
  have hblock : block a =
      (a.persona ++ [':']) ++ '\n' :: Text.join ['\n'] (Text.colonLines a.response) := by
    simp [block]
  rw [hblock, Text.colonLines_append_lineFeed, h.isColonLine.colonLines_eq,
    Text.colonLines_join_self, List.singleton_append]

/-- **The blocks lose no line with a colon, and add none but the labels.** For a record whose
personas are labels, `colonLines` of its `thoughts` are each persona's label and the `colonLines` of
its response; picked once more they stay as they are. The ids of the roster are labels. -/
theorem colonLines_thoughts {r : Record α} (h : ∀ a ∈ r, IsLabel a.persona) :
    Text.colonLines r.thoughts = (if r = [] then ["no_previous: true".toList]
      else r.flatMap fun a => (a.persona ++ [':']) :: Text.colonLines a.response) ∧
    Text.colonLines (Text.join ['\n'] (Text.colonLines r.thoughts)) = Text.colonLines r.thoughts ∧
    ∀ p ∈ Persona.roster, IsLabel p.id := by
  refine ⟨?_, Text.colonLines_join_self _, fun p => isLabel_of_mem_roster⟩
  unfold thoughts
  cases r with
  | nil =>
    rw [if_pos List.isEmpty_nil, if_pos rfl]
    decide +kernel
  | cons a rest =>
    rw [if_neg (by simp), if_neg (by simp), Text.colonLines_join, List.flatMap_map]
    exact List.flatMap_congr fun b hb => colonLines_block (h b hb)

/-- Lines that end in a carriage return, blank and colon-free lines, an ideographic space, and a
persona without any line to show. -/
theorem colonLines_thoughts_uneven :
    let answer (id response : String) : Answer Rat :=
      ⟨id.toList, response.toList, 0, .naturalText, [], []⟩
    let r : Record Rat := [answer "curator" "intro\r\n\u3000topic: a\rb \r\n\n: orphan\r",
      answer "analyst" "nothing to say\n", answer "a: b " "time: 12:30"]
    (∀ a ∈ r, IsLabel a.persona) ∧ Text.colonLines r.thoughts =
      ["curator:", "topic: a\rb", ": orphan", "analyst:", "a: b :", "time: 12:30"].map
        String.toList := by
  intro answer r
  have h : ∀ a ∈ r, IsLabel a.persona := by decide +kernel
  refine ⟨h, ?_⟩
  rw [(colonLines_thoughts h).1]
  decide +kernel

end ClipLedger.Record
