import ClipLedger.Model.Chunk
import ClipLedger.Proofs.Json.Spelling
import ClipLedger.Proofs.Text.Trim

/-
  What a line of a streamed answer says. A label and the blanks around a payload are no part of it
  (`payload_of_carries`), and a line is decoded by the value of its payload (`decodeLine_of_read`).
  So the text that was written into a line is the text that is decoded, in each of the four forms
  (`decodeLine_written`).
-/
namespace ClipLedger

namespace Text

theorem after?_append (start t : Text) : after? start (start ++ t) = some t := by
  induction start with
  | nil => rfl
  | cons c start ih => rw [List.cons_append, after?, if_pos rfl, ih]

end Text

namespace Chunk

open Text (Blank)

/-! ## Lines and their payloads -/

/-- A line that holds `payload`: there may be blanks around it, and a label in front. -/
inductive Carries (payload : Text) : Text → Prop
  | bare {before after : Text} (front : Blank before) (back : Blank after) :
      Carries payload (before ++ (payload ++ after))
  | labelled {before gap after : Text} (front : Blank before) (between : Blank gap)
      (back : Blank after) : Carries payload (before ++ ((label ++ (gap ++ payload)) ++ after))

/-- `t` begins and ends with braces. -/
def Braced (t : Text) : Prop := ∃ inside, t = '\x7b' :: (inside ++ ['\x7d'])

theorem payload_of_carries {t line : Text} (ht : Braced t) (h : Carries t line) :
    payload line = t := by
  obtain ⟨inside, rfl⟩ := ht
  have hlast : ∀ before : Text,
      (before ++ '\x7b' :: (inside ++ ['\x7d'])).getLast? = some '\x7d' := by
    intro before
    rw [← List.cons_append, ← List.append_assoc, List.getLast?_concat]
  have hend : ('\x7b' :: (inside ++ ['\x7d'])).getLast? = some '\x7d' := hlast []
  have hnil : Blank [] := List.forall_mem_nil _
  cases h with
  | bare front back =>
    unfold payload
    rw [Text.trim_wrapped front back rfl hend (by decide) (by decide)]
    rfl
  | @labelled before gap after front between back =>
    have hinner : Text.trim (gap ++ '\x7b' :: (inside ++ ['\x7d'])) =
        '\x7b' :: (inside ++ ['\x7d']) := by
      have h := Text.trim_wrapped between hnil rfl hend (by decide) (by decide)
      rwa [List.append_nil] at h
    have houter : (label ++ (gap ++ '\x7b' :: (inside ++ ['\x7d']))).getLast? = some '\x7d' := by
      rw [← List.append_assoc]
      exact hlast _
    have hlabel : (label ++ (gap ++ '\x7b' :: (inside ++ ['\x7d']))).head? = some 'd' := rfl
    unfold payload
    rw [Text.trim_wrapped front back hlabel houter (by decide) (by decide)]
    dsimp only
    rw [Text.after?_append]
    exact hinner

/-- `decodeLine` goes by the value that the payload of the line spells. -/
theorem decodeLine_of_read {t line : Text} {v : Json} (ht : Braced t)
    (hread : Json.read? t = some v) (hlimits : v.withinLimits = true) (h : Carries t line) :
    decodeLine line = ((ofJson? v).bind text?).filter (· ≠ []) := by
  have hhead : t.head? = some '\x7b' := by
    obtain ⟨inside, rfl⟩ := ht
    rfl
  unfold decodeLine value?
  rw [payload_of_carries ht h, if_pos hhead, hread, Option.bind_some, if_pos hlimits,
    Option.bind_some]

/-! ## Written lines -/

/-- Where a choice has its text, in its delta or in its message. -/
inductive Part where
  | delta
  | message

def Part.name : Part → String
  | .delta => "delta"
  | .message => "message"

/-- A choice with the text `t`, as it is written. -/
def writtenChoice (part : Part) (t : Text) : Text :=
  "\x7b\"".toList ++ part.name.toList ++ "\":\x7b\"content\":".toList ++ Json.quote t ++
    "\x7d\x7d".toList

/-- The payloads that carry the text `t`, in each of the forms; behind the first choice there may be
others. -/
inductive Written (t : Text) : Text → Prop
  | event : Written t ("\x7b\"event\":\x7b\"delta\":".toList ++ Json.quote t ++ "\x7d\x7d".toList)
  | typedEvent : Written t
      ("\x7b\"event\":\x7b\"delta\":\x7b\"text\":".toList ++ Json.quote t ++ "\x7d\x7d\x7d".toList)
  | choices (part : Part) (more : List (Part × Text)) : Written t
      ("\x7b\"choices\":[".toList ++
        Text.join [','] (writtenChoice part t :: more.map fun c => writtenChoice c.1 c.2) ++
        "]\x7d".toList)

/-- A choice with the text `t`, as a value. -/
def choiceJson (part : Part) (t : Text) : Json :=
  .record [(part.name, .record [("content", .text t)])]

theorem compact_choiceJson (part : Part) (t : Text) :
    (choiceJson part t).compact = writtenChoice part t := by
  have hcontent : Json.quote "content".toList = "\"content\"".toList := by decide
  have hname : Json.quote part.name.toList = '"' :: (part.name.toList ++ ['"']) := by
    cases part <;> decide
  simp only [choiceJson, writtenChoice, Json.record, List.map_cons, List.map_nil, Json.compact,
    Json.compactFields, hcontent, hname]
  simp

theorem choiceText?_choiceJson (part : Part) (t : Text) :
    choiceText? (choiceJson part t) = some (some t) := by
  cases part <;> rfl

/-- `items` are what the choices `cs` are read as. -/
structure Choices (cs : List (Part × Text)) (items : List Json) : Prop where
  compact : Json.compactItems items = Text.join [','] (cs.map fun c => writtenChoice c.1 c.2)
  depth : Json.depthOfItems items ≤ 2
  numbers : ∀ p, Json.numbersAllItems p items = true
  texts : choiceTexts? items = some (cs.map fun c => some c.2)

theorem choices_map (cs : List (Part × Text)) :
    Choices cs (cs.map fun c => choiceJson c.1 c.2) := by
  induction cs with
  | nil => exact ⟨rfl, Nat.zero_le _, fun _ => rfl, rfl⟩
  | cons c cs ih =>
    refine ⟨?_, ?_, ?_, ?_⟩
    · cases cs with
      | nil => exact compact_choiceJson c.1 c.2
      | cons d cs =>
        have hrest := ih.compact
        simp only [List.map_cons] at hrest ⊢
        rw [Json.compactItems, hrest, compact_choiceJson]
        · exact (List.append_assoc (writtenChoice c.1 c.2) [','] _).symm
        · exact List.cons_ne_nil _ _
    · have hdepth : (choiceJson c.1 c.2).depth = 2 := rfl
      rw [List.map_cons, Json.depthOfItems, hdepth]
      exact Nat.max_le.2 ⟨Nat.le_refl 2, ih.depth⟩
    · intro p
      rw [List.map_cons, Json.numbersAllItems, ih.numbers p]
      rfl
    · rw [List.map_cons, choiceTexts?, choiceText?_choiceJson, ih.texts]
      rfl

/-- What a payload with `Written t` spells: a value within the limits that says `t`. -/
theorem Written.spec {t p : Text} (h : Written t p) :
    Braced p ∧ ∃ v, Json.read? p = some v ∧ v.withinLimits = true ∧
      (ofJson? v).bind text? = some t := by
  have hevent : Json.quote "event".toList = "\"event\"".toList := by decide
  have hdelta : Json.quote "delta".toList = "\"delta\"".toList := by decide
  have htext : Json.quote "text".toList = "\"text\"".toList := by decide
  have hchoices : Json.quote "choices".toList = "\"choices\"".toList := by decide
  have hread : ∀ v : Json, v.compact = p → v.numbersAll Json.isNumber = true →
      Json.read? p = some v := fun v hv hn => hv ▸ Json.read?_compact v hn
  cases h with
  | event =>
    refine ⟨⟨"\"event\":\x7b\"delta\":".toList ++ Json.quote t ++ "\x7d".toList, by simp⟩,
      .record [("event", .record [("delta", .text t)])], hread _ ?_ rfl, rfl, rfl⟩
    simp only [Json.record, List.map_cons, List.map_nil, Json.compact, Json.compactFields, hevent,
      hdelta]
    simp
  | typedEvent =>
    refine ⟨⟨"\"event\":\x7b\"delta\":\x7b\"text\":".toList ++ Json.quote t ++ "\x7d\x7d".toList,
      by simp⟩, .record [("event", .record [("delta", .record [("text", .text t)])])],
      hread _ ?_ rfl, rfl, rfl⟩
    simp only [Json.record, List.map_cons, List.map_nil, Json.compact, Json.compactFields, hevent,
      hdelta, htext]
    simp
  | choices part more =>
    have hitems := choices_map ((part, t) :: more)
    generalize ((part, t) :: more).map (fun c => choiceJson c.1 c.2) = items at hitems
    have hcompact := hitems.compact
    rw [List.map_cons] at hcompact
    refine ⟨⟨"\"choices\":[".toList ++
        Text.join [','] (writtenChoice part t :: more.map fun c => writtenChoice c.1 c.2) ++
        "]".toList, by simp⟩, .record [("choices", .list items)], hread _ ?_ ?_, ?_, ?_⟩
    · simp only [Json.record, List.map_cons, List.map_nil, Json.compact, Json.compactFields,
        hchoices, hcompact]
      simp
    · unfold Json.record
      simp [Json.numbersAll, Json.numbersAllFields, hitems.numbers]
    · have hdepth := hitems.depth
      unfold Json.record Json.withinLimits Json.depthLimit
      simp [Json.depth, Json.depthOfFields, Json.numbersAll, Json.numbersAllFields,
        hitems.numbers]
      omega
    · have hlist : ofJson? (.record [("choices", .list items)]) =
          (choiceTexts? items).map fun ts => .choices ts.head?.join := rfl
      rw [hlist, hitems.texts]
      rfl

/-- **`decodeLine` gives back the text that was written into a line**, in whichever form, and `none`
for the empty text. -/
theorem decodeLine_written {t p line : Text} (h : Written t p) (hl : Carries p line) :
    decodeLine line = if t = [] then none else some t := by
  obtain ⟨hbraced, v, hread, hlimits, htext⟩ := h.spec
  rw [decodeLine_of_read hbraced hread hlimits hl, htext, Option.filter_some]
  by_cases ht : t = [] <;> simp [ht]

/-- A text with a quote, a character of two surrogates and a label in it, behind a label and among
blanks, with another choice behind it. -/
theorem decodeLine_written_hard :
    let t := "data: \"\\😀\x07".toList
    let p := "\x7b\"choices\":[".toList ++
      Text.join [','] [writtenChoice .message t, writtenChoice .delta []] ++ "]\x7d".toList
    let line := ['\u2003'] ++ ((label ++ ([' ', '\u00a0'] ++ p)) ++ ['\r', '\n'])
    Written t p ∧ Carries p line ∧ decodeLine line = some t := by
  intro t p line
  have hp : Written t p := .choices .message [(.delta, [])]
  have hline : Carries p line := .labelled (by decide) (by decide) (by decide)
  exact ⟨hp, hline, decodeLine_written hp hline⟩

end Chunk
end ClipLedger
