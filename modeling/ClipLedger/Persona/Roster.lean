import ClipLedger.Persona.Record
import ClipLedger.Template
import ClipLedger.Text.Basic

/-
  The personas that look at every item, in a fixed order: curator, analyst, synthesizer. Each
  has a template with one place for what was answered before.
-/
namespace ClipLedger

/-- A role that a model plays: its `id`, its `role` and the `template` of its prompt. -/
structure Persona where
  id : Text
  name : Text
  role : Text
  template : Text
  deriving DecidableEq

namespace Persona

/-- Sees what sort of content it is and whether the topic changed. -/
def curator : Persona where
  id := "curator".toList
  name := "Curator".toList
  role := "A detail-oriented observer who detects content type and topic shifts".toList
  template := "Analyze content for type and topic changes. Pay special attention to:
- Programming code vs natural language
- Technical documentation vs conversational text
- Structured data vs prose
- Major subject matter shifts

Rules:
- Each key and value should be 1-3 words maximum
- ALWAYS start with 'content_type' and 'context_shift'
- If content type changes (e.g. code vs text), ALWAYS mark context_shift as true
- Format as 'key: value'

Previous context: {previous_thoughts}

List the key-value pairs for this content:".toList

/-- Looks at structure and complexity. -/
def analyst : Persona where
  id := "analyst".toList
  name := "Analyst".toList
  role := "A technical analyzer who identifies structural patterns".toList
  template := "Analyze content structure and complexity while tracking shifts.

Rules:
- Each key and value should be 1-3 words maximum
- ALWAYS start with 'structure_type' and 'complexity_level'
- Note dramatic shifts in content structure
- Format as 'key: value'

Previous flow: {previous_thoughts}

List the key-value pairs for this analysis:".toList

/-- Weighs how much changed. -/
def synthesizer : Persona where
  id := "synthesizer".toList
  name := "Synthesizer".toList
  role := "An integrator who identifies significant transitions".toList
  template := "Synthesize shifts in content type and structure.

Rules:
- Each key and value should be 1-3 words maximum
- ALWAYS evaluate significance of change
- Format as 'key: value'
- Add change metrics

Previous synthesis: {previous_thoughts}

List the key-value pairs for your synthesis:".toList

/-- Every persona, in the order in which they are asked. -/
def roster : List Persona := [curator, analyst, synthesizer]

/-- The template with `previous` filled in. -/
def render (p : Persona) (previous : Text) : Except TemplateError Text :=
  Template.render p.template (.record [("previous_thoughts", .text previous)])

/-- A prompt: the class of an item, the filled template, and `itemSection` about the item
itself. -/
def promptWith (p : Persona) (contentClass : ContentClass) (previous itemSection : Text) :
    Except TemplateError Text :=
  (p.render previous).map fun body =>
    "Content type detected: ".toList ++ contentClass.name ++ ['\n', '\n'] ++ body ++ itemSection

/-- The prompt for `item`, of which a text is cut to `max` characters. -/
def prompt (p : Persona) (contentClass : ContentClass) (previous : Text) (item : Item) (max : Nat) :
    Except TemplateError Text :=
  match item with
  | .text t =>
    p.promptWith contentClass previous ("\n\nContent to analyze:\n".toList ++ Text.truncate max t)
  | .image path _ =>
    p.promptWith contentClass previous ("\n\nAnalyze this screenshot: ".toList ++ path.display)

end Persona
end ClipLedger
