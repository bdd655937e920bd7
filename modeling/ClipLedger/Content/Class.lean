import ClipLedger.Content.Item

/-
  The class of captured content. Texts are scored by weighted indicators: the number of times
  each occurs, occurrences not overlapping, times its weight. A score above the threshold decides,
  and code goes before structured data.
-/
namespace ClipLedger

/-- What sort of content an item holds. -/
inductive ContentClass where
  | code
  | structuredData
  | naturalText
  | image
  deriving DecidableEq, Repr

def ContentClass.name : ContentClass → Text
  | .code => "code".toList
  | .structuredData => "structured_data".toList
  | .naturalText => "natural_text".toList
  | .image => "image".toList

namespace Text

/-- How often `needle` occurs, each occurrence starting after the end of the one before it.
`skip` characters are passed over first. -/
def occurrencesAfter (needle : Text) : Nat → Text → Nat
  | _, [] => 0
  | skip + 1, _ :: rest => occurrencesAfter needle skip rest
  | 0, c :: rest =>
    if needle.isPrefixOf (c :: rest) then occurrencesAfter needle (needle.length - 1) rest + 1
    else occurrencesAfter needle 0 rest

/-- How often `needle` occurs in `t` without overlap, from the left. -/
def occurrences (needle t : Text) : Nat := occurrencesAfter needle 0 t

end Text

namespace ContentClass

/-- A text to look for, and the `weight` of each occurrence. -/
structure Indicator where
  needle : Text
  weight : Nat

/-- What suggests source code. -/
def codeIndicators : List Indicator :=
  [⟨"import ".toList, 5⟩, ⟨"def ".toList, 3⟩, ⟨"class ".toList, 3⟩, ⟨"return ".toList, 3⟩,
    ⟨"    ".toList, 2⟩, ⟨");".toList, 2⟩, ⟨[ '\x7d', ';' ], 2⟩]

/-- What suggests structured data. -/
def structuredIndicators : List Indicator :=
  [⟨[ '\x7b' ], 1⟩, ⟨[ '\x7d' ], 1⟩, ⟨['['], 1⟩, ⟨[']'], 1⟩, ⟨"\"key\"".toList, 2⟩,
    ⟨"\"value\"".toList, 2⟩]

/-- The sum over `indicators` of the `occurrences` in `t` times the weight. -/
def score (indicators : List Indicator) (t : Text) : Nat :=
  indicators.foldr (fun i total => Text.occurrences i.needle t * i.weight + total) 0

def codeScore (t : Text) : Nat := score codeIndicators t

def structuredScore (t : Text) : Nat := score structuredIndicators t

/-- A score above this decides the class. -/
def threshold : Nat := 10

/-- The class of `t`: `code` by `codeScore`, else `structuredData` by `structuredScore`, else
`natural`. -/
def ofText (t : Text) : ContentClass :=
  if threshold < codeScore t then .code
  else if threshold < structuredScore t then .structuredData
  else .naturalText

/-- The class of an item. An image is not scored. -/
def ofItem : Item → ContentClass
  | .text t => ofText t
  | .image .. => .image

end ContentClass
end ClipLedger
