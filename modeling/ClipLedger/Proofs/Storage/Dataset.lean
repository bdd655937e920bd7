import ClipLedger.Proofs.Files.Writable
import ClipLedger.Proofs.Json.Number
import ClipLedger.Proofs.Json.RoundTrip
import ClipLedger.Proofs.Text.ByteLines
import ClipLedger.Proofs.Text.Utf8
import ClipLedger.Storage.Dataset
import ClipLedger.Template
import Mathlib.Data.List.Forall2

/-
  The format of the dataset. Whatever is stored in whatever order, a file that was framed stays
  so, every call that succeeds adds one line to it, and reading that line as JSON gives back what
  was stored; a call that fails spares the file (`appendAll_lines`). This is so as long as a write
  is all or nothing. A write that an error ends part-way leaves the beginning of its line
  (`append_kept`), and a device may take a line and keep none of it (`append_discards_or_tears`).
-/
namespace ClipLedger

/-- The value at the end of the path `keys`. -/
def Json.at? (v : Json) (keys : List String) : Option Json :=
  Template.lookup (keys.map String.toList) v

namespace Dataset

/-! ## What a line says -/

/-- `content` is what is stored of an item. -/
def Written (content : Text) : Item → Prop
  | .text t => content = t
  | .image path _ => Path.ofText content = path

/-- The field is named by the persona of `a` and holds what `a` says. -/
structure Tells (a : Answer Float) (field : Text × Json) : Prop where
  persona : field.1 = a.persona
  response : field.2.at? ["response"] = some (.text a.response)
  previous : field.2.at? ["context", "previous_thoughts"] = some (.text a.previous)
  role : field.2.at? ["context", "role"] = some (.text a.role)
  contentClass : field.2.at? ["context", "content_type"] = some (.text a.contentClass.name)

/-- `v` holds the item and its record: a field for each answer, in the order of the record. -/
structure Holds (item : Item) (r : Record Float) (v : Json) : Prop where
  kind : v.at? ["content", "type"] = some (.text item.kind.name)
  content : ∃ content, v.at? ["content", "content"] = some (.text content) ∧
    Written content item ∧
    v.at? ["analysis_metadata", "content_length"] = some (.ofNat content.length)
  hash : v.at? ["content", "hash"] = some (.text item.fingerprint.hex)
  answers : ∃ fields, v.at? ["ai_response"] = some (.object fields) ∧ List.Forall₂ Tells r fields
  agentCount : v.at? ["analysis_metadata", "agent_count"] = some (.ofNat r.length)
  contentType : v.at? ["analysis_metadata", "content_type"] = v.at? ["content", "type"]

/-- `line` has no line feed, and reads as a value that `Holds` the item and its record. -/
structure LineOf (item : Item) (r : Record Float) (line : Bytes) : Prop where
  whole : Bytes.lineFeed ∉ line
  reads : ∃ text v, Utf8.decode? line = some text ∧ Json.read? text = some v ∧ Holds item r v

theorem written_of_writtenContent? {item : Item} {content : Text}
    (h : item.writtenContent? = some content) :
    Written content item ∧ item.length = content.length := by
  cases item with
  | text t =>
    cases h
    exact ⟨rfl, rfl⟩
  | image path digest =>
    refine ⟨?_, ?_⟩
    · show Path.ofText content = path
      rw [Path.ofText, (Utf8.decode?_eq_some_iff _ _).1 h]
    · show (Utf8.decodeLossy path.bytes).length = content.length
      rw [Utf8.decodeLossy_of_decode? h]

theorem tells_toJson (a : Answer Float) : Tells a (a.persona, a.toJson) :=
  ⟨rfl, rfl, rfl, rfl, rfl⟩

theorem holds_of_object? {m : ModelInfo} {stamp : Stamp} {item : Item} {r : Record Float}
    {v : Json} (h : object? m stamp item r = some v) : Holds item r v := by
  unfold object? Item.toJson? at h
  cases hc : item.writtenContent? with
  | none =>
    rw [hc] at h
    cases h
  | some content =>
    obtain ⟨hw, hl⟩ := written_of_writtenContent? hc
    rw [hc] at h
    cases h
    refine ⟨rfl, ⟨content, rfl, hw, ?_⟩, rfl, ⟨_, rfl, ?_⟩, rfl, rfl⟩
    · rw [← hl]
      rfl
    · rw [List.forall₂_map_right_iff, List.forall₂_same]
      exact fun a _ => tells_toJson a

/-! ## Numbers in what is stored -/

theorem numbersAll_ofNat (n : Nat) : (Json.ofNat n).numbersAll Json.isNumber = true :=
  Json.isNumber_ofNat n

theorem numbersAll_toJson (a : Answer Float) : a.toJson.numbersAll Json.isNumber = true := by
  have h := Json.numbersAll_ofFloat a.novelty
  simp [Answer.toJson, Json.record, Json.numbersAll, Json.numbersAllFields, h]

theorem numbersAll_record (r : Record Float) : r.toJson.numbersAll Json.isNumber = true := by
  unfold Record.toJson Json.numbersAll
  induction r with
  | nil => rfl
  | cons a r ih =>
    rw [List.map_cons, Json.numbersAllFields, numbersAll_toJson, ih]
    rfl

theorem numbersAll_sampling (s : Sampling) : s.toJson.numbersAll Json.isNumber = true := by
  simp [Sampling.toJson, Json.record, Json.numbersAll, Json.numbersAllFields,
    Json.numbersAll_ofFloat, numbersAll_ofNat]

theorem numbersAll_object? {m : ModelInfo} {stamp : Stamp} {item : Item} {r : Record Float}
    {v : Json} (h : object? m stamp item r = some v) : v.numbersAll Json.isNumber = true := by
  unfold object? Item.toJson? at h
  cases hc : item.writtenContent? with
  | none =>
    rw [hc] at h
    cases h
  | some content =>
    rw [hc] at h
    cases h
    simp [ModelInfo.toJson, Json.record, Json.numbersAll, Json.numbersAllFields,
      numbersAll_record, numbersAll_sampling, numbersAll_ofNat]

/-! ## One call -/

theorem lineOf_line? {m : ModelInfo} {stamp : Stamp} {item : Item} {r : Record Float}
    {line : Text} (h : line? m stamp item r = some line) : LineOf item r (Utf8.encode line) := by
  unfold line? at h
  cases hv : object? m stamp item r with
  | none =>
    rw [hv] at h
    cases h
  | some v =>
    rw [hv] at h
    cases h
    have hn := numbersAll_object? hv
    refine ⟨fun hm => ?_, ⟨v.compact, v, ?_, Json.read?_compact v hn, holds_of_object? hv⟩⟩
    · exact Json.newline_not_mem_compact v hn (Utf8.mem_encode_ascii (by decide) hm)
    · exact (Utf8.decode?_eq_some_iff _ _).2 rfl

/-- `append` fails before it writes, or it adds what `w` keeps of a line that is a `LineOf` what it
was given, and answers what `w` says. -/
theorem append_kept (t : FileTree) (p : Path) (m : ModelInfo) (stamp : Stamp) (item : Item)
    (r : Record Float) (w : Writing) :
    let (result, t') := append t p m stamp item r w
    (∃ e, result = .error e) ∧ t' = t ∨
    ∃ line, LineOf item r line ∧ result = w.result.mapError .file ∧ FileTree.SameLinks t t' ∧
      t'.contentOf p = t.contentOf p ++ w.kept (line ++ [Bytes.lineFeed]) := by
  unfold append
  cases hl : line? m stamp item r with
  | none => exact .inl ⟨⟨_, rfl⟩, rfl⟩
  | some line =>
    have hend : Utf8.encode (line ++ ['\n']) = Utf8.encode line ++ [Bytes.lineFeed] :=
      Utf8.encode_append line ['\n']
    dsimp only
    unfold appendLine
    rw [hend]
    have happend := FileTree.contentOf_append t p (Utf8.encode line ++ [Bytes.lineFeed]) w
    generalize t.append p _ w = out at happend ⊢
    obtain ⟨result, t'⟩ := out
    rcases happend with ⟨e, he⟩ | ⟨hresult, hlinks, hcontent⟩
    · cases he
      exact .inl ⟨⟨_, rfl⟩, rfl⟩
    · refine .inr ⟨_, lineOf_line? hl, ?_⟩
      obtain rfl : result = w.result := hresult
      cases w.result with
      | error e => exact ⟨rfl, hlinks, hcontent⟩
      | ok _ => exact ⟨rfl, hlinks, hcontent⟩

/-- `append_kept` for a write that is whole: nothing is done, or one line is added. -/
theorem append_spec (t : FileTree) (p : Path) (m : ModelInfo) (stamp : Stamp) (item : Item)
    (r : Record Float) :
    (∃ e, append t p m stamp item r = (.error e, t)) ∨
    ∃ t' line, append t p m stamp item r = (.ok (), t') ∧ LineOf item r line ∧
      FileTree.SameLinks t t' ∧
      t'.contentOf p = t.contentOf p ++ (line ++ [Bytes.lineFeed]) := by
  have hkept := append_kept t p m stamp item r .whole
  generalize append t p m stamp item r = out at hkept ⊢
  obtain ⟨result, t'⟩ := out
  rcases hkept with ⟨⟨e, rfl⟩, rfl⟩ | ⟨line, hline, rfl, hlinks, hcontent⟩
  · exact .inl ⟨e, rfl⟩
  · exact .inr ⟨t', line, rfl, hline, hlinks, hcontent⟩

theorem append_puts (t : FileTree) (p : Path) (m : ModelInfo) (stamp : Stamp) (item : Item)
    (r : Record Float) (w : Writing) : FileTree.Puts t p (append t p m stamp item r w).2 := by
  unfold append
  cases line? m stamp item r with
  | none => exact .nothing
  | some line =>
    have hputs := t.append_puts p (Utf8.encode (line ++ ['\n'])) w
    dsimp only
    unfold appendLine
    split
    · next h => exact snd_of_eq h hputs
    · next h => exact snd_of_eq h hputs

theorem append_eq_ok {t : FileTree} {p : Path} (h : t.Writable p) {m : ModelInfo}
    {stamp : Stamp} {item : Item} {r : Record Float} {line : Text}
    (hline : line? m stamp item r = some line) : (append t p m stamp item r).1 = .ok () := by
  have hok := FileTree.append_eq_ok h (Utf8.encode (line ++ ['\n']))
  unfold append appendLine
  rw [hline]
  dsimp only
  split
  · next hfails =>
    rw [hfails] at hok
    cases hok
  · rfl

/-- What `t` may be after a call that adds nothing: the file at `p` holds what it held, and the tree
is the same, unless the file was not there, and was made. -/
structure Spares (p : Path) (t t' : FileTree) : Prop where
  content : t'.contentOf p = t.contentOf p
  tree : t' = t ∨ ∃ loc, t.aim p = some loc ∧ t.node? loc = none ∧
    t' = t.put loc (.file [] t.clock)

/-- A write that adds no byte spares the file. -/
theorem append_spares (t : FileTree) (p : Path) (m : ModelInfo) (stamp : Stamp) (item : Item)
    (r : Record Float) {w : Writing} (hw : ∀ bytes, w.added? bytes = none) :
    Spares p t (append t p m stamp item r w).2 := by
  have hfile : ∀ bytes, Spares p t (t.append p bytes w).2 := by
    intro bytes
    have hcontent : (t.append p bytes w).2.contentOf p = t.contentOf p := by
      rcases FileTree.contentOf_append t p bytes w with ⟨e, he⟩ | ⟨-, -, hadded⟩
      · rw [he]
      · rw [hadded, Writing.kept, hw, Option.getD_none, List.append_nil]
    refine ⟨hcontent, ?_⟩
    rcases FileTree.append_cases t p bytes w with ⟨e, -, he⟩ | ⟨loc, content, h, -, hcases⟩
    · rw [he]
      exact .inl rfl
    · rcases hcases with ⟨-, hsame⟩ | ⟨-, hnone, -, hmade⟩ | ⟨added, hadded, -⟩
      · exact .inl hsame
      · exact .inr ⟨loc, (FileTree.target_spec h).1, hnone, hmade⟩
      · rw [hw] at hadded
        cases hadded
  unfold append
  cases line? m stamp item r with
  | none => exact ⟨rfl, .inl rfl⟩
  | some line =>
    dsimp only
    have hline := hfile (Utf8.encode (line ++ ['\n']))
    unfold appendLine
    generalize t.append p _ w = out at hline ⊢
    obtain ⟨result, t'⟩ := out
    cases result with
    | error e => exact hline
    | ok _ => exact hline

/-! ## Calls one after the other -/

/-- A call, with what happens to the files before it (`meanwhile`) and what the system makes of its
write (`writing`). -/
structure Call where
  meanwhile : FileTree → FileTree
  stamp : Stamp
  item : Item
  record : Record Float
  writing : Writing

/-- What came of a call: the tree before its write, the answer, and the tree after it. -/
structure Outcome where
  call : Call
  before : FileTree
  result : Except Failure Unit
  after : FileTree

def Outcome.succeeded (o : Outcome) : Bool :=
  match o.result with
  | .ok () => true
  | .error _ => false

/-- The call `c` on the tree `t`, after what `c.meanwhile` does to it. -/
def outcome (p : Path) (m : ModelInfo) (t : FileTree) (c : Call) : Outcome :=
  let before := c.meanwhile t
  let (result, after) := append before p m c.stamp c.item c.record c.writing
  ⟨c, before, result, after⟩

theorem outcome_call (p : Path) (m : ModelInfo) (t : FileTree) (c : Call) :
    (outcome p m t c).call = c := rfl

/-- The `outcome` of each call, and the files at the end. -/
def appendAll (p : Path) (m : ModelInfo) : FileTree → List Call → List Outcome × FileTree
  | t, [] => ([], t)
  | t, c :: cs =>
    let o := outcome p m t c
    let (os, t) := appendAll p m o.after cs
    (o :: os, t)

/-- The call of `o` added `line` to the file at `p`, and a line end. -/
structure Adds (p : Path) (o : Outcome) (line : Bytes) : Prop where
  tells : LineOf o.call.item o.call.record line
  content : o.after.contentOf p = o.before.contentOf p ++ (line ++ [Bytes.lineFeed])

/-- Where the write of a call is all or nothing, the call fails and spares the file, or it succeeds
and adds its line. -/
theorem outcome_spec (p : Path) (m : ModelInfo) (t : FileTree) {c : Call}
    (hc : c.writing.AllOrNothing) :
    let o := outcome p m t c
    (o.succeeded = false ∧ Spares p o.before o.after) ∨
      (o.succeeded = true ∧ ∃ line, Adds p o line) := by
  have hkept := append_kept (c.meanwhile t) p m c.stamp c.item c.record c.writing
  have hspares := append_spares (w := c.writing) (c.meanwhile t) p m c.stamp c.item c.record
  unfold outcome Outcome.succeeded
  dsimp only
  generalize append (c.meanwhile t) p m c.stamp c.item c.record c.writing = out
    at hkept hspares ⊢
  obtain ⟨result, t'⟩ := out
  rcases hkept with ⟨⟨e, rfl⟩, rfl⟩ | ⟨line, hline, rfl, -, hcontent⟩
  · exact .inl ⟨rfl, rfl, .inl rfl⟩
  · cases hw : c.writing.result with
    | error e => exact .inl ⟨rfl, hspares (hc.nothing e hw)⟩
    | ok _ =>
      rw [hc.all hw] at hcontent
      exact .inr ⟨rfl, line, hline, hcontent⟩

/-- What a sequence of calls does: the content of the file at `p` grows by the lines of the calls
that succeed. -/
theorem appendAll_spec (p : Path) (m : ModelInfo) (t : FileTree) (calls : List Call)
    (hmeanwhile : ∀ c ∈ calls, ∀ t, (c.meanwhile t).contentOf p = t.contentOf p)
    (hwriting : ∀ c ∈ calls, c.writing.AllOrNothing) :
    let (outcomes, t') := appendAll p m t calls
    outcomes.map Outcome.call = calls ∧
    (∀ o ∈ outcomes, o.succeeded = false → Spares p o.before o.after) ∧
    ∃ lines, List.Forall₂ (Adds p) (outcomes.filter Outcome.succeeded) lines ∧
      t'.contentOf p = t.contentOf p ++ Bytes.ofLines lines := by
  induction calls generalizing t with
  | nil =>
    refine ⟨rfl, fun o ho => absurd ho List.not_mem_nil, [], .nil, ?_⟩
    exact (List.append_nil _).symm
  | cons c cs ih =>
    rw [List.forall_mem_cons] at hmeanwhile hwriting
    obtain ⟨hcalls, hfail, lines, hlines, hcontent⟩ :=
      ih (outcome p m t c).after hmeanwhile.2 hwriting.2
    have hbefore : (outcome p m t c).before.contentOf p = t.contentOf p := hmeanwhile.1 t
    rw [appendAll]
    refine ⟨by rw [List.map_cons, hcalls]; rfl, ?_, ?_⟩
    · rcases outcome_spec p m t hwriting.1 with ⟨-, ho⟩ | ⟨hs, -⟩
      · exact List.forall_mem_cons.2 ⟨fun _ => ho, hfail⟩
      · exact List.forall_mem_cons.2 ⟨fun h => absurd (hs.symm.trans h) (by decide), hfail⟩
    · rcases outcome_spec p m t hwriting.1 with ⟨hs, ho⟩ | ⟨hs, line, hadds⟩
      · refine ⟨lines, ?_, ?_⟩
        · rwa [List.filter_cons_of_neg (by rw [hs]; decide)]
        · rw [hcontent, ho.content, hbefore]
      · refine ⟨line :: lines, ?_, ?_⟩
        · rw [List.filter_cons_of_pos hs]
          exact .cons hadds hlines
        · rw [hcontent, hadds.content, hbefore, Bytes.ofLines, Bytes.ofLines, List.flatMap_cons,
            List.append_assoc]

theorem whole_of_adds {p : Path} {os : List Outcome} {lines : List Bytes}
    (h : List.Forall₂ (Adds p) os lines) : ∀ line ∈ lines, Bytes.lineFeed ∉ line := by
  induction h with
  | nil => exact fun _ hl => absurd hl List.not_mem_nil
  | cons hadds _ ih => exact List.forall_mem_cons.2 ⟨hadds.tells.whole, ih⟩

/-- **Every call that succeeds adds one line, which can be read back, and a call that fails spares
the file.** Side conditions: the content at `p` is `Bytes.Framed` at the start, each write is
`AllOrNothing`, and what happens between the calls leaves the content at `p` as it is. -/
theorem appendAll_lines (p : Path) (m : ModelInfo) (t : FileTree) (calls : List Call)
    (hframed : Bytes.Framed (t.contentOf p))
    (hmeanwhile : ∀ c ∈ calls, ∀ t, (c.meanwhile t).contentOf p = t.contentOf p)
    (hwriting : ∀ c ∈ calls, c.writing.AllOrNothing) :
    let (outcomes, t') := appendAll p m t calls
    outcomes.map Outcome.call = calls ∧
    (∀ o ∈ outcomes, o.succeeded = false → Spares p o.before o.after) ∧
    ∃ lines, List.Forall₂ (Adds p) (outcomes.filter Outcome.succeeded) lines ∧
      t'.contentOf p = t.contentOf p ++ Bytes.ofLines lines ∧
      Bytes.lines (t'.contentOf p) = Bytes.lines (t.contentOf p) ++ lines := by
  obtain ⟨hcalls, hfail, lines, hlines, hcontent⟩ := appendAll_spec p m t calls hmeanwhile hwriting
  refine ⟨hcalls, hfail, lines, hlines, hcontent, ?_⟩
  rw [hcontent, Bytes.lines_append_ofLines hframed (whole_of_adds hlines)]

/-- A text that would break its line, an image whose path is no text, a disk that is full, and an
image whose path is a text. -/
theorem appendAll_lines_two_of_four :
    let p := Path.ofString "data.jsonl"
    let m : ModelInfo := ⟨"llama".toList, "tiny".toList, "test".toList, [],
      ⟨"top_p".toList, 0, 1, 40, 256, 1⟩⟩
    let answer : Answer Float := ⟨"curator".toList, "a: \"b\"".toList, 0, .code, [], []⟩
    let text : Call := ⟨id, ⟨[], []⟩, .text ['"', '\n', '\\', 'é'], [answer, answer], .whole⟩
    let odd : Call := ⟨fun t => (t.makeFolder (Path.ofString "assets")).2, ⟨[], []⟩,
      .image ⟨[0xFF]⟩ (.ofText []), [], .whole⟩
    let full : Call := ⟨id, ⟨[], []⟩, .text ['x'], [answer], .broken 0 .noSpace⟩
    let image : Call := ⟨id, ⟨[], []⟩, .image (Path.ofString "a.png") (.ofText []), [], .whole⟩
    let (outcomes, t') := appendAll p m (.empty 0) [text, odd, full, image]
    outcomes.map Outcome.succeeded = [true, false, false, true] ∧
    ∃ first second, LineOf text.item text.record first ∧ LineOf image.item image.record second ∧
      Bytes.lines (t'.contentOf p) = [first, second] := by
  intro p m answer text odd full image
  have hframed : Bytes.Framed ((FileTree.empty 0).contentOf p) := .inl (by decide +kernel)
  have hnew : Bytes.lines ((FileTree.empty 0).contentOf p) = [] := by decide +kernel
  have hmeanwhile : ∀ c ∈ [text, odd, full, image], ∀ t,
      (c.meanwhile t).contentOf p = t.contentOf p := by
    simp only [List.forall_mem_cons, List.not_mem_nil, false_implies, implies_true, and_true]
    exact ⟨fun _ => rfl, fun t => (FileTree.makeFolder_keeps t _ p).content, fun _ => rfl,
      fun _ => rfl⟩
  have hwriting : ∀ c ∈ [text, odd, full, image], c.writing.AllOrNothing := by
    simp only [List.forall_mem_cons, List.not_mem_nil, false_implies, implies_true, and_true]
    exact ⟨Writing.allOrNothing_iff.2 (.inl rfl), Writing.allOrNothing_iff.2 (.inl rfl),
      Writing.allOrNothing_iff.2 (.inr ⟨_, rfl⟩), Writing.allOrNothing_iff.2 (.inl rfl)⟩
  obtain ⟨-, -, lines, hlines, -, hall⟩ :=
    appendAll_lines p m (.empty 0) [text, odd, full, image] hframed hmeanwhile hwriting
  have hs : (appendAll p m (.empty 0) [text, odd, full, image]).1.map Outcome.succeeded =
      [true, false, false, true] := by decide +kernel
  refine ⟨hs, ?_⟩
  rw [hall, hnew, List.nil_append]
  obtain ⟨h₁, h₂, h₃, h₄⟩ := by simpa only [appendAll, List.map_cons, List.map_nil,
    List.cons.injEq, and_true] using hs
  rw [List.filter_cons_of_pos h₁, List.filter_cons_of_neg (by rw [h₂]; decide),
    List.filter_cons_of_neg (by rw [h₃]; decide), List.filter_cons_of_pos h₄,
    List.filter_nil] at hlines
  cases hlines with
  | cons hfirst hrest =>
    cases hrest with
    | cons hsecond hend =>
      cases hend
      -- Unfolding `outcome` at these files would perform the appends.
      have htext := hfirst.tells
      have himage := hsecond.tells
      rw [outcome_call] at htext himage
      exact ⟨_, _, htext, himage, rfl⟩

/-- **Not every call that succeeds adds a line, nor does every call that fails spare the file.** A
dataset that is a link to the null device loses the line, and is empty before and after; and where
the disk is full after five bytes, these stay in the file. -/
theorem append_discards_or_tears :
    let folder := [Utf8.encode "w".toList]
    let dataset := Path.ofString "data.jsonl"
    let m : ModelInfo := ⟨"llama".toList, "tiny".toList, "test".toList, [],
      ⟨"top_p".toList, 0, 1, 40, 256, 1⟩⟩
    let answer : Answer Float := ⟨"curator".toList, "key: value".toList, 1, .naturalText, [], []⟩
    let item := Item.text "first entry".toList
    let linked := ((FileTree.inside folder 0).withDevices.makeLink dataset
      (.ofString "/dev/null")).2
    let torn := append (.inside folder 0) dataset m ⟨[], []⟩ item [answer] (.broken 5 .noSpace)
    (append linked dataset m ⟨[], []⟩ item [answer] (linked.writingAt dataset)).1 = .ok () ∧
      linked.read dataset = .ok [] ∧
      (append linked dataset m ⟨[], []⟩ item [answer] (linked.writingAt dataset)).2.read dataset =
        .ok [] ∧
      torn.1 = .error (.file .noSpace) ∧
      (FileTree.inside folder 0).contentOf dataset = [] ∧
      torn.2.contentOf dataset = Utf8.encode ['{', '"', 'i', 'd', '"'] := by
  intro folder dataset m answer item linked torn
  refine ⟨?_, ?_, ?_, ?_, ?_, ?_⟩ <;> decide +kernel

end Dataset

/-- `EventLog.append` appends its line to the log, or a part of it, as `FileTree.append` does. -/
theorem EventLog.append_files (t : FileTree) (q : Path) (timestamp kind content : Text)
    (w : Writing) : (EventLog.append t q timestamp kind content w).2 =
      (t.append q (Utf8.encode (line timestamp kind content ++ ['\n'])) w).2 := by
  unfold append Dataset.appendLine
  split
  · next h => rw [h]
  · next h => rw [h]

theorem EventLog.append_puts (t : FileTree) (q : Path) (timestamp kind content : Text)
    (w : Writing) : FileTree.Puts t q (EventLog.append t q timestamp kind content w).2 := by
  rw [EventLog.append_files]
  exact t.append_puts q _ w

theorem EventLog.append_eq_ok {t : FileTree} {p : Path} (h : t.Writable p)
    (timestamp kind content : Text) : (EventLog.append t p timestamp kind content).1 = .ok () := by
  have hok := FileTree.append_eq_ok h (Utf8.encode (EventLog.line timestamp kind content ++ ['\n']))
  unfold EventLog.append Dataset.appendLine
  split
  · next hfails =>
    rw [hfails] at hok
    cases hok
  · rfl

end ClipLedger
