import ClipLedger.Proofs.Json.Token

/-
  Reading JSON undoes writing it (`read?_compact`), for every value whose numbers are numbers. The
  written text has the tokens of the value, and the grammar machine goes over these to the value.
  Written on one line, no value has a line end in it (`newline_not_mem_compact`).
-/
namespace ClipLedger.Json

mutual

/-- The tokens of a value as `compact` writes it. -/
def toTokens : Json → List Token
  | .null => [.null]
  | .bool b => [.bool b]
  | .number digits => [.number digits]
  | .text t => [.text t]
  | .list items => .openList :: (itemTokens items ++ [.closeList])
  | .object fields => .openObject :: (fieldTokens fields ++ [.closeObject])

/-- The tokens of items with commas between them. -/
def itemTokens : List Json → List Token
  | [] => []
  | [v] => toTokens v
  | v :: rest => toTokens v ++ .comma :: itemTokens rest

/-- The tokens of fields with commas between them. -/
def fieldTokens : List (Text × Json) → List Token
  | [] => []
  | [(k, v)] => .text k :: .colon :: toTokens v
  | (k, v) :: rest => .text k :: .colon :: (toTokens v ++ .comma :: fieldTokens rest)

end

/-! ## From text to tokens -/

theorem ends_sign {c : Char} (h : (sign? c).isSome = true) (rest : Text) : Ends (c :: rest) := by
  have hc : c ∈ ['[', ']', '\x7b', '\x7d', ',', ':'] := by
    unfold sign? at h
    grind
  have hall : ∀ d ∈ ['[', ']', '\x7b', '\x7d', ',', ':'],
      isNumberChar d = false ∧ isWordChar d = false := by
    decide
  exact ends_cons (hall c hc).1 (hall c hc).2

theorem sign_comma : sign? ',' = some .comma := by decide

theorem sign_colon : sign? ':' = some .colon := by decide

mutual

theorem tokens_compact (v : Json) (hv : v.numbersAll isNumber = true) (rest : Text)
    (hr : Ends rest) :
    tokens (compact v ++ rest) = (tokens rest).map (toTokens v ++ ·) :=
  match v with
  | .null => tokens_word (by decide) (by decide) (by decide) hr
  | .bool true => tokens_word (by decide) (by decide) (by decide) hr
  | .bool false => tokens_word (by decide) (by decide) (by decide) hr
  | .number digits => tokens_number hv hr
  | .text t => tokens_quote t rest
  | .list items => by
    have hopen : sign? '[' = some .openList := by decide
    have hclose : sign? ']' = some .closeList := by decide
    simp only [compact, List.cons_append, List.append_assoc, List.nil_append]
    rw [tokens_sign hopen, tokens_compactItems items hv _ (ends_sign (by decide) _),
      tokens_sign hclose, toTokens]
    simp [Function.comp_def]
  | .object fields => by
    have hopen : sign? '\x7b' = some .openObject := by decide
    have hclose : sign? '\x7d' = some .closeObject := by decide
    simp only [compact, List.cons_append, List.append_assoc, List.nil_append]
    rw [tokens_sign hopen, tokens_compactFields fields hv _ (ends_sign (by decide) _),
      tokens_sign hclose, toTokens]
    simp [Function.comp_def]

theorem tokens_compactItems (items : List Json) (hv : numbersAllItems isNumber items = true)
    (rest : Text) (hr : Ends rest) :
    tokens (compactItems items ++ rest) = (tokens rest).map (itemTokens items ++ ·) :=
  match items with
  | [] => by simp [compactItems, itemTokens]
  | [v] => by
    rw [numbersAllItems, Bool.and_eq_true] at hv
    exact tokens_compact v hv.1 rest hr
  | v :: w :: more => by
    rw [numbersAllItems, Bool.and_eq_true] at hv
    simp only [compactItems, itemTokens, List.cons_append, List.append_assoc]
    rw [tokens_compact v hv.1 _ (ends_sign (by decide) _), tokens_sign sign_comma,
      tokens_compactItems (w :: more) hv.2 rest hr]
    simp [Function.comp_def]

theorem tokens_compactFields (fields : List (Text × Json))
    (hv : numbersAllFields isNumber fields = true) (rest : Text) (hr : Ends rest) :
    tokens (compactFields fields ++ rest) = (tokens rest).map (fieldTokens fields ++ ·) :=
  match fields with
  | [] => by simp [compactFields, fieldTokens]
  | [(k, v)] => by
    rw [numbersAllFields, Bool.and_eq_true] at hv
    simp only [compactFields, fieldTokens, List.cons_append, List.append_assoc]
    rw [tokens_quote, tokens_sign sign_colon, tokens_compact v hv.1 rest hr]
    simp [Function.comp_def]
  | (k, v) :: w :: more => by
    rw [numbersAllFields, Bool.and_eq_true] at hv
    simp only [compactFields, fieldTokens, List.cons_append, List.append_assoc]
    rw [tokens_quote, tokens_sign sign_colon, tokens_compact v hv.1 _ (ends_sign (by decide) _),
      tokens_sign sign_comma, tokens_compactFields (w :: more) hv.2 rest hr]
    simp [Function.comp_def]

end

/-! ## From tokens to the value -/

/-- The first item of a list is read as any other value. -/
theorem run_firstItem (frames : List Frame) {token : Token} (h : token ≠ .closeList)
    (ts : List Token) :
    State.run ⟨.list [] :: frames, .firstItem⟩ (token :: ts) =
      State.run ⟨.list [] :: frames, .value⟩ (token :: ts) := by
  have hstep : State.step ⟨.list [] :: frames, .firstItem⟩ token =
      State.step ⟨.list [] :: frames, .value⟩ token := by
    cases token with
    | closeList => exact absurd rfl h
    | _ => rfl
  rw [State.run, State.run, hstep]

theorem toTokens_cons (v : Json) : ∃ token ts, toTokens v = token :: ts ∧ token ≠ .closeList := by
  cases v <;> exact ⟨_, _, rfl, by simp⟩

theorem run_firstItems (frames : List Frame) (v : Json) (rest : List Json) (ts : List Token) :
    State.run ⟨.list [] :: frames, .firstItem⟩ (itemTokens (v :: rest) ++ ts) =
      State.run ⟨.list [] :: frames, .value⟩ (itemTokens (v :: rest) ++ ts) := by
  obtain ⟨token, ts', hv, hne⟩ := toTokens_cons v
  cases rest with
  | nil =>
    rw [itemTokens, hv, List.cons_append, run_firstItem frames hne]
  | cons w more =>
    simp only [itemTokens, hv, List.cons_append]
    rw [run_firstItem frames hne]

mutual

theorem run_toTokens (v : Json) (frames : List Frame) (ts : List Token) :
    State.run ⟨frames, .value⟩ (toTokens v ++ ts) = State.run ⟨frames, .after v⟩ ts :=
  match v with
  | .null => rfl
  | .bool _ => rfl
  | .number _ => rfl
  | .text _ => rfl
  | .list [] => rfl
  | .list (v :: rest) => by
    simp only [toTokens, List.cons_append, List.append_assoc, List.nil_append]
    change State.run ⟨.list [] :: frames, .firstItem⟩ _ = _
    rw [run_firstItems, run_itemTokens (v :: rest) (List.cons_ne_nil v rest)]
    rfl
  | .object [] => rfl
  | .object ((k, v) :: rest) => by
    simp only [toTokens, List.cons_append, List.append_assoc, List.nil_append]
    change State.run ⟨frames, .firstKey⟩ _ = _
    have h := run_fieldTokens ((k, v) :: rest) (List.cons_ne_nil _ rest) frames [] ts
    cases rest <;> exact h

/-- Items that are read are added to those of the list that they stand in. -/
theorem run_itemTokens (items : List Json) (hne : items ≠ []) (frames : List Frame)
    (done : List Json) (ts : List Token) :
    State.run ⟨.list done :: frames, .value⟩ (itemTokens items ++ .closeList :: ts) =
      State.run ⟨frames, .after (.list (done.reverse ++ items))⟩ ts :=
  match items with
  | [] => absurd rfl hne
  | [v] => by
    rw [itemTokens, run_toTokens v]
    change State.run ⟨frames, .after (.list (v :: done).reverse)⟩ ts = _
    rw [List.reverse_cons]
  | v :: w :: more => by
    simp only [itemTokens, List.append_assoc, List.cons_append]
    rw [run_toTokens v]
    change State.run ⟨.list (v :: done) :: frames, .value⟩ _ = _
    rw [run_itemTokens (w :: more) (List.cons_ne_nil w more), List.reverse_cons,
      List.append_assoc, List.singleton_append]

/-- Fields that are read are added to those of the object that they stand in. -/
theorem run_fieldTokens (fields : List (Text × Json)) (hne : fields ≠ []) (frames : List Frame)
    (done : List (Text × Json)) (ts : List Token) :
    State.run ⟨frames, .key done⟩ (fieldTokens fields ++ .closeObject :: ts) =
      State.run ⟨frames, .after (.object (done.reverse ++ fields))⟩ ts :=
  match fields with
  | [] => absurd rfl hne
  | [(k, v)] => by
    simp only [fieldTokens, List.cons_append]
    change State.run ⟨.object done k :: frames, .value⟩ _ = _
    rw [run_toTokens v]
    change State.run ⟨frames, .after (.object ((k, v) :: done).reverse)⟩ ts = _
    rw [List.reverse_cons]
  | (k, v) :: w :: more => by
    simp only [fieldTokens, List.append_assoc, List.cons_append]
    change State.run ⟨.object done k :: frames, .value⟩ _ = _
    rw [run_toTokens v]
    change State.run ⟨frames, .key ((k, v) :: done)⟩ _ = _
    rw [run_fieldTokens (w :: more) (List.cons_ne_nil w more), List.reverse_cons,
      List.append_assoc, List.singleton_append]

end

theorem ofTokens?_toTokens (v : Json) : ofTokens? (toTokens v) = some v := by
  have h := run_toTokens v [] []
  rw [List.append_nil] at h
  rw [ofTokens?, h]
  rfl

/-- **`read?` gives back what `compact` wrote**, if the numbers of `v` are numbers. -/
theorem read?_compact (v : Json) (hv : v.numbersAll isNumber = true) :
    read? (compact v) = some v := by
  have h := tokens_compact v hv [] ends_nil
  rw [List.append_nil] at h
  rw [read?, h, tokens]
  simp [ofTokens?_toTokens]

/-! ## Line ends -/

/-- A line feed is escaped, so no written character contains one. -/
theorem newline_not_mem_escapeChar (c : Char) : '\n' ∉ escapeChar c := by
  have hdigit : ∀ n < 16, Hex.digit n ≠ '\n' := by decide
  unfold escapeChar
  split; · decide
  split; · decide
  split; · decide
  split; · decide
  split; · decide
  split; · decide
  split; · decide
  split
  · next h =>
    have h1 := hdigit (c.toNat / 16) (by omega)
    have h2 := hdigit (c.toNat % 16) (by omega)
    simp [h1.symm, h2.symm]
  · next h _ _ _ _ _ => exact fun hm => h (List.mem_singleton.1 hm).symm

theorem newline_not_mem_quote (t : Text) : '\n' ∉ quote t := by
  intro h
  rcases List.mem_append.1 h with h | h
  · rcases List.mem_cons.1 h with h | h
    · exact absurd h (by decide)
    · obtain ⟨c, -, hc⟩ := List.mem_flatMap.1 h
      exact newline_not_mem_escapeChar c hc
  · exact absurd (List.mem_singleton.1 h) (by decide)

mutual

/-- What `compact` writes is on one line. -/
theorem newline_not_mem_compact (v : Json) (hv : v.numbersAll isNumber = true) :
    '\n' ∉ compact v :=
  match v with
  | .null => by decide
  | .bool true => by decide
  | .bool false => by decide
  | .number digits => fun h => absurd (chars_of_isNumber hv '\n' h) (by decide)
  | .text t => newline_not_mem_quote t
  | .list items => by
    have h := newline_not_mem_compactItems items hv
    simp [compact, h]
  | .object fields => by
    have h := newline_not_mem_compactFields fields hv
    simp [compact, h]

theorem newline_not_mem_compactItems (items : List Json)
    (hv : numbersAllItems isNumber items = true) : '\n' ∉ compactItems items :=
  match items with
  | [] => List.not_mem_nil
  | [v] => by
    rw [numbersAllItems, Bool.and_eq_true] at hv
    exact newline_not_mem_compact v hv.1
  | v :: w :: rest => by
    rw [numbersAllItems, Bool.and_eq_true] at hv
    have h1 := newline_not_mem_compact v hv.1
    have h2 := newline_not_mem_compactItems (w :: rest) hv.2
    simp [compactItems, h1, h2]

theorem newline_not_mem_compactFields (fields : List (Text × Json))
    (hv : numbersAllFields isNumber fields = true) : '\n' ∉ compactFields fields :=
  match fields with
  | [] => List.not_mem_nil
  | [(k, v)] => by
    rw [numbersAllFields, Bool.and_eq_true] at hv
    have h1 := newline_not_mem_quote k
    have h2 := newline_not_mem_compact v hv.1
    simp [compactFields, h1, h2]
  | (k, v) :: w :: rest => by
    rw [numbersAllFields, Bool.and_eq_true] at hv
    have h1 := newline_not_mem_quote k
    have h2 := newline_not_mem_compact v hv.1
    have h3 := newline_not_mem_compactFields (w :: rest) hv.2
    simp [compactFields, h1, h2, h3]

end
end ClipLedger.Json
