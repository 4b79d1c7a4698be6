import Mathlib.Data.List.Forall2
import StackBounds.Proofs.Json.Tokens

/-! Reading and writing values are inverse. The reader accepts exactly the tokens of values, with
steps to spare, and the text of a value has its tokens. The fields of a record are found under their
names.
-/

namespace StackBounds.Json

-----------------------------------------------------------------------------------------
-- The tokens of a value
-----------------------------------------------------------------------------------------

/-- The first token of a value does not end a collection. -/
theorem Value.exists_tokens_cons (value : Value)
    : ∃ first rest, value.tokens = first :: rest ∧ first ≠ .closeArray ∧ first ≠ .closeObject := by
  cases value with
  | null => simp [Value.tokens]
  | bool value => cases value <;> simp [Value.tokens]
  | number literal => simp [Value.tokens]
  | string parts => simp [Value.tokens]
  | array items => cases items <;> simp [Value.tokens]
  | object members => cases members <;> simp [Value.tokens]

theorem restTokens_head (items : List Value)
    : ∀ token ∈ (restTokens items).head?, token.isRun = false := by
  cases items <;> simp [restTokens, Token.isRun]

theorem memberTokens_head (members : List (List Part × Value))
    : ∀ token ∈ (memberTokens members).head?, token.isRun = false := by
  cases members <;> simp [memberTokens, Token.isRun]

/-- Two lists of tokens can be joined when the second one does not begin with a run. -/
theorem isChain_append_of_head {first second : List Token} (left : first.IsChain Token.Apart)
    (right : second.IsChain Token.Apart) (head : ∀ token ∈ second.head?, token.isRun = false)
    : (first ++ second).IsChain Token.Apart :=
  List.isChain_append.mpr ⟨left, right, fun _ _ other begins => Or.inr (head other begins)⟩

theorem isChain_cons_of_isRun {token : Token} {rest : List Token} (other : token.isRun = false)
    (chain : rest.IsChain Token.Apart)
    : (token :: rest).IsChain Token.Apart :=
  chain.cons fun _ _ => Or.inl other

mutual

/-- In a value no two runs stand next to each other; by induction on the value. -/
theorem Value.isChain_tokens (value : Value) : value.tokens.IsChain Token.Apart := by
  match value with
  | .null => simp [Value.tokens]
  | .bool value => simp [Value.tokens]
  | .number literal => simp [Value.tokens]
  | .string parts => simp [Value.tokens]
  | .array [] => simp [Value.tokens, Token.Apart, Token.isRun]
  | .object [] => simp [Value.tokens, Token.Apart, Token.isRun]
  | .array (item :: rest) =>
      rw [Value.tokens]
      apply isChain_cons_of_isRun rfl
      exact isChain_append_of_head item.isChain_tokens (isChain_restTokens rest)
        (restTokens_head rest)
  | .object ((key, value) :: rest) =>
      rw [Value.tokens]
      apply isChain_cons_of_isRun rfl
      apply isChain_cons_of_isRun rfl
      apply isChain_cons_of_isRun rfl
      exact isChain_append_of_head value.isChain_tokens (isChain_memberTokens rest)
        (memberTokens_head rest)

theorem isChain_restTokens (items : List Value) : (restTokens items).IsChain Token.Apart := by
  match items with
  | [] => simp [restTokens]
  | item :: rest =>
      rw [restTokens]
      apply isChain_cons_of_isRun rfl
      exact isChain_append_of_head item.isChain_tokens (isChain_restTokens rest)
        (restTokens_head rest)

theorem isChain_memberTokens (members : List (List Part × Value))
    : (memberTokens members).IsChain Token.Apart := by
  match members with
  | [] => simp [memberTokens]
  | (key, value) :: rest =>
      rw [memberTokens]
      apply isChain_cons_of_isRun rfl
      apply isChain_cons_of_isRun rfl
      apply isChain_cons_of_isRun rfl
      exact isChain_append_of_head value.isChain_tokens (isChain_memberTokens rest)
        (memberTokens_head rest)

end

-----------------------------------------------------------------------------------------
-- Reading tokens
-----------------------------------------------------------------------------------------

/-- An array that does not end at once is read item by item. -/
theorem readValue_openArray {fuel : Nat} {rest : List Token}
    (goesOn : rest.head? ≠ some .closeArray)
    : readValue (fuel + 1) (.openArray :: rest)
      = (readItems fuel rest).map fun found => (.array found.1, found.2) := by
  cases rest with
  | nil => simp [readValue]
  | cons token others => cases token <;> simp_all [readValue]

/-- An object that does not end at once is read member by member. -/
theorem readValue_openObject {fuel : Nat} {rest : List Token}
    (goesOn : rest.head? ≠ some .closeObject)
    : readValue (fuel + 1) (.openObject :: rest)
      = (readMembers fuel rest).map fun found => (.object found.1, found.2) := by
  cases rest with
  | nil => simp [readValue]
  | cons token others => cases token <;> simp_all [readValue]

theorem Value.tokens_length_pos (value : Value) : 0 < value.tokens.length := by
  obtain ⟨_, _, begins, _⟩ := value.exists_tokens_cons
  simp [begins]

mutual

/-- The tokens of a value are read back if there are twice as many steps; by induction on the steps,
since an item or a member takes one more than its value.
-/
theorem readValue_tokens (value : Value) {fuel : Nat} (enough : 2 * value.tokens.length ≤ fuel)
    (rest : List Token)
    : readValue fuel (value.tokens ++ rest) = some (value, rest) := by
  have positive := value.tokens_length_pos
  match fuel with
  | 0 => omega
  | fuel + 1 =>
      cases value with
      | null => simp [Value.tokens, readValue]
      | bool value => cases value <;> simp [Value.tokens, readValue]
      | number literal => simp [Value.tokens, readValue]
      | string parts => simp [Value.tokens, readValue]
      | array items =>
          cases items with
          | nil => simp [Value.tokens, readValue]
          | cons item items =>
              obtain ⟨first, others, begins, goesOn, _⟩ := item.exists_tokens_cons
              simp only [Value.tokens, List.cons_append, List.length_cons, List.length_append]
                at enough
              have read := readItems_tokens item items (show _ ≤ fuel by omega) rest
              simp only [Value.tokens, List.cons_append]
              rw [readValue_openArray (by simpa [begins] using goesOn), read, Option.map_some]
      | object members =>
          match members with
          | [] => simp [Value.tokens, readValue]
          | (key, value) :: members =>
              simp only [Value.tokens, List.cons_append, List.length_cons, List.length_append]
                at enough
              have read := readMembers_tokens key value members (show _ ≤ fuel by omega) rest
              simp only [Value.tokens, List.cons_append]
              rw [readValue_openObject (by simp), read, Option.map_some]
termination_by structural fuel

theorem readItems_tokens (item : Value) (items : List Value) {fuel : Nat}
    (enough : 2 * (item.tokens.length + (restTokens items).length) ≤ fuel) (rest : List Token)
    : readItems fuel (item.tokens ++ restTokens items ++ rest) = some (item :: items, rest) := by
  have positive := item.tokens_length_pos
  match fuel with
  | 0 => omega
  | fuel + 1 =>
      cases items with
      | nil =>
          simp only [restTokens, List.length_singleton] at enough
          have read := readValue_tokens item (show _ ≤ fuel by omega) (.closeArray :: rest)
          simp [restTokens, readItems, read]
      | cons next later =>
          simp only [restTokens, List.cons_append, List.length_cons, List.length_append] at enough
          have read := readValue_tokens item (show _ ≤ fuel by omega)
            (.comma :: (next.tokens ++ restTokens later ++ rest))
          have more := readItems_tokens next later (show _ ≤ fuel by omega) rest
          simp only [List.append_assoc] at read more
          simp [restTokens, readItems, read, more]
termination_by structural fuel

theorem readMembers_tokens (key : List Part) (value : Value) (members : List (List Part × Value))
    {fuel : Nat} (enough : 2 * (value.tokens.length + (memberTokens members).length) ≤ fuel)
    (rest : List Token)
    : readMembers fuel (.string key :: .colon :: (value.tokens ++ memberTokens members ++ rest))
      = some ((key, value) :: members, rest) := by
  have positive := value.tokens_length_pos
  match fuel with
  | 0 => omega
  | fuel + 1 =>
      cases members with
      | nil =>
          simp only [memberTokens, List.length_singleton] at enough
          have read := readValue_tokens value (show _ ≤ fuel by omega) (.closeObject :: rest)
          simp [memberTokens, readMembers, read]
      | cons member later =>
          obtain ⟨other, next⟩ := member
          simp only [memberTokens, List.cons_append, List.length_cons, List.length_append]
            at enough
          have read := readValue_tokens value (show _ ≤ fuel by omega)
            (.comma :: .string other :: .colon :: (next.tokens ++ memberTokens later ++ rest))
          have more := readMembers_tokens other next later (show _ ≤ fuel by omega) rest
          simp only [List.append_assoc] at read more
          simp [memberTokens, readMembers, read, more]
termination_by structural fuel

end

mutual

/-- What was read as a value are the tokens of that value; by induction on the steps. -/
theorem tokens_of_readValue {fuel : Nat} {input rest : List Token} {value : Value}
    (read : readValue fuel input = some (value, rest))
    : input = value.tokens ++ rest := by
  match fuel with
  | 0 => simp [readValue] at read
  | fuel + 1 =>
      unfold readValue at read
      split at read
      case h_7 =>
        obtain ⟨⟨items, rest⟩, readItems, ends⟩ := Option.map_eq_some_iff.mp read
        cases ends
        obtain ⟨item, later, rfl, rfl⟩ := tokens_of_readItems readItems
        simp [Value.tokens]
      case h_9 =>
        obtain ⟨⟨members, rest⟩, readMembers, ends⟩ := Option.map_eq_some_iff.mp read
        cases ends
        obtain ⟨key, value, later, rfl, rfl⟩ := tokens_of_readMembers readMembers
        simp [Value.tokens]
      all_goals simp only [Option.some.injEq, Prod.mk.injEq, reduceCtorEq] at read
      all_goals
        obtain ⟨rfl, rfl⟩ := read
        simp [Value.tokens]
termination_by structural fuel

theorem tokens_of_readItems {fuel : Nat} {input rest : List Token} {items : List Value}
    (read : readItems fuel input = some (items, rest))
    : ∃ item later, items = item :: later ∧ input = item.tokens ++ restTokens later ++ rest := by
  match fuel with
  | 0 => simp [readItems] at read
  | fuel + 1 =>
      obtain ⟨⟨item, others⟩, readItem, read⟩ := Option.bind_eq_some_iff.mp read
      have begins := tokens_of_readValue readItem
      dsimp only at read
      split at read
      · obtain ⟨⟨later, rest⟩, readLater, ends⟩ := Option.bind_eq_some_iff.mp read
        obtain ⟨next, last, rfl, rfl⟩ := tokens_of_readItems readLater
        cases ends
        exact ⟨item, next :: last, rfl, by simp [begins, restTokens]⟩
      · cases read
        exact ⟨item, [], rfl, by simp [begins, restTokens]⟩
      · cases read
termination_by structural fuel

theorem tokens_of_readMembers {fuel : Nat} {input rest : List Token}
    {members : List (List Part × Value)}
    (read : readMembers fuel input = some (members, rest))
    : ∃ key value later, members = (key, value) :: later
      ∧ input = .string key :: .colon :: (value.tokens ++ memberTokens later ++ rest) := by
  match fuel with
  | 0 => simp [readMembers] at read
  | fuel + 1 =>
      unfold readMembers at read
      split at read
      · obtain ⟨⟨value, others⟩, readValue, read⟩ := Option.bind_eq_some_iff.mp read
        have begins := tokens_of_readValue readValue
        dsimp only at read
        split at read
        · obtain ⟨⟨later, rest⟩, readLater, ends⟩ := Option.bind_eq_some_iff.mp read
          obtain ⟨other, next, last, rfl, rfl⟩ := tokens_of_readMembers readLater
          cases ends
          exact ⟨_, value, (other, next) :: last, rfl, by simp [begins, memberTokens]⟩
        · cases read
          exact ⟨_, value, [], rfl, by simp [begins, memberTokens]⟩
        · cases read
      · cases read
termination_by structural fuel

end

-----------------------------------------------------------------------------------------
-- Reading texts
-----------------------------------------------------------------------------------------

/-- A text is read as a value when its tokens are those of the value; the steps never run out. -/
theorem parse?_eq_some_iff {text : String} {value : Value}
    : parse? text = some value ↔ tokens text.toList = some value.tokens := by
  constructor
  · intro parsed
    obtain ⟨written, tokenized, parsed⟩ := Option.bind_eq_some_iff.mp parsed
    obtain ⟨⟨found, rest⟩, read, parsed⟩ := Option.bind_eq_some_iff.mp parsed
    cases rest with
    | nil =>
        obtain rfl : found = value := Option.some.inj parsed
        rw [tokenized, tokens_of_readValue read, List.append_nil]
    | cons => cases parsed
  · intro tokenized
    have read := readValue_tokens value (show _ ≤ 2 * value.tokens.length + 2 by omega) []
    simp only [List.append_nil] at read
    simp [parse?, tokenized, read]

/-- The text of a value is read as that value, if each of its tokens can be. -/
theorem parse?_render {value : Value} (writable : ∀ token ∈ value.tokens, token.IsWritable)
    : parse? value.render = some value := by
  rw [parse?_eq_some_iff, Value.render, String.toList_ofList]
  exact tokens_flatMap_chars writable value.isChain_tokens

-----------------------------------------------------------------------------------------
-- Compact values
-----------------------------------------------------------------------------------------

/-- A token that is read back and holds no blanks. -/
def Token.IsCompact (token : Token) : Prop :=
  token.IsWritable ∧ ∀ char ∈ token.chars, isBlank char = Bool.false

/-- All tokens of the value are compact. -/
def Value.IsCompact (value : Value) : Prop := ∀ token ∈ value.tokens, token.IsCompact

/-- A visible character is written as itself or as an escape without blanks. -/
theorem isBlank_of_mem_chars {plain char : Char} (visible : 0x20 < plain.toNat)
    (mem : char ∈ (Part.char plain).chars)
    : isBlank char = false := by
  unfold Part.chars at mem
  cases escape : escapeLetter? plain with
  | none =>
      obtain rfl : char = plain := by simpa [escape] using mem
      exact isBlank_of_lt visible
  | some letter =>
      simp only [escape, List.mem_cons, List.not_mem_nil, or_false] at mem
      unfold escapeLetter? at escape
      split at escape <;> cases escape <;> rcases mem with rfl | rfl <;> decide

/-- All characters of the name are visible. -/
def isVisible (name : String) : Bool := name.toList.all fun char => decide (0x20 < char.toNat)

/-- A name of visible characters is compact. -/
theorem isCompact_string_plain {name : String} (visible : isVisible name = true)
    : (Token.string (plain name)).IsCompact := by
  simp only [isVisible, List.all_eq_true, decide_eq_true_eq] at visible
  constructor
  · intro part mem
    obtain ⟨char, among, rfl⟩ := List.mem_map.mp mem
    exact Or.inr (visible char among).le
  · intro char mem
    simp only [Token.chars, plain, List.cons_append, List.mem_cons, List.mem_append,
      List.mem_flatMap, List.mem_map, List.not_mem_nil, or_false] at mem
    obtain rfl | ⟨_, ⟨source, mem, rfl⟩, among⟩ | rfl := mem
    · decide
    · exact isBlank_of_mem_chars (visible source mem) among
    · decide

namespace Value

theorem isCompact_ofNat (number : Nat) : (ofNat number).IsCompact := by
  have digits : ∀ char ∈ Nat.toDigits 10 number, isNumberChar char = true := by
    intro char mem
    have digit := List.all_eq_true.mp (all_isDigit_toDigits number) char mem
    simp [isNumberChar, digit]
  intro token mem
  obtain rfl : token = .number (Nat.toDigits 10 number) := by simpa [ofNat, tokens] using mem
  exact ⟨⟨isNumber_toDigits number, digits⟩,
    fun char mem => isBlank_of_isNumberChar (digits char mem)⟩

/-- The marks between values are compact. -/
theorem isCompact_mark {token : Token}
    (mark : token ∈ [.openArray, .closeArray, .openObject, .closeObject, .colon, Token.comma])
    : token.IsCompact := by
  simp only [List.mem_cons, List.not_mem_nil, or_false] at mark
  obtain rfl | rfl | rfl | rfl | rfl | rfl := mark <;>
    simp [Token.IsCompact, Token.IsWritable, Token.chars, isBlank]

theorem isCompact_restTokens {items : List Value} (compact : ∀ item ∈ items, item.IsCompact)
    : ∀ token ∈ restTokens items, token.IsCompact := by
  induction items with
  | nil => simp [restTokens, isCompact_mark]
  | cons item items later =>
      obtain ⟨first, others⟩ := List.forall_mem_cons.mp compact
      simp only [restTokens, List.cons_append, List.forall_mem_cons, List.forall_mem_append]
      exact ⟨isCompact_mark (by simp), first, later others⟩

theorem isCompact_array {items : List Value} (compact : ∀ item ∈ items, item.IsCompact)
    : (array items).IsCompact := by
  cases items with
  | nil => simp [IsCompact, tokens, isCompact_mark]
  | cons item items =>
      obtain ⟨first, others⟩ := List.forall_mem_cons.mp compact
      simp only [IsCompact, tokens, List.cons_append, List.forall_mem_cons, List.forall_mem_append]
      exact ⟨isCompact_mark (by simp), first, isCompact_restTokens others⟩

theorem isCompact_memberTokens {members : List (List Part × Value)}
    (compact : ∀ member ∈ members, (Token.string member.1).IsCompact ∧ member.2.IsCompact)
    : ∀ token ∈ memberTokens members, token.IsCompact := by
  induction members with
  | nil => simp [memberTokens, isCompact_mark]
  | cons member members later =>
      obtain ⟨⟨key, value⟩, others⟩ := List.forall_mem_cons.mp compact
      simp only [memberTokens, List.cons_append, List.forall_mem_cons, List.forall_mem_append]
      exact ⟨isCompact_mark (by simp), key, isCompact_mark (by simp), value, later others⟩

theorem isCompact_object {members : List (List Part × Value)}
    (compact : ∀ member ∈ members, (Token.string member.1).IsCompact ∧ member.2.IsCompact)
    : (object members).IsCompact := by
  cases members with
  | nil => simp [IsCompact, tokens, isCompact_mark]
  | cons member members =>
      obtain ⟨⟨key, value⟩, others⟩ := List.forall_mem_cons.mp compact
      simp only [IsCompact, tokens, List.cons_append, List.forall_mem_cons, List.forall_mem_append]
      exact ⟨isCompact_mark (by simp), key, isCompact_mark (by simp), value,
        isCompact_memberTokens others⟩

/-- A record of compact values is compact, if its names can be seen. -/
theorem isCompact_ofFields {fields : List (String × Value)}
    (visible : (fields.map Prod.fst).all isVisible = true)
    (compact : ∀ value ∈ fields.map Prod.snd, value.IsCompact)
    : (ofFields fields).IsCompact := by
  apply isCompact_object
  intro member mem
  obtain ⟨⟨name, value⟩, among, rfl⟩ := List.mem_map.mp mem
  exact ⟨isCompact_string_plain (List.all_eq_true.mp visible name (List.mem_map_of_mem among)),
    compact value (List.mem_map_of_mem among)⟩

/-- A compact value is read back from its text, which has no blanks. -/
theorem IsCompact.parse?_render {value : Value} (compact : value.IsCompact)
    : parse? value.render = some value ∧ ∀ char ∈ value.render.toList, isBlank char = false := by
  refine ⟨Json.parse?_render fun token mem => (compact token mem).1, ?_⟩
  intro char mem
  rw [render, String.toList_ofList] at mem
  obtain ⟨token, written, among⟩ := List.mem_flatMap.mp mem
  exact (compact token written).2 char among

end Value

-----------------------------------------------------------------------------------------
-- Fields
-----------------------------------------------------------------------------------------

theorem charsOf_map_char (chars : List Char) : charsOf (chars.map .char) = some chars := by
  induction chars with
  | nil => rfl
  | cons char rest read => simp [charsOf, read]

theorem text?_plain (text : String) : text? (plain text) = some text := by
  simp [text?, plain, charsOf_map_char]

/-- A list is read when each of its items is. -/
theorem mapM_eq_some_iff {α β : Type} {read : α → Option β} {inputs : List α} {answers : List β}
    : inputs.mapM read = some answers
      ↔ List.Forall₂ (fun input answer => read input = some answer) inputs answers := by
  induction inputs generalizing answers with
  | nil => simp [eq_comm]
  | cons input rest later =>
      simp only [List.mapM_cons, Option.bind_eq_bind, Option.bind_eq_some_iff, Option.pure_def,
        Option.some.injEq, later, List.forall₂_cons_left_iff]
      constructor
      · rintro ⟨answer, first, others, all, rfl⟩
        exact ⟨answer, others, first, all, rfl⟩
      · rintro ⟨answer, others, first, all, rfl⟩
        exact ⟨answer, first, others, all, rfl⟩

/-- If each item is read from what was written for it, so is the list. -/
theorem mapM_map {α β γ : Type} {items : List α} {write : α → β} {read : β → Option γ}
    {value : α → γ} (each : ∀ item ∈ items, read (write item) = some (value item))
    : (items.map write).mapM read = some (items.map value) := by
  rw [mapM_eq_some_iff, List.forall₂_map_left_iff, List.forall₂_map_right_iff, List.forall₂_same]
  exact each

namespace Value

theorem natBelow?_ofNat {number bound : Nat} (below : number < bound)
    : (ofNat number).natBelow? bound = some number := by
  simp [natBelow?, ofNat, natural?_toDigits, below]

/-- Only one of several fields with distinct names has a given one of the names. -/
theorem member?_fields {fields : List (String × Value)} (distinct : (fields.map Prod.fst).Nodup)
    {name : String} {value : Value} (mem : (name, value) ∈ fields)
    : member? (fields.map fun field => (plain field.1, field.2)) name = some value := by
  suffices only : fields.filter (fun field => field.1 == name) = [(name, value)] by
    simp [member?, List.filter_map, Function.comp_def, text?_plain, only]
  induction fields with
  | nil => cases mem
  | cons field fields later =>
      obtain ⟨fresh, distinct⟩ := List.nodup_cons.mp distinct
      obtain rfl | mem := List.mem_cons.mp mem
      · have others : fields.filter (fun field => field.1 == name) = [] := by
          rw [List.filter_eq_nil_iff]
          intro field among same
          exact fresh (List.mem_map.mpr ⟨field, among, beq_iff_eq.mp same⟩)
        simp [others]
      · have other : field.1 ≠ name := by
          intro same
          exact fresh (List.mem_map.mpr ⟨_, mem, same.symm⟩)
        simpa [other] using later distinct mem

/-- The fields of a record are found under their names. -/
theorem fields?_ofFields {fields : List (String × Value)} (distinct : (fields.map Prod.fst).Nodup)
    : (ofFields fields).fields? (fields.map Prod.fst) = some (fields.map Prod.snd) := by
  have readable : (fields.map fun field => (plain field.1, field.2)).all
      (fun member => (text? member.1).isSome) = true := by
    simp [text?_plain]
  rw [ofFields, fields?, if_pos readable]
  exact mapM_map fun field mem => member?_fields distinct mem

/-- The three fields of a record are found under their names. -/
theorem fields?_record {first second third : String} (distinct : [first, second, third].Nodup)
    (one two three : Value)
    : (ofFields [(first, one), (second, two), (third, three)]).fields? [first, second, third]
      = some [one, two, three] :=
  @fields?_ofFields [(first, one), (second, two), (third, three)] distinct

end Value

end StackBounds.Json
