import Mathlib.Data.List.Chain
import Mathlib.Data.List.TakeWhile
import StackBounds.Json.Value

/-! Written tokens are read back. Each token is read from the front of a text, and a run of digits
or letters ends where a token of another kind begins, so the tokens of a text are those it was
written from.
-/

namespace StackBounds.Json

-----------------------------------------------------------------------------------------
-- Strings
-----------------------------------------------------------------------------------------

/-- A part of a string that can be written: a control character needs an escape, and a code unit has
four digits.
-/
def Part.IsWritable : Part → Prop
  | .char plain => escapeLetter? plain ≠ none ∨ 0x20 ≤ plain.toNat
  | .unit code => code < 0x10000

theorem hexDigit?_digitChar (number : Nat)
    : hexDigit? (Nat.digitChar (number % 0x10)) = some (number % 0x10) := by
  have all : ∀ digit < 0x10, hexDigit? (Nat.digitChar digit) = some digit := by decide
  exact all _ (Nat.mod_lt _ (by decide))

/-- The letter after a backslash stands for the character, and is not the sign of a code unit. -/
theorem escaped?_of_escapeLetter? {plain letter : Char} (found : escapeLetter? plain = some letter)
    : escaped? letter = some plain ∧ letter ≠ 'u' := by
  unfold escapeLetter? at found
  split at found <;> cases found <;> decide

theorem ne_of_escapeLetter?_eq_none {plain : Char} (none : escapeLetter? plain = none)
    : plain ≠ '"' ∧ plain ≠ '\\' := by
  refine ⟨?_, ?_⟩ <;> rintro rfl <;> cases none

/-- A part is read back from the front of the parts. -/
theorem readParts_part {part : Part} (writable : part.IsWritable) (rest : List Char)
    : readParts (part.chars ++ rest)
      = (readParts rest).map fun found => (part :: found.1, found.2) := by
  cases part with
  | unit code =>
      have digits : code / 0x1000 % 0x10 * 0x10 + code / 0x100 % 0x10 = code / 0x100 := by
        simp only [Part.IsWritable] at writable
        omega
      have whole : (code / 0x100 * 0x10 + code / 0x10 % 0x10) * 0x10 + code % 0x10 = code := by
        omega
      have unit : codeUnit? (Nat.digitChar (code / 0x1000 % 0x10))
          (Nat.digitChar (code / 0x100 % 0x10)) (Nat.digitChar (code / 0x10 % 0x10))
          (Nat.digitChar (code % 0x10)) = some code := by
        simp [codeUnit?, hexDigit?_digitChar, digits, whole]
      cases later : readParts rest <;>
        simp [Part.chars, codeUnitChars, readParts, unit, later]
  | char plain =>
      cases letter : escapeLetter? plain with
      | some letter =>
          obtain ⟨escaped, notUnit⟩ := escaped?_of_escapeLetter? letter
          cases later : readParts rest <;> simp_all [Part.chars, readParts]
      | none =>
          obtain ⟨notQuote, notEscape⟩ := ne_of_escapeLetter?_eq_none letter
          have visible : ¬ plain.toNat < 0x20 := by
            simpa [Part.IsWritable, letter] using writable
          cases later : readParts rest <;>
            simp_all [Part.chars, readParts]

/-- A string is read back up to its closing quote; by induction on its parts. -/
theorem readParts_flatMap_chars {parts : List Part} (writable : ∀ part ∈ parts, part.IsWritable)
    (rest : List Char)
    : readParts (parts.flatMap Part.chars ++ '"' :: rest) = some (parts, rest) := by
  induction parts with
  | nil => simp [readParts]
  | cons part later ih =>
      rw [List.flatMap_cons, List.append_assoc,
        readParts_part (writable part List.mem_cons_self),
        ih fun other member => writable other (List.mem_cons_of_mem _ member)]
      rfl

-----------------------------------------------------------------------------------------
-- Numbers
-----------------------------------------------------------------------------------------

/-- The digits of a positive number do not begin with zero; by induction on the number. -/
theorem head?_toDigits_ne_zero {number : Nat} (positive : 0 < number)
    : (Nat.toDigits 10 number).head? ≠ some '0' := by
  induction number using Nat.strongRecOn with
  | ind number ih =>
      rw [Nat.toDigits_eq_if (by decide)]
      split
      · simp only [List.head?_cons, ne_eq, Option.some.injEq, Nat.digitChar_eq_zero]
        omega
      · have shorter := ih (number / 10) (by omega) (by omega)
        cases begins : Nat.toDigits 10 (number / 10) with
        | nil => exact absurd begins Nat.toDigits_ne_nil
        | cons digit rest => simpa [begins] using shorter

theorem all_isDigit_toDigits (number : Nat) : (Nat.toDigits 10 number).all Char.isDigit = true := by
  simp only [List.all_eq_true]
  intro char member
  exact Nat.isDigit_of_mem_toDigits (by decide) (by decide) member

theorem isNatural_toDigits (number : Nat) : isNatural (Nat.toDigits 10 number) = true := by
  rcases Nat.eq_zero_or_pos number with rfl | positive
  · rfl
  · have begins := head?_toDigits_ne_zero positive
    have digits := all_isDigit_toDigits number
    unfold isNatural
    split
    · exact absurd ‹_› Nat.toDigits_ne_nil
    · rfl
    · simp_all
    · exact digits

theorem naturalOf_toDigits (number : Nat) : naturalOf (Nat.toDigits 10 number) = number := by
  have same : (fun value (char : Char) => value * 10 + (char.toNat - '0'.toNat))
      = fun value char => 10 * value + (char.toNat - '0'.toNat) := by
    funext value char
    rw [Nat.mul_comm]
  rw [naturalOf, same, ← Nat.ofDigitChars_eq_foldl, Nat.ofDigitChars_ten_toDigits]

/-- The digits of a number are read as that number. -/
theorem natural?_toDigits (number : Nat) : natural? (Nat.toDigits 10 number) = some number := by
  simp [natural?, isNatural_toDigits, naturalOf_toDigits]

theorem isNumber_toDigits (number : Nat) : isNumber (Nat.toDigits 10 number) = true := by
  have digits := List.all_eq_true.mp (all_isDigit_toDigits number)
  have unsigned : ∀ rest, Nat.toDigits 10 number ≠ '-' :: rest := by
    intro rest same
    have sign := digits '-' (same ▸ List.mem_cons_self)
    cases sign
  unfold isNumber
  split
  · exact absurd ‹_› (unsigned _)
  · simp [List.takeWhile_eq_self_iff.mpr digits, List.dropWhile_eq_nil_iff.mpr digits,
      isNatural_toDigits, isNumberTail]

/-- A number begins with a digit or with a minus sign. -/
theorem exists_head_of_isNumber {literal : List Char} (isNumber : isNumber literal = true)
    : ∃ char rest, literal = char :: rest ∧ (char.isDigit = true ∨ char = '-') := by
  cases literal with
  | nil => cases isNumber
  | cons char rest =>
      refine ⟨char, rest, rfl, ?_⟩
      by_cases minus : char = '-'
      · exact Or.inr minus
      · cases digit : char.isDigit with
        | true => exact Or.inl rfl
        | false => simp [Json.isNumber, minus, digit, isNatural] at isNumber

-----------------------------------------------------------------------------------------
-- Tokens
-----------------------------------------------------------------------------------------

/-- The token is written as a run of characters that a longer run would change. -/
def Token.isRun : Token → Bool
  | .number _ => Bool.true
  | .true => Bool.true
  | .false => Bool.true
  | .null => Bool.true
  | _ => Bool.false

/-- A token that can be written. -/
def Token.IsWritable : Token → Prop
  | .string parts => ∀ part ∈ parts, part.IsWritable
  | .number literal =>
      isNumber literal = Bool.true ∧ ∀ char ∈ literal, isNumberChar char = Bool.true
  | _ => True

/-- Two tokens can stand next to each other: one of them is not a run. -/
def Token.Apart (first second : Token) : Prop :=
  first.isRun = Bool.false ∨ second.isRun = Bool.false

/-- The text does not go on with a character of a run. -/
def EndsRun (rest : List Char) : Prop :=
  ∀ char ∈ rest.head?, char.isAlpha = false ∧ isNumberChar char = false

theorem isBlank_of_lt {char : Char} (visible : 0x20 < char.toNat) : isBlank char = false := by
  simp only [isBlank, Bool.or_eq_false_iff, beq_eq_false_iff_ne]
  refine ⟨⟨⟨?_, ?_⟩, ?_⟩, ?_⟩ <;> rintro rfl <;> exact absurd visible (by decide)

theorem isBlank_of_isNumberChar {char : Char} (isNumberChar : isNumberChar char = true)
    : isBlank char = false := by
  apply isBlank_of_lt
  simp only [Json.isNumberChar, Char.isDigit, Bool.or_eq_true, Bool.and_eq_true, decide_eq_true_eq,
    beq_iff_eq] at isNumberChar
  obtain ((((⟨least, _⟩ | rfl) | rfl) | rfl) | rfl) | rfl := isNumberChar
  · exact Nat.lt_of_lt_of_le (by decide) (UInt32.le_iff_toNat_le.mp least)
  all_goals decide

theorem isAlpha_of_isDigit {char : Char} (digit : char.isDigit = true) : char.isAlpha = false := by
  have most : char.val ≤ '9'.val := of_decide_eq_true (Bool.and_eq_true_iff.mp digit).2
  cases alpha : char.isAlpha with
  | false => rfl
  | true =>
      have least : 'A'.val ≤ char.val := by
        rcases Bool.or_eq_true_iff.mp alpha with upper | lower
        · exact (of_decide_eq_true upper).1
        · have least : 'a'.val ≤ char.val := of_decide_eq_true (Bool.and_eq_true_iff.mp lower).1
          exact UInt32.le_trans (by decide) least
      exact absurd (UInt32.le_trans least most) (by decide)

theorem tokens_of_readToken {char : Char} {rest later : List Char} {token : Token}
    (visible : isBlank char = false) (read : readToken char rest = some (token, later))
    : tokens (char :: rest) = (tokens later).map (token :: ·) := by
  rw [tokens]
  simp only [visible, Bool.false_eq_true, ↓reduceIte]
  split
  · simp_all
  · simp_all

/-- A run is taken as a whole when the text does not go on with more of it. -/
theorem takeWhile_run {test : Char → Bool} {run rest : List Char}
    (inside : ∀ char ∈ run, test char = true) (outside : ∀ char ∈ rest.head?, test char = false)
    : (run ++ rest).takeWhile test = run ∧ (run ++ rest).dropWhile test = rest := by
  rw [List.takeWhile_append_of_pos inside, List.dropWhile_append_of_pos inside]
  cases rest with
  | nil => simp
  | cons char later =>
      have stops := outside char rfl
      simp [stops]

theorem readToken_number {literal rest : List Char} {char : Char}
    (isNumber : isNumber (char :: literal) = true)
    (inside : ∀ other ∈ literal, isNumberChar other = true) (ends : EndsRun rest)
    : isBlank char = false
      ∧ readToken char (literal ++ rest) = some (.number (char :: literal), rest) := by
  obtain ⟨_, _, same, begins⟩ := exists_head_of_isNumber isNumber
  cases same
  obtain ⟨taken, dropped⟩ := takeWhile_run inside fun other member => (ends other member).2
  have notAlpha : char.isAlpha = false := by
    rcases begins with digit | rfl
    · exact isAlpha_of_isDigit digit
    · rfl
  have numeric : isNumberChar char = true := by
    rcases begins with digit | rfl
    · simp [isNumberChar, digit]
    · rfl
  refine ⟨isBlank_of_isNumberChar numeric, ?_⟩
  unfold readToken
  split
  all_goals try exact absurd begins (by decide)
  simp [notAlpha, numeric, taken, dropped, numberToken?, isNumber]

theorem readToken_word {token : Token} {first : Char} {letters rest : List Char}
    (letter : first.isAlpha = true) (inside : letters.all Char.isAlpha = true)
    (word : wordToken? (first :: letters) = some token) (ends : EndsRun rest)
    : readToken first (letters ++ rest) = some (token, rest) := by
  obtain ⟨taken, dropped⟩ :=
    takeWhile_run (List.all_eq_true.mp inside) fun other member => (ends other member).1
  unfold readToken
  split
  all_goals try exact absurd letter (by decide)
  simp [letter, taken, dropped, word]

/-- A token is read back from the front of a text. -/
theorem tokens_token {token : Token} {rest : List Char} (writable : token.IsWritable)
    (ends : token.isRun = true → EndsRun rest)
    : tokens (token.chars ++ rest) = (tokens rest).map (token :: ·) := by
  cases token with
  | openArray => exact tokens_of_readToken rfl rfl
  | closeArray => exact tokens_of_readToken rfl rfl
  | openObject => exact tokens_of_readToken rfl rfl
  | closeObject => exact tokens_of_readToken rfl rfl
  | colon => exact tokens_of_readToken rfl rfl
  | comma => exact tokens_of_readToken rfl rfl
  | true => exact tokens_of_readToken rfl (readToken_word rfl rfl rfl (ends rfl))
  | false => exact tokens_of_readToken rfl (readToken_word rfl rfl rfl (ends rfl))
  | null => exact tokens_of_readToken rfl (readToken_word rfl rfl rfl (ends rfl))
  | string parts =>
      have read : readToken '"' (parts.flatMap Part.chars ++ '"' :: rest)
          = some (.string parts, rest) := by
        simp [readToken, readParts_flatMap_chars writable]
      simpa [Token.chars] using tokens_of_readToken rfl read
  | number literal =>
      obtain ⟨isNumber, inside⟩ := writable
      obtain ⟨char, digits, rfl, _⟩ := exists_head_of_isNumber isNumber
      obtain ⟨visible, read⟩ := readToken_number isNumber
        (fun other member => inside other (List.mem_cons_of_mem _ member)) (ends rfl)
      exact tokens_of_readToken visible read

/-- A token that is not a run ends the one before it. -/
theorem endsRun_chars {token : Token} (other : token.isRun = false) (rest : List Char)
    : EndsRun (token.chars ++ rest) := by
  intro char begins
  cases token <;> cases other <;> cases begins <;> decide

/-- Written tokens are read back, when no two runs stand next to each other; by induction on the
tokens.
-/
theorem tokens_flatMap_chars {written : List Token} (writable : ∀ token ∈ written, token.IsWritable)
    (apart : written.IsChain Token.Apart)
    : tokens (written.flatMap Token.chars) = some written := by
  induction written with
  | nil => simp [tokens]
  | cons token rest ih =>
      have later :=
        ih (fun other member => writable other (List.mem_cons_of_mem _ member)) apart.tail
      rw [List.flatMap_cons, tokens_token (writable token List.mem_cons_self), later]
      · rfl
      · intro run
        cases rest with
        | nil => simp [EndsRun]
        | cons next others =>
            obtain ⟨beside, _⟩ := List.isChain_cons_cons.mp apart
            have other : next.isRun = false := by simpa [Token.Apart, run] using beside
            exact endsRun_chars other _

end StackBounds.Json
