/-! The tokens of a JSON text, read and written. A token keeps what was written: the digits of a
number and the parts of a string.
-/

namespace StackBounds.Json

/-- A part of a string: a character, or a code unit that is written as an escape. -/
inductive Part
  | char (char : Char)
  | unit (code : Nat)
  deriving DecidableEq, Repr

/-- A token. -/
inductive Token
  | openArray
  | closeArray
  | openObject
  | closeObject
  | colon
  | comma
  | string (parts : List Part)
  | number (literal : List Char)
  | true
  | false
  | null
  deriving DecidableEq, Repr

-----------------------------------------------------------------------------------------
-- Strings
-----------------------------------------------------------------------------------------

/-- The value of a hexadecimal digit. -/
def hexDigit? (char : Char) : Option Nat :=
  if '0' ≤ char ∧ char ≤ '9' then some (char.toNat - '0'.toNat)
  else if 'a' ≤ char ∧ char ≤ 'f' then some (char.toNat - 'a'.toNat + 10)
  else if 'A' ≤ char ∧ char ≤ 'F' then some (char.toNat - 'A'.toNat + 10)
  else none

/-- The value of four hexadecimal digits. -/
def codeUnit? (first second third fourth : Char) : Option Nat := do
  pure ((((← hexDigit? first) * 16 + (← hexDigit? second)) * 16 + (← hexDigit? third)) * 16
    + (← hexDigit? fourth))

/-- The character that a backslash and a letter stand for. -/
def escaped? (char : Char) : Option Char :=
  match char with
  | '"' => some '"'
  | '\\' => some '\\'
  | '/' => some '/'
  | 'b' => some '\x08'
  | 'f' => some '\x0c'
  | 'n' => some '\n'
  | 'r' => some '\r'
  | 't' => some '\t'
  | _ => none

/-- Reads a string up to its closing quote. Control characters have to be escaped. -/
def readParts : List Char → Option (List Part × List Char)
  | [] => none
  | '"' :: rest => some ([], rest)
  | '\\' :: 'u' :: first :: second :: third :: fourth :: rest => do
      let unit ← codeUnit? first second third fourth
      let (parts, rest) ← readParts rest
      pure (.unit unit :: parts, rest)
  | '\\' :: letter :: rest => do
      let char ← escaped? letter
      let (parts, rest) ← readParts rest
      pure (.char char :: parts, rest)
  | char :: rest =>
      if char = '\\' ∨ char.toNat < 0x20 then
        none
      else do
        let (parts, rest) ← readParts rest
        pure (.char char :: parts, rest)

/-- The code unit is the first half of a character. -/
def isLeading (unit : Nat) : Bool := 0xd800 ≤ unit && unit < 0xdc00

/-- The code unit is the second half of a character. -/
def isTrailing (unit : Nat) : Bool := 0xdc00 ≤ unit && unit < 0xe000

/-- The characters that parts of a string stand for, if no half of a character stands alone. -/
def charsOf : List Part → Option (List Char)
  | [] => some []
  | .char char :: rest => (charsOf rest).map (char :: ·)
  | .unit leading :: .unit trailing :: rest =>
      if isLeading leading && isTrailing trailing then
        (charsOf rest).map
          (Char.ofNat (0x10000 + (leading - 0xd800) * 0x400 + (trailing - 0xdc00)) :: ·)
      else if isLeading leading || isTrailing leading then
        none
      else
        (charsOf (.unit trailing :: rest)).map (Char.ofNat leading :: ·)
  | .unit code :: rest =>
      if isLeading code || isTrailing code then none
      else (charsOf rest).map (Char.ofNat code :: ·)

-----------------------------------------------------------------------------------------
-- Numbers
-----------------------------------------------------------------------------------------

/-- The character can occur in a number. -/
def isNumberChar (char : Char) : Bool :=
  char.isDigit || char == '+' || char == '-' || char == '.' || char == 'e' || char == 'E'

/-- Digits without a leading zero, or a single zero. -/
def isNatural (chars : List Char) : Bool :=
  match chars with
  | [] => false
  | ['0'] => true
  | '0' :: _ => false
  | _ => chars.all Char.isDigit

/-- An optional sign and at least one digit. -/
def isExponent (chars : List Char) : Bool :=
  let digits := match chars with
    | '+' :: rest => rest
    | '-' :: rest => rest
    | _ => chars
  !digits.isEmpty && digits.all Char.isDigit

/-- What may follow the integer part: a fraction, an exponent, both or nothing. -/
def isNumberTail (chars : List Char) : Bool :=
  match chars with
  | [] => true
  | '.' :: rest =>
      let digits := rest.takeWhile Char.isDigit
      !digits.isEmpty && isExponentTail (rest.dropWhile Char.isDigit)
  | _ => isExponentTail chars
where
  /-- An exponent or nothing. -/
  isExponentTail : List Char → Bool
    | [] => true
    | 'e' :: rest => isExponent rest
    | 'E' :: rest => isExponent rest
    | _ => false

/-- A number of the grammar. -/
def isNumber (chars : List Char) : Bool :=
  let unsigned := match chars with
    | '-' :: rest => rest
    | _ => chars
  isNatural (unsigned.takeWhile Char.isDigit) && isNumberTail (unsigned.dropWhile Char.isDigit)

/-- The value of decimal digits. -/
def naturalOf (chars : List Char) : Nat :=
  chars.foldl (fun value char => value * 10 + (char.toNat - '0'.toNat)) 0

/-- The natural number that a literal writes. -/
def natural? (literal : List Char) : Option Nat :=
  if isNatural literal then some (naturalOf literal) else none

/-- The token of a run of number characters. -/
def numberToken? (chars : List Char) : Option Token :=
  if isNumber chars then some (.number chars) else none

-----------------------------------------------------------------------------------------
-- Texts
-----------------------------------------------------------------------------------------

/-- The token of a run of letters. -/
def wordToken? (chars : List Char) : Option Token :=
  if chars = ['t', 'r', 'u', 'e'] then some .true
  else if chars = ['f', 'a', 'l', 's', 'e'] then some .false
  else if chars = ['n', 'u', 'l', 'l'] then some .null
  else none

/-- The character separates tokens. -/
def isBlank (char : Char) : Bool :=
  char == ' ' || char == '\t' || char == '\n' || char == '\r'

/-- Reads the token that begins with a character. -/
def readToken (char : Char) (rest : List Char) : Option (Token × List Char) :=
  match char with
  | '[' => some (.openArray, rest)
  | ']' => some (.closeArray, rest)
  | '\x7b' => some (.openObject, rest)
  | '\x7d' => some (.closeObject, rest)
  | ':' => some (.colon, rest)
  | ',' => some (.comma, rest)
  | '"' => (readParts rest).map fun (parts, rest) => (.string parts, rest)
  | _ =>
    if char.isAlpha then
      (wordToken? (char :: rest.takeWhile Char.isAlpha)).map fun token =>
        (token, rest.dropWhile Char.isAlpha)
    else if isNumberChar char then
      (numberToken? (char :: rest.takeWhile isNumberChar)).map fun token =>
        (token, rest.dropWhile isNumberChar)
    else
      none

/-- A string is read from its front. -/
theorem length_readParts {chars rest : List Char} {parts : List Part}
    (h : readParts chars = some (parts, rest))
    : rest.length ≤ chars.length := by
  fun_induction readParts chars generalizing parts rest with
  | case1 => cases h
  | case2 =>
      cases h
      simp
  | case3 first second third fourth tail ih =>
      cases hunit : codeUnit? first second third fourth with
      | none => simp [hunit] at h
      | some unit =>
          cases hparts : readParts tail with
          | none => simp [hunit, hparts] at h
          | some found =>
              obtain ⟨later, last⟩ := found
              simp only [hunit, hparts, Option.bind_eq_bind, Option.bind_some, Option.pure_def,
                Option.some.injEq, Prod.mk.injEq] at h
              have := ih hparts
              simp only [← h.2, List.length_cons]
              omega
  | case4 letter tail _ ih =>
      cases hchar : escaped? letter with
      | none => simp [hchar] at h
      | some char =>
          cases hparts : readParts tail with
          | none => simp [hchar, hparts] at h
          | some found =>
              obtain ⟨later, last⟩ := found
              simp only [hchar, hparts, Option.bind_eq_bind, Option.bind_some, Option.pure_def,
                Option.some.injEq, Prod.mk.injEq] at h
              have := ih hparts
              simp only [← h.2, List.length_cons]
              omega
  | case5 => cases h
  | case6 char tail _ _ _ _ ih =>
      cases hparts : readParts tail with
      | none => simp [hparts] at h
      | some found =>
          obtain ⟨later, last⟩ := found
          simp only [hparts, Option.bind_eq_bind, Option.bind_some, Option.pure_def,
            Option.some.injEq, Prod.mk.injEq] at h
          have := ih hparts
          simp only [← h.2, List.length_cons]
          omega

/-- A token is read from the front of a text, by cases on its first character. -/
theorem length_readToken {char : Char} {rest later : List Char} {token : Token}
    (h : readToken char rest = some (token, later))
    : later.length ≤ rest.length := by
  unfold readToken at h
  split at h
  all_goals try (cases h; exact Nat.le_refl _)
  · obtain ⟨⟨parts, last⟩, hparts, h⟩ := Option.map_eq_some_iff.mp h
    cases h
    exact length_readParts hparts
  · split at h
    · obtain ⟨_, _, h⟩ := Option.map_eq_some_iff.mp h
      cases h
      exact (List.dropWhile_sublist _).length_le
    · split at h
      · obtain ⟨_, _, h⟩ := Option.map_eq_some_iff.mp h
        cases h
        exact (List.dropWhile_sublist _).length_le
      · cases h

/-- The tokens of a text. -/
def tokens (chars : List Char) : Option (List Token) :=
  match chars with
  | [] => some []
  | char :: rest =>
    if isBlank char then
      tokens rest
    else
      match _h : readToken char rest with
      | none => none
      | some (token, later) => (tokens later).map (token :: ·)
termination_by chars.length
decreasing_by
  · simp
  · have := length_readToken _h
    simp only [List.length_cons]
    omega

-----------------------------------------------------------------------------------------
-- Writing
-----------------------------------------------------------------------------------------

/-- The letter that stands for a character after a backslash. -/
def escapeLetter? (char : Char) : Option Char :=
  match char with
  | '"' => some '"'
  | '\\' => some '\\'
  | '\x08' => some 'b'
  | '\x0c' => some 'f'
  | '\n' => some 'n'
  | '\r' => some 'r'
  | '\t' => some 't'
  | _ => none

/-- Four hexadecimal digits. -/
def codeUnitChars (code : Nat) : List Char :=
  [code / 0x1000, code / 0x100, code / 0x10, code].map fun digit => Nat.digitChar (digit % 0x10)

/-- A part of a string as it is written. -/
def Part.chars : Part → List Char
  | .char plain =>
    match escapeLetter? plain with
    | some letter => ['\\', letter]
    | none => [plain]
  | .unit code => '\\' :: 'u' :: codeUnitChars code

/-- A token as it is written. -/
def Token.chars : Token → List Char
  | .openArray => ['[']
  | .closeArray => [']']
  | .openObject => ['\x7b']
  | .closeObject => ['\x7d']
  | .colon => [':']
  | .comma => [',']
  | .string parts => '"' :: parts.flatMap Part.chars ++ ['"']
  | .number literal => literal
  | .true => ['t', 'r', 'u', 'e']
  | .false => ['f', 'a', 'l', 's', 'e']
  | .null => ['n', 'u', 'l', 'l']

end StackBounds.Json
