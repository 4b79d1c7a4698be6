import StackBounds.Json.Token

/-! JSON values, read from and written as tokens. -/

namespace StackBounds.Json

/-- A value. The keys of an object may repeat. -/
inductive Value
  | null
  | bool (value : Bool)
  | number (literal : List Char)
  | string (parts : List Part)
  | array (items : List Value)
  | object (members : List (List Part × Value))
  deriving Repr

-----------------------------------------------------------------------------------------
-- Reading
-----------------------------------------------------------------------------------------

mutual

/-- Reads a value from the front of the tokens. -/
def readValue : Nat → List Token → Option (Value × List Token)
  | 0, _ => none
  | fuel + 1, tokens =>
    match tokens with
    | .null :: rest => some (.null, rest)
    | .true :: rest => some (.bool true, rest)
    | .false :: rest => some (.bool false, rest)
    | .number literal :: rest => some (.number literal, rest)
    | .string parts :: rest => some (.string parts, rest)
    | .openArray :: .closeArray :: rest => some (.array [], rest)
    | .openArray :: rest => (readItems fuel rest).map fun (items, rest) => (.array items, rest)
    | .openObject :: .closeObject :: rest => some (.object [], rest)
    | .openObject :: rest =>
        (readMembers fuel rest).map fun (members, rest) => (.object members, rest)
    | _ => none

/-- Reads the items of an array up to its end; there is at least one. -/
def readItems : Nat → List Token → Option (List Value × List Token)
  | 0, _ => none
  | fuel + 1, tokens => do
    let (item, rest) ← readValue fuel tokens
    match rest with
    | .comma :: rest => do
        let (items, rest) ← readItems fuel rest
        pure (item :: items, rest)
    | .closeArray :: rest => pure ([item], rest)
    | _ => none

/-- Reads the members of an object up to its end; there is at least one. -/
def readMembers : Nat → List Token → Option (List (List Part × Value) × List Token)
  | 0, _ => none
  | fuel + 1, tokens =>
    match tokens with
    | .string key :: .colon :: rest => do
      let (value, rest) ← readValue fuel rest
      match rest with
      | .comma :: rest => do
          let (members, rest) ← readMembers fuel rest
          pure ((key, value) :: members, rest)
      | .closeObject :: rest => pure ([(key, value)], rest)
      | _ => none
    | _ => none

end

/-- Reads a text that holds one value. Each step of the reader takes a token or goes one level
down before it takes one, so twice the number of tokens bounds the steps.
-/
def parse? (text : String) : Option Value := do
  let tokens ← tokens text.toList
  match ← readValue (2 * tokens.length + 2) tokens with
  | (value, []) => pure value
  | _ => none

-----------------------------------------------------------------------------------------
-- Writing
-----------------------------------------------------------------------------------------

mutual

/-- The tokens of a value. -/
def Value.tokens : Value → List Token
  | .null => [.null]
  | .bool value => [if value then .true else .false]
  | .number literal => [.number literal]
  | .string parts => [.string parts]
  | .array [] => [.openArray, .closeArray]
  | .array (item :: rest) => .openArray :: item.tokens ++ restTokens rest
  | .object [] => [.openObject, .closeObject]
  | .object ((key, value) :: rest) =>
      .openObject :: .string key :: .colon :: value.tokens ++ memberTokens rest

/-- The tokens of the later items of an array, up to its end. -/
def restTokens : List Value → List Token
  | [] => [.closeArray]
  | item :: rest => .comma :: item.tokens ++ restTokens rest

/-- The tokens of the later members of an object, up to its end. -/
def memberTokens : List (List Part × Value) → List Token
  | [] => [.closeObject]
  | (key, value) :: rest =>
      .comma :: .string key :: .colon :: value.tokens ++ memberTokens rest

end

/-- The text of a value, without blanks. -/
def Value.render (value : Value) : String := String.ofList (value.tokens.flatMap Token.chars)

-----------------------------------------------------------------------------------------
-- Data
-----------------------------------------------------------------------------------------

/-- A text as the parts of a string. -/
def plain (text : String) : List Part := text.toList.map .char

/-- The text that parts of a string stand for. -/
def text? (parts : List Part) : Option String := (charsOf parts).map String.ofList

namespace Value

/-- A natural number. -/
def ofNat (value : Nat) : Value := .number (Nat.toDigits 10 value)

/-- A record: an object of named fields, in order. -/
def ofFields (fields : List (String × Value)) : Value :=
  .object (fields.map fun (name, value) => (plain name, value))

/-- The natural number that a value is, if it is below a bound. -/
def natBelow? (bound : Nat) : Value → Option Nat
  | .number literal => (natural? literal).filter fun value => value < bound
  | _ => none

/-- The items of an array. -/
def items? : Value → Option (List Value)
  | .array items => some items
  | _ => none

/-- The only value under a key. -/
def member? (members : List (List Part × Value)) (key : String) : Option Value :=
  match members.filter fun member => text? member.1 == some key with
  | [(_, value)] => some value
  | _ => none

/-- The values of the named fields of a record. A record is an object that has each field
once, and possibly others, or an array of exactly the fields in order.
-/
def fields? (names : List String) : Value → Option (List Value)
  | .array items => if items.length = names.length then some items else none
  | .object members =>
      if members.all fun member => (text? member.1).isSome then names.mapM (member? members)
      else none
  | _ => none

end Value

end StackBounds.Json
