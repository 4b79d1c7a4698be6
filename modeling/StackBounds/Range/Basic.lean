import StackBounds.Fault

/-! Ranges: half-open intervals `[lower, upper)` of fixed-width words that may wrap around.
Equal bounds denote the empty set when both are zero and the full set when both are all ones.
-/

namespace StackBounds

/-- A set of `bits` wide words, written as `[lower, upper)` on the circle of words. The fields
are kept as given: bounds outside the width and other equal bounds are possible, and
`Range.WellFormed` singles out the ranges that denote a set.
-/
structure Range where
  bits : UInt32
  lower : UInt64
  upper : UInt64
  deriving DecidableEq, Repr, Inhabited

-----------------------------------------------------------------------------------------
-- Words of a width
-----------------------------------------------------------------------------------------

namespace Word

/-- How many words a width has: two to the power of the width. -/
def count (bits : UInt32) : Nat := Nat.pow 2 bits.toNat

/-- How many words of a width are negative in the signed reading, for widths above zero. -/
def half (bits : UInt32) : Nat := Nat.pow 2 (bits.toNat - 1)

/-- The all-ones word of a width. Widths above 64 have none. -/
def mask (bits : UInt32) : Except Fault UInt64 :=
  if bits ≤ 64 then pure (UInt64.ofNat (count bits - 1)) else throw (.width bits)

/-- Succeeds on the widths that have a signed reading, 1 to 64. -/
def requireSigned (bits : UInt32) : Except Fault Unit :=
  if 1 ≤ bits ∧ bits ≤ 64 then pure () else throw (.width bits)

/-- The low bits of an integer, as a word. -/
def ofInt (bits : UInt32) (value : Int) : UInt64 :=
  UInt64.ofNat (value % (count bits : Int)).toNat

/-- The signed reading of the low bits of a word. -/
def toSigned (bits : UInt32) (word : UInt64) : Except Fault Int := do
  requireSigned bits
  pure ((word.toNat : Int).bmod (count bits))

/-- The least signed number of a width. -/
def signedMin (bits : UInt32) : Except Fault Int := do
  requireSigned bits
  pure (-(half bits : Int))

/-- The greatest signed number of a width. -/
def signedMax (bits : UInt32) : Except Fault Int := do
  requireSigned bits
  pure ((half bits : Int) - 1)

/-- The word of a width whose signed reading is the least number. -/
def signBit (bits : UInt32) : Except Fault UInt64 := do
  requireSigned bits
  pure (UInt64.ofNat (half bits))

end Word

namespace Range

-----------------------------------------------------------------------------------------
-- Building ranges
-----------------------------------------------------------------------------------------

/-- The set of all words of a width. -/
def full (bits : UInt32) : Except Fault Range := do
  Word.requireSigned bits
  let mask ← Word.mask bits
  pure ⟨bits, mask, mask⟩

/-- The set without words. -/
def empty (bits : UInt32) : Except Fault Range := do
  Word.requireSigned bits
  pure ⟨bits, 0, 0⟩

/-- The interval between two words, cut to the width. Equal bounds must be one of the two
patterns that denote a set.
-/
def ofWords (bits : UInt32) (lower upper : UInt64) : Except Fault Range := do
  let mask ← Word.mask bits
  let lower := lower &&& mask
  let upper := upper &&& mask
  if lower ≠ upper then
    pure ⟨bits, lower, upper⟩
  else if lower = 0 then
    empty bits
  else if lower = mask then
    full bits
  else
    throw .equalBounds

/-- The set of one number. -/
def singleton (bits : UInt32) (value : Int) : Except Fault Range := do
  let _ ← Word.mask bits
  pure ⟨bits, Word.ofInt bits value, Word.ofInt bits (value + 1)⟩

/-- The signed interval `[lower, upper)`. Equal numbers give the empty set, and different
numbers with the same low bits the full set.
-/
def ofSigned (bits : UInt32) (lower upper : Int) : Except Fault Range :=
  if lower = upper then
    empty bits
  else do
    let _ ← Word.mask bits
    let lower := Word.ofInt bits lower
    let upper := Word.ofInt bits upper
    if lower = upper then full bits else pure ⟨bits, lower, upper⟩

/-- The closed signed interval `[min, max]`. -/
def ofSignedClosed (bits : UInt32) (min max : Int) : Except Fault Range :=
  if max < min then
    throw .reversedBounds
  else do
    let least ← Word.signedMin bits
    let greatest ← Word.signedMax bits
    if min = least ∧ max = greatest then
      full bits
    else
      pure ⟨bits, Word.ofInt bits min, Word.ofInt bits (max + 1)⟩

/-- The closed signed interval `[min, max]`, or the full set when a bound does not fit the
width.
-/
def ofSignedBounds (bits : UInt32) (min max : Int) : Except Fault Range :=
  if max < min then
    throw .reversedBounds
  else do
    let least ← Word.signedMin bits
    let greatest ← Word.signedMax bits
    if min < least ∨ greatest < max then full bits else ofSignedClosed bits min max

-----------------------------------------------------------------------------------------
-- Shape
-----------------------------------------------------------------------------------------

/-- The bounds denote the full set. -/
def isFull (range : Range) : Except Fault Bool :=
  if range.lower = range.upper then do
    let mask ← Word.mask range.bits
    pure (range.lower == mask)
  else
    pure false

/-- The bounds denote the empty set. -/
def isEmpty (range : Range) : Bool :=
  range.lower == range.upper && range.lower == 0

/-- The interval passes the end of the unsigned words; `[x, 0)` counts as passing it. -/
def isWrapped (range : Range) : Bool :=
  range.upper < range.lower

/-- The lower bound, read as a signed number. -/
def signedLower (range : Range) : Except Fault Int :=
  Word.toSigned range.bits range.lower

/-- The upper bound, read as a signed number. -/
def signedUpper (range : Range) : Except Fault Int :=
  Word.toSigned range.bits range.upper

/-- The interval passes the end of the signed numbers; one that stops right there counts as
passing it.
-/
def isSignWrapped (range : Range) : Except Fault Bool := do
  let lower ← range.signedLower
  let upper ← range.signedUpper
  pure (decide (upper < lower))

/-- The set has elements on both sides of the end of the signed numbers. -/
def crossesSign (range : Range) : Except Fault Bool := do
  if ← range.isSignWrapped then
    let signBit ← Word.signBit range.bits
    pure (range.upper != signBit)
  else
    pure false

/-- The least element, read as a signed number. -/
def signedMin (range : Range) : Except Fault Int := do
  if ← range.isFull then
    Word.signedMin range.bits
  else if ← range.crossesSign then
    Word.signedMin range.bits
  else
    range.signedLower

/-- The greatest element, read as a signed number. -/
def signedMax (range : Range) : Except Fault Int := do
  if ← range.isFull then
    Word.signedMax range.bits
  else if ← range.isSignWrapped then
    Word.signedMax range.bits
  else
    let mask ← Word.mask range.bits
    Word.toSigned range.bits ((range.upper - 1) &&& mask)

/-- The distance from the lower to the upper bound along the circle of words. -/
def length (range : Range) : Except Fault UInt64 := do
  let mask ← Word.mask range.bits
  pure ((range.upper - range.lower) &&& mask)

/-- The number of elements. -/
def size (range : Range) : Except Fault Nat := do
  if ← range.isFull then
    pure (Word.count range.bits)
  else
    let length ← range.length
    pure length.toNat

/-- The first set has fewer elements than the second. -/
def isSmallerThan (first second : Range) : Except Fault Bool := do
  if ← first.isFull then
    pure false
  else if ← second.isFull then
    pure true
  else
    let firstLength ← first.length
    let secondLength ← second.length
    pure (decide (firstLength < secondLength))

/-- The range says nothing useful about an offset or a size: nothing was seen, everything is
possible, or the interval passes the end of the signed numbers.
-/
def isUnusable (range : Range) : Except Fault Bool := do
  if range.isEmpty then
    pure true
  else if ← range.isFull then
    pure true
  else
    range.isSignWrapped

/-- Succeeds when two ranges have one width. -/
def requireSameWidth (left right : Range) : Except Fault Unit :=
  if left.bits = right.bits then pure () else throw (.widthMismatch left.bits right.bits)

/-- The text of a range in reports: a word for the full and the empty set, signed bounds for
every other.
-/
def text (range : Range) : Except Fault String := do
  if ← range.isFull then
    pure "full-set"
  else if range.isEmpty then
    pure "empty-set"
  else
    let lower ← range.signedLower
    let upper ← range.signedUpper
    pure ("[" ++ toString lower ++ "," ++ toString upper ++ ")")

-----------------------------------------------------------------------------------------
-- The set a range denotes
-----------------------------------------------------------------------------------------

/-- The bounds fit a width from 1 to 64, and equal bounds are one of the two patterns that
denote a set.
-/
def WellFormed (range : Range) : Prop :=
  1 ≤ range.bits.toNat
    ∧ range.bits.toNat ≤ 64
    ∧ range.lower.toNat < Word.count range.bits
    ∧ range.upper.toNat < Word.count range.bits
    ∧ (range.lower = range.upper
        → range.lower.toNat = 0 ∨ range.lower.toNat = Word.count range.bits - 1)

/-- A word below the modulus is an element when it is nearer above the lower bound than the
upper bound is, along the circle of words; the all-ones pattern denotes every word.
-/
def Mem (range : Range) (word : Nat) : Prop :=
  word < Word.count range.bits
    ∧ ((range.lower = range.upper ∧ range.lower.toNat = Word.count range.bits - 1)
        ∨ (word + Word.count range.bits - range.lower.toNat) % Word.count range.bits
            < (range.upper.toNat + Word.count range.bits - range.lower.toNat)
                % Word.count range.bits)

instance : Membership Nat Range := ⟨Mem⟩

end Range

end StackBounds
