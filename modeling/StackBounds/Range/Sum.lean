import StackBounds.Range.Basic

/-! Sums and multiples of ranges, and what is known about signed overflow. -/

namespace StackBounds.Range

/-- The wrapping sum of two ranges: every `x + y` modulo the number of words. The interval of
sums is the full set exactly when its bounds meet or it came out shorter than an operand.
-/
def add (left right : Range) : Except Fault Range := do
  left.requireSameWidth right
  if left.isEmpty || right.isEmpty then
    empty left.bits
  else if ← left.isFull then
    full left.bits
  else if ← right.isFull then
    full left.bits
  else
    let mask ← Word.mask left.bits
    let sum : Range := {
      bits := left.bits
      lower := (left.lower + right.lower) &&& mask
      upper := (left.upper + right.upper - 1) &&& mask
    }
    if sum.lower = sum.upper then
      full left.bits
    else if ← sum.isSmallerThan left then
      full left.bits
    else if ← sum.isSmallerThan right then
      full left.bits
    else
      pure sum

/-- What is known about the signed overflow of a sum. -/
inductive SumOverflow
  | alwaysLow
  | alwaysHigh
  | sometimes
  | never
  deriving DecidableEq, Repr

/-- Classifies the signed sum of an element of each range by the extreme elements. -/
def sumOverflow (left right : Range) : Except Fault SumOverflow :=
  if left.isEmpty || right.isEmpty then
    pure .sometimes
  else do
    let least ← Word.signedMin left.bits
    let greatest ← Word.signedMax left.bits
    let leftMin ← left.signedMin
    let leftMax ← left.signedMax
    let rightMin ← right.signedMin
    let rightMax ← right.signedMax
    if 0 ≤ leftMin ∧ 0 ≤ rightMin ∧ greatest - rightMin < leftMin then
      pure .alwaysHigh
    else if leftMax < 0 ∧ rightMax < 0 ∧ leftMax < least - rightMax then
      pure .alwaysLow
    else if 0 ≤ leftMax ∧ 0 ≤ rightMax ∧ greatest - rightMax < leftMax then
      pure .sometimes
    else if leftMin < 0 ∧ rightMin < 0 ∧ leftMin < least - rightMin then
      pure .sometimes
    else
      pure .never

/-- The signed sum of two ranges: the full set unless no pair of elements overflows, and the
empty set when an operand is empty.
-/
def addSigned (left right : Range) : Except Fault Range :=
  if left.isEmpty || right.isEmpty then
    empty left.bits
  else do
    match ← left.sumOverflow right with
    | .never => left.add right
    | _ => full left.bits

/-- Every element times a factor, or the full set when a product leaves the signed numbers. -/
def scale (range : Range) (factor : Int) : Except Fault Range :=
  if range.isEmpty then
    pure range
  else do
    let low ← range.signedMin
    let high ← range.signedMax
    ofSignedBounds range.bits (min (low * factor) (high * factor))
      (max (low * factor) (high * factor))

end StackBounds.Range
