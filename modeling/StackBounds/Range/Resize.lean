import StackBounds.Range.Basic

/-! Ranges at another width: sign extension, zero extension and truncation. -/

namespace StackBounds.Range

/-- The sign extension of every element. -/
def signExtend (range : Range) (bits : UInt32) : Except Fault Range :=
  if range.isEmpty then
    empty bits
  else do
    let low ← range.signedMin
    let high ← range.signedMax
    ofSignedClosed bits low high

/-- The first word that does not fit a width. -/
def firstBeyond (bits : UInt32) : Except Fault UInt64 :=
  if bits < 64 then pure (UInt64.ofNat (Word.count bits)) else throw (.width bits)

/-- The zero extension of every element. An interval that wraps covers both ends of the narrow
words, so its extension starts at zero, unless it only reaches the top.
-/
def zeroExtend (range : Range) (bits : UInt32) : Except Fault Range :=
  if range.isEmpty then
    empty bits
  else do
    if (← range.isFull) || range.isWrapped then
      let beyond ← firstBeyond range.bits
      pure ⟨bits, if range.upper = 0 then range.lower else 0, beyond⟩
    else
      pure ⟨bits, range.lower, range.upper⟩

/-- The low bits of every element. The interval is kept when it fits the narrow width as an
unsigned or as a signed interval, and becomes the full set otherwise.
-/
def truncate (range : Range) (bits : UInt32) : Except Fault Range := do
  if range.isEmpty then
    empty bits
  else if ← range.isFull then
    full bits
  else if ← fitsUnsigned then
    pure ⟨bits, range.lower, range.upper⟩
  else
    let low ← range.signedMin
    let high ← range.signedMax
    let least ← Word.signedMin bits
    let greatest ← Word.signedMax bits
    if low < least ∨ greatest < high then full bits else ofSignedClosed bits low high
where
  fitsUnsigned : Except Fault Bool :=
    if range.isWrapped then
      pure false
    else do
      let mask ← Word.mask bits
      pure (decide (range.upper ≤ mask))

/-- The range at another width, elements read as signed numbers. -/
def resizeSigned (range : Range) (bits : UInt32) : Except Fault Range :=
  if range.bits < bits then
    range.signExtend bits
  else if bits < range.bits then
    range.truncate bits
  else
    pure range

/-- The range at another width, elements read as unsigned numbers. -/
def resizeUnsigned (range : Range) (bits : UInt32) : Except Fault Range :=
  if range.bits < bits then
    range.zeroExtend bits
  else if bits < range.bits then
    range.truncate bits
  else
    pure range

end StackBounds.Range
