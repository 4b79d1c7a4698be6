import StackBounds.Fresh
import StackBounds.Program.Function
import StackBounds.Range.Join
import StackBounds.Range.Resize
import StackBounds.Range.Sum

/-! Addresses and numbers: the signed range of a value, and an address as a root with a range of
byte offsets. Values that depend on themselves are cut where the dependence closes.
-/

namespace StackBounds

namespace Function

-----------------------------------------------------------------------------------------
-- Numbers
-----------------------------------------------------------------------------------------

/-- The width of a value read as a number: that of its integer type, else that of a pointer. -/
def width (pointer : PointerWidth) (value : Value) : UInt32 :=
  value.ty.intBits.getD pointer.bits

/-- The number of a constant that is not negative. -/
def nonNegative? (func : Function) (id : ValueId) : Except Fault (Option Int) := do
  let value ← func.value id
  pure ((value.immediate?.map (·.toInt)).filter (0 ≤ ·))

/-- A conjunction with a constant that is not negative lies between zero and the first such
constant.
-/
def maskedRange (func : Function) (bits : UInt32) (lhs rhs : ValueId) : Except Fault Range := do
  match ← func.nonNegative? lhs with
  | some mask => Range.ofSignedBounds bits 0 mask
  | none => do
    match ← func.nonNegative? rhs with
    | some mask => Range.ofSignedBounds bits 0 mask
    | none => Range.full bits

/-- The range of a sum, difference or product, from the extreme operands. -/
def binaryRange (op : BinaryOp) (bits : UInt32) (lhs rhs : Range) : Except Fault Range :=
  if lhs.isEmpty || rhs.isEmpty then
    Range.full bits
  else do
    let lhsMin ← lhs.signedMin
    let lhsMax ← lhs.signedMax
    let rhsMin ← rhs.signedMin
    let rhsMax ← rhs.signedMax
    match op with
    | .add => Range.ofSignedBounds bits (lhsMin + rhsMin) (lhsMax + rhsMax)
    | .sub => Range.ofSignedBounds bits (lhsMin - rhsMax) (lhsMax - rhsMin)
    | .mul =>
        let low := min (min (lhsMin * rhsMin) (lhsMin * rhsMax))
          (min (lhsMax * rhsMin) (lhsMax * rhsMax))
        let high := max (max (lhsMin * rhsMin) (lhsMin * rhsMax))
          (max (lhsMax * rhsMin) (lhsMax * rhsMax))
        Range.ofSignedBounds bits low high
    | _ => Range.full bits

section Operands

-- How operands are evaluated is left open: each evaluation has its own way to cut a dependence.
variable {m : Type → Type} [Monad m] [MonadLiftT (Except Fault) m]

/-- The range of an instruction's result, from those of its operands. -/
def instRange (func : Function) (bits : UInt32) (operand : ValueId → m Range) : Inst → m Range
  | .binary .and lhs rhs => func.maskedRange bits lhs rhs
  | .binary op lhs rhs => do
      let lhsRange ← operand lhs
      let rhsRange ← operand rhs
      binaryRange op bits lhsRange rhsRange
  | .cast op arg _ => do
      let range ← operand arg
      match op with
      | .sext => range.resizeSigned bits
      | .trunc => range.resizeSigned bits
      | .bitcast => range.resizeSigned bits
      | .zext => range.resizeUnsigned bits
      | .ptrToInt => Range.full bits
      | .intToPtr => Range.full bits
  | .select _ then_ else_ => do
      let thenRange ← operand then_
      let elseRange ← operand else_
      thenRange.union .signed elseRange
  | .phi values _ _ => do
      let start ← Range.empty bits
      values.foldlM (fun known value => do known.union .signed (← operand value)) start
  | _ => Range.full bits

end Operands

/-- The signed range of a value. A value that is not fresh is being evaluated already, so it
depends on itself and may be any number.
-/
def rangeOf (func : Function) (pointer : PointerWidth) (fresh : List ValueId) (id : ValueId)
    : Except Fault Range := do
  let value ← func.value id
  let bits := width pointer value
  match value with
  | .constant imm => Range.singleton bits imm.toInt
  | .argument _ _ => Range.full bits
  | .result inst _ =>
    if h : id ∈ fresh then do
      have := length_erase_lt h
      func.instRange bits (func.rangeOf pointer (fresh.erase id)) (← func.inst inst)
    else
      Range.full bits
termination_by fresh.length

/-- The signed range of a value at the width of its type. -/
def signedRange (func : Function) (pointer : PointerWidth) (id : ValueId) : Except Fault Range :=
  func.rangeOf pointer func.valueIds id

-----------------------------------------------------------------------------------------
-- Addresses
-----------------------------------------------------------------------------------------

/-- An address as a root that is moved by one of the offsets. -/
structure Rooted where
  root : ValueId
  offset : Range
  deriving DecidableEq, Repr

/-- Moves an offset by another one; unknown when either is unusable. -/
def addOffsets (first second : Range) : Except Fault Range := do
  if ← first.isUnusable then
    Range.full first.bits
  else if ← second.isUnusable then
    Range.full first.bits
  else
    first.addSigned second

/-- The largest size of an element by which an index is multiplied: the greatest signed word. -/
def maxElemSize : Nat := UInt64.size / 2 - 1

/-- Moves a rooted address. -/
def Rooted.move (offset : Range) (rooted : Rooted) : Except Fault Rooted := do
  pure { rooted with offset := ← addOffsets rooted.offset offset }

section Operands

variable {m : Type → Type} [Monad m] [MonadLiftT (Except Fault) m]

/-- The byte offset of an index, which is evaluated only where it is multiplied. -/
def elemOffset (pointer : PointerWidth) (elem : Ty) (index : m Range) : m Range :=
  match (elem.size pointer).fixed?.filter (· ≤ maxElemSize) with
  | some size => do
    let range ← (← index).resizeSigned pointer.bits
    range.scale size
  | none => Range.full pointer.bits

/-- Merges addresses that have one root, from left to right. There is no result when one of
them has none or another root.
-/
def mergeRooted (rooted : ValueId → m (Option Rooted))
    : Option Rooted → List ValueId → m (Option Rooted)
  | merged, [] => pure merged
  | merged, addr :: rest => do
    match ← rooted addr, merged with
    | none, _ => pure none
    | some next, none => mergeRooted rooted (some next) rest
    | some next, some known =>
      if known.root = next.root then do
        let offset ← known.offset.cover next.offset
        mergeRooted rooted (some ⟨next.root, offset⟩) rest
      else
        pure none

/-- An instruction's result as a rooted address, from its operands. -/
def instRooted (pointer : PointerWidth) (addr : ValueId) (number : ValueId → m Range)
    (rooted : ValueId → m (Option Rooted))
    : Inst → m (Option Rooted)
  | .cast .bitcast arg _ => rooted arg
  | .ptrAdd base offset => do
      let offset ← (← number offset).resizeSigned pointer.bits
      let base ← rooted base
      liftM (base.mapM (Rooted.move offset))
  | .elemPtr base index elem => do
      let offset ← elemOffset pointer elem (number index)
      let base ← rooted base
      liftM (base.mapM (Rooted.move offset))
  | .select _ then_ else_ => mergeRooted rooted none [then_, else_]
  | .phi values _ _ => mergeRooted rooted none values
  | _ => do pure (some ⟨addr, ← Range.singleton pointer.bits 0⟩)

end Operands

/-- An address as a root and an offset. There is no result when it merges different roots or
depends on itself.
-/
def decompose (func : Function) (pointer : PointerWidth) (fresh : List ValueId) (addr : ValueId)
    : Except Fault (Option Rooted) := do
  match ← func.value addr with
  | .result inst _ =>
    if h : addr ∈ fresh then do
      have := length_erase_lt h
      let rest := fresh.erase addr
      instRooted pointer addr (func.rangeOf pointer rest) (func.decompose pointer rest)
        (← func.inst inst)
    else
      pure none
  | _ => do pure (some ⟨addr, ← Range.singleton pointer.bits 0⟩)
termination_by fresh.length

/-- The byte offsets of an address from a base; full when they are not known. -/
def offsetFrom (func : Function) (pointer : PointerWidth) (addr base : ValueId)
    : Except Fault Range := do
  match ← func.decompose pointer func.valueIds addr with
  | some rooted =>
      if rooted.root = base then pure rooted.offset else Range.full pointer.bits
  | none => Range.full pointer.bits

end Function

end StackBounds
