import StackBounds.Program.Value

/-! Instructions: what they read, where they can continue, and how they are named. -/

namespace StackBounds

/-- The number of a function in its module. -/
structure FunctionId where
  index : Nat
  deriving DecidableEq, Repr, Inhabited

instance : Ord FunctionId := ⟨compareOn FunctionId.index⟩

instance : Std.TransOrd FunctionId := inferInstanceAs (Std.TransCmp (compareOn FunctionId.index))

instance : Std.LawfulEqOrd FunctionId where
  eq_of_compare same := congrArg FunctionId.mk (Std.LawfulEqOrd.eq_of_compare same)

/-- The number of an alias in its module. -/
structure AliasId where
  index : Nat
  deriving DecidableEq, Repr, Inhabited

/-- A symbol of a module that can be called. -/
inductive Global
  | function (id : FunctionId)
  | aliased (id : AliasId)
  deriving DecidableEq, Repr

/-- Arithmetic and comparison of two values. -/
inductive BinaryOp
  | add
  | sub
  | mul
  | and
  | or
  | eq
  | slt
  deriving DecidableEq, Repr

namespace BinaryOp

/-- The name of an operation. -/
def text : BinaryOp → String
  | .add => "add"
  | .sub => "sub"
  | .mul => "mul"
  | .and => "and"
  | .or => "or"
  | .eq => "eq"
  | .slt => "slt"

/-- The operation compares, so its result is one bit. -/
def isComparison (op : BinaryOp) : Bool := op == .eq || op == .slt

end BinaryOp

/-- Conversions of a value to another type. -/
inductive CastOp
  | sext
  | zext
  | trunc
  | bitcast
  | ptrToInt
  | intToPtr
  deriving DecidableEq, Repr

/-- The name of a conversion. -/
def CastOp.text : CastOp → String
  | .sext => "sext"
  | .zext => "zext"
  | .trunc => "trunc"
  | .bitcast => "bitcast"
  | .ptrToInt => "ptr_to_int"
  | .intToPtr => "int_to_ptr"

/-- Copies of bytes between two addresses. -/
inductive TransferOp
  | copy
  | move
  deriving DecidableEq, Repr

/-- The name of a transfer. -/
def TransferOp.text : TransferOp → String
  | .copy => "memcpy"
  | .move => "memmove"

/-- The two ends of the lifetime of an allocation. -/
inductive LifetimeOp
  | start
  | stop
  deriving DecidableEq, Repr

/-- The name of a lifetime marker. -/
def LifetimeOp.text : LifetimeOp → String
  | .start => "lifetime_start"
  | .stop => "lifetime_end"

/-- What a call calls. -/
inductive CallTarget
  | direct (callee : Global)
  | indirect (callee : ValueId)
  deriving DecidableEq, Repr

/-- A call: its target, its arguments, the arguments passed by value with the type of the
copy, and the type of the result.
-/
structure Call where
  target : CallTarget
  args : List ValueId
  byValue : List (Nat × Ty)
  ret : Ty
  deriving DecidableEq, Repr

namespace Call

/-- The values a call reads: the arguments, then the callee of an indirect call. -/
def operands (call : Call) : List ValueId :=
  match call.target with
  | .direct _ => call.args
  | .indirect callee => call.args ++ [callee]

/-- The type of the copy made of an argument that is passed by value. -/
def byValueTy? (call : Call) (arg : Nat) : Option Ty :=
  (call.byValue.find? fun entry => entry.1 == arg).map (·.2)

end Call

/-- An instruction. -/
inductive Inst
  /-- Allocates `count` objects on the stack, one when absent. -/
  | alloca (ty : Ty) (count : Option ValueId)
  | load (addr : ValueId) (ty : Ty)
  | store (addr value : ValueId)
  /-- Moves an address by a number of bytes. -/
  | ptrAdd (base offset : ValueId)
  /-- Moves an address by a number of elements. -/
  | elemPtr (base index : ValueId) (elem : Ty)
  | cast (op : CastOp) (arg : ValueId) (ty : Ty)
  | binary (op : BinaryOp) (lhs rhs : ValueId)
  | select (cond then_ else_ : ValueId)
  | phi (values : List ValueId) (blocks : List BlockId) (ty : Ty)
  | call (made : Call)
  /-- A call that continues at one block when it returns and at another when it unwinds. -/
  | invoke (made : Call) (normal unwind : BlockId)
  | memTransfer (op : TransferOp) (dest src length : ValueId)
  | memSet (dest value length : ValueId)
  | lifetime (op : LifetimeOp) (size : UInt64) (addr : ValueId)
  /-- Reads the next argument of a variadic call. -/
  | vaArg (list : ValueId) (ty : Ty)
  | jump (dest : BlockId)
  | branch (cond : ValueId) (then_ else_ : BlockId)
  | ret (value : Option ValueId)
  | unreachable
  deriving DecidableEq, Repr

/-- How an instruction passes control to other blocks. -/
inductive Branching
  | none
  | jump (dest : BlockId)
  | branch (then_ else_ : BlockId)
  | invoke (normal unwind : BlockId)
  deriving DecidableEq, Repr

/-- The blocks that control can continue at. -/
def Branching.dests : Branching → List BlockId
  | .none => []
  | .jump dest => [dest]
  | .branch then_ else_ => [then_, else_]
  | .invoke normal unwind => [normal, unwind]

namespace Inst

/-- The values an instruction reads. The position of a value in this list is its operand
number; the arguments of a call come first, so theirs is the argument number.
-/
def operands : Inst → List ValueId
  | .alloca _ count => count.toList
  | .load addr _ => [addr]
  | .store addr value => [value, addr]
  | .ptrAdd base offset => [base, offset]
  | .elemPtr base index _ => [base, index]
  | .cast _ arg _ => [arg]
  | .binary _ lhs rhs => [lhs, rhs]
  | .select cond then_ else_ => [cond, then_, else_]
  | .phi values _ _ => values
  | .call made => made.operands
  | .invoke made _ _ => made.operands
  | .memTransfer _ dest src length => [dest, src, length]
  | .memSet dest value length => [dest, value, length]
  | .lifetime _ _ addr => [addr]
  | .vaArg list _ => [list]
  | .jump _ => []
  | .branch cond _ _ => [cond]
  | .ret value => value.toList
  | .unreachable => []

/-- How the instruction passes control on. -/
def branching : Inst → Branching
  | .jump dest => .jump dest
  | .branch _ then_ else_ => .branch then_ else_
  | .invoke _ normal unwind => .invoke normal unwind
  | _ => .none

/-- The instruction ends a block. -/
def isTerminator : Inst → Bool
  | .jump _ => true
  | .branch _ _ _ => true
  | .invoke _ _ _ => true
  | .ret _ => true
  | .unreachable => true
  | _ => false

/-- The call an instruction makes. -/
def call? : Inst → Option Call
  | .call made => some made
  | .invoke made _ _ => some made
  | _ => none

/-- The instruction allocates on the stack. -/
def isAlloca : Inst → Bool
  | .alloca _ _ => true
  | _ => false

end Inst

end StackBounds
