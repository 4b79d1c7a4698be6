import StackBounds.Program.Type

/-! Values of a function and the numbers that name its parts. -/

namespace StackBounds

/-- The number of a value in its function. -/
structure ValueId where
  index : Nat
  deriving DecidableEq, Repr, Inhabited

instance : Ord ValueId := ⟨compareOn ValueId.index⟩

instance : Std.TransOrd ValueId := inferInstanceAs (Std.TransCmp (compareOn ValueId.index))

instance : Std.LawfulEqOrd ValueId where
  eq_of_compare same := congrArg ValueId.mk (Std.LawfulEqOrd.eq_of_compare same)

/-- The number of an instruction in its function. -/
structure InstId where
  index : Nat
  deriving DecidableEq, Repr, Inhabited

instance : Ord InstId := ⟨compareOn InstId.index⟩

instance : Std.TransOrd InstId := inferInstanceAs (Std.TransCmp (compareOn InstId.index))

instance : Std.LawfulEqOrd InstId where
  eq_of_compare same := congrArg InstId.mk (Std.LawfulEqOrd.eq_of_compare same)

/-- The number of a block in its function. -/
structure BlockId where
  index : Nat
  deriving DecidableEq, Repr, Inhabited

instance : Ord BlockId := ⟨compareOn BlockId.index⟩

instance : Std.TransOrd BlockId := inferInstanceAs (Std.TransCmp (compareOn BlockId.index))

instance : Std.LawfulEqOrd BlockId where
  eq_of_compare same := congrArg BlockId.mk (Std.LawfulEqOrd.eq_of_compare same)

/-- The text of a value number. -/
def ValueId.text (value : ValueId) : String := "v" ++ toString value.index

/-- The text of an instruction number. -/
def InstId.text (inst : InstId) : String := "inst" ++ toString inst.index

/-- The text of a block number. -/
def BlockId.text (block : BlockId) : String := "block" ++ toString block.index

/-- A constant of an integer type. -/
inductive Immediate
  | i1 (value : Bool)
  | i8 (value : Int8)
  | i16 (value : Int16)
  | i32 (value : Int32)
  | i64 (value : Int64)
  deriving DecidableEq, Repr

namespace Immediate

/-- The type of a constant. -/
def ty : Immediate → Ty
  | .i1 _ => .i1
  | .i8 _ => .i8
  | .i16 _ => .i16
  | .i32 _ => .i32
  | .i64 _ => .i64

/-- The signed number of a constant; a true bit is minus one. -/
def toInt : Immediate → Int
  | .i1 value => if value then -1 else 0
  | .i8 value => value.toInt
  | .i16 value => value.toInt
  | .i32 value => value.toInt
  | .i64 value => value.toInt

/-- The text of a constant; a true bit is written as one. -/
def text : Immediate → String
  | .i1 value => if value then "1" else "0"
  | .i8 value => toString value.toInt
  | .i16 value => toString value.toInt
  | .i32 value => toString value.toInt
  | .i64 value => toString value.toInt

end Immediate

/-- Where a value comes from. -/
inductive Value
  /-- The result of an instruction. -/
  | result (inst : InstId) (ty : Ty)
  /-- An argument of the function. -/
  | argument (ty : Ty) (index : Nat)
  /-- A constant. -/
  | constant (imm : Immediate)
  deriving DecidableEq, Repr

namespace Value

/-- The type of a value. -/
def ty : Value → Ty
  | .result _ ty => ty
  | .argument ty _ => ty
  | .constant imm => imm.ty

/-- The instruction a value is the result of. -/
def inst? : Value → Option InstId
  | .result inst _ => some inst
  | _ => none

/-- The constant a value is. -/
def immediate? : Value → Option Immediate
  | .constant imm => some imm
  | _ => none

end Value

end StackBounds
