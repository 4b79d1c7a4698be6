import Mathlib.Data.Set.Defs
import StackBounds.Verdict

/-! What a module can do with an address, said without the analysis: the bit vectors that values
can be, the places that addresses can point to, and what happens along chains of calls to an
address and to everything derived from it.
-/

namespace StackBounds

-----------------------------------------------------------------------------------------
-- Numbers
-----------------------------------------------------------------------------------------

/-- The bit vectors that each value of a function can be, at each width. -/
abbrev Possible := ValueId → (bits : Nat) → Set (BitVec bits)

/-- A bit vector can be the result of an instruction, from what its operands can be. What is not
listed can result in anything.
-/
def Inst.Yields (possible : Possible) {bits : Nat} (result : BitVec bits) : Inst → Prop
  | .binary .add lhs rhs => ∃ x ∈ possible lhs bits, ∃ y ∈ possible rhs bits, result = x + y
  | .binary .sub lhs rhs => ∃ x ∈ possible lhs bits, ∃ y ∈ possible rhs bits, result = x - y
  | .binary .mul lhs rhs => ∃ x ∈ possible lhs bits, ∃ y ∈ possible rhs bits, result = x * y
  | .binary .and lhs rhs => ∃ x ∈ possible lhs bits, ∃ y ∈ possible rhs bits, result = x &&& y
  | .cast .sext arg _ => ∃ narrow, ∃ x ∈ possible arg narrow, result = x.signExtend bits
  | .cast .zext arg _ => ∃ narrow, ∃ x ∈ possible arg narrow, result = x.setWidth bits
  | .cast .trunc arg _ =>
      ∃ wide, bits ≤ wide ∧ ∃ x ∈ possible arg wide, result = x.setWidth bits
  -- A bit cast to another width extends the sign or drops the high bits.
  | .cast .bitcast arg _ => ∃ other, ∃ x ∈ possible arg other, result = x.signExtend bits
  | .select _ then_ else_ => result ∈ possible then_ bits ∨ result ∈ possible else_ bits
  | .phi values _ _ => ∃ value ∈ values, result ∈ possible value bits
  | _ => True

/-- The possible bit vectors of a function have the widths of their values, and each of them comes
from those of the operands. Arguments are free.
-/
structure Possible.Closed (possible : Possible) (func : Function) (pointer : PointerWidth)
    : Prop where
  width : ∀ {id value bits} {vector : BitVec bits}, func.value id = .ok value
    → vector ∈ possible id bits → bits = (Function.width pointer value).toNat
  constant : ∀ {id imm bits} {vector : BitVec bits}, func.value id = .ok (.constant imm)
    → vector ∈ possible id bits → vector = BitVec.ofInt bits imm.toInt
  result : ∀ {id inst ty op bits} {vector : BitVec bits}, func.value id = .ok (.result inst ty)
    → func.inst inst = .ok op → vector ∈ possible id bits → op.Yields possible vector

/-- Nothing is possible, so whatever is possible comes from something. -/
theorem Possible.closed_empty (func : Function) (pointer : PointerWidth)
    : Possible.Closed (fun _ _ => ∅) func pointer :=
  ⟨fun _ never => never.elim, fun _ never => never.elim, fun _ _ never => never.elim⟩

-----------------------------------------------------------------------------------------
-- Control
-----------------------------------------------------------------------------------------

/-- Control can come from the entry to a block. -/
inductive Flow.Reaches (flow : Flow) : BlockId → Prop
  | entry {block} (first : flow.entry = some block) : flow.Reaches block
  | edge {block next}
    (reached : flow.Reaches block) (edge : (block, next) ∈ flow.edges)
    : flow.Reaches next

namespace MarkedFlow

/-- Control can come to an instruction. -/
def Executes (marked : MarkedFlow) (inst : InstId) : Prop :=
  ∃ block, marked.func.blockOf inst = some block ∧ marked.flow.Reaches block

/-- Control can come to a block with an allocation alive or dead. It is dead at first, and its
markers change that.
-/
inductive Enters (marked : MarkedFlow) (alloca : InstId) : BlockId → Bool → Prop
  | entry {block} (first : marked.flow.entry = some block) : marked.Enters alloca block false
  | edge {block next alive}
    (entered : marked.Enters alloca block alive) (edge : (block, next) ∈ marked.flow.edges)
    : marked.Enters alloca next (marked.through alloca alive (marked.func.instsOf block))

/-- An allocation with lifetime markers can be dead right after an instruction. -/
def CanBeDead (marked : MarkedFlow) (alloca inst : InstId) : Prop :=
  alloca ∈ marked.tracked ∧ ∃ block alive, marked.func.blockOf inst = some block
    ∧ marked.Enters alloca block alive
    ∧ marked.through alloca alive (Lifetime.upTo inst (marked.func.instsOf block)) = false

end MarkedFlow

-----------------------------------------------------------------------------------------
-- Addresses
-----------------------------------------------------------------------------------------

/-- A run can find the size to be a number of bytes: the size itself, or any larger number when
the size is the least one of a scalable type or was cut.
-/
def TypeSize.Admits (size : TypeSize) (bytes : Nat) : Prop :=
  if size.scalable ∨ size.bytes = maxBytes then size.bytes ≤ bytes else bytes = size.bytes

/-- The instruction results in an address that is made from an operand. -/
def Inst.movesAddress : Inst → Bool
  | .cast .bitcast _ _ => true
  | .ptrAdd _ _ => true
  | .elemPtr _ _ _ => true
  | .select _ _ _ => true
  | .phi _ _ _ => true
  | _ => false

/-- The value is not the result of an instruction that moves an address. -/
def Function.IsRoot (func : Function) (id : ValueId) : Prop :=
  ∃ value, func.value id = .ok value
    ∧ ∀ inst, value.inst? = some inst → ∃ op, func.inst inst = .ok op ∧ op.movesAddress = false

/-- An address can point a number of bytes behind a root. -/
inductive Function.Points (func : Function) (pointer : PointerWidth) (possible : Possible)
    : ValueId → ValueId → Int → Prop
  | root {addr} (own : func.IsRoot addr) : func.Points pointer possible addr addr 0
  | bitcast {addr inst ty arg target root offset}
    (value : func.value addr = .ok (.result inst ty))
    (op : func.inst inst = .ok (.cast .bitcast arg target))
    (points : func.Points pointer possible arg root offset)
    : func.Points pointer possible addr root offset
  | ptrAdd {addr inst ty base number root offset bits} {step : BitVec bits}
    (value : func.value addr = .ok (.result inst ty))
    (op : func.inst inst = .ok (.ptrAdd base number))
    (points : func.Points pointer possible base root offset)
    (can : step ∈ possible number bits)
    : func.Points pointer possible addr root
        (offset + (step.signExtend pointer.bits.toNat).toInt)
  | elemPtr {addr inst ty base index elem root offset bits bytes} {step : BitVec bits}
    (value : func.value addr = .ok (.result inst ty))
    (op : func.inst inst = .ok (.elemPtr base index elem))
    (points : func.Points pointer possible base root offset)
    (can : step ∈ possible index bits)
    (size : (elem.size pointer).Admits bytes)
    : func.Points pointer possible addr root
        (offset + (step.signExtend pointer.bits.toNat).toInt * bytes)
  | select {addr inst ty cond then_ else_ arm root offset}
    (value : func.value addr = .ok (.result inst ty))
    (op : func.inst inst = .ok (.select cond then_ else_))
    (taken : arm ∈ [then_, else_])
    (points : func.Points pointer possible arm root offset)
    : func.Points pointer possible addr root offset
  | phi {addr inst ty values blocks merged input root offset}
    (value : func.value addr = .ok (.result inst ty))
    (op : func.inst inst = .ok (.phi values blocks merged))
    (taken : input ∈ values)
    (points : func.Points pointer possible input root offset)
    : func.Points pointer possible addr root offset

/-- The value is computed from a base by reachable instructions that neither access memory nor let
the base out of sight.
-/
inductive Function.Derived (func : Function) (marked : MarkedFlow) (base : ValueId)
    : ValueId → Prop
  | base : func.Derived marked base base
  | result {value inst op ty result}
    (source : func.Derived marked base value)
    (executes : marked.Executes inst)
    (found : func.inst inst = .ok op)
    (derives : op.derives = true)
    (operand : value ∈ op.operands)
    (results : func.value result = .ok (.result inst ty))
    : func.Derived marked base result

-----------------------------------------------------------------------------------------
-- Uses
-----------------------------------------------------------------------------------------

/-- How many bytes an access touches. -/
inductive Extent
  /-- The size of a type. -/
  | object (ty : Ty)
  /-- The size of the type of a stored value. -/
  | stored (value : ValueId)
  /-- The number in a value, read as unsigned. -/
  | bulk (length : ValueId)
  deriving Repr

/-- What an instruction does with an address in an operand. -/
inductive Role
  /-- Accesses bytes at the address. -/
  | access (extent : Extent)
  /-- Passes the address to a parameter of a symbol. -/
  | pass (callee : Global) (param : Nat)
  /-- Lets the address out of sight. -/
  | leak
  /-- None of these. -/
  | other
  deriving Repr

/-- The role of an operand of a call. An argument passed by value is read by the caller. -/
def Call.role (call : Call) (operand : Nat) : Role :=
  if operand < call.args.length then
    match call.byValueTy? operand, call.target with
    | some ty, _ => .access (.object ty)
    | none, .direct callee => .pass callee operand
    | none, .indirect _ => .leak
  else
    .leak

theorem Call.role_ne_bulk (call : Call) (operand : Nat) (length : ValueId)
    : call.role operand ≠ .access (.bulk length) := by
  unfold role
  split
  · split <;> exact nofun
  · exact nofun

/-- The role of an operand of an instruction. -/
def Inst.role (operand : Nat) : Inst → Role
  | .load _ ty => .access (.object ty)
  | .store _ value => if operand = 0 then .leak else .access (.stored value)
  | .ret _ => .leak
  | .memTransfer _ _ _ length => if operand ≤ 1 then .access (.bulk length) else .other
  | .memSet _ _ length => if operand = 0 then .access (.bulk length) else .other
  | .call made => made.role operand
  | .invoke made _ _ => made.role operand
  | _ => .other

/-- The instruction works on memory, so the allocations behind its operands must be alive. -/
def Inst.usesMemory : Inst → Bool
  | .load _ _ => true
  | .store _ _ => true
  | .memTransfer _ _ _ _ => true
  | .memSet _ _ _ => true
  | .call _ => true
  | .invoke _ _ _ => true
  | _ => false

/-- An access can touch a number of bytes. -/
def Extent.Spans (func : Function) (pointer : PointerWidth) (possible : Possible) (bytes : Nat)
    : Extent → Prop
  | .object ty => (ty.size pointer).Admits bytes
  | .stored value => ∃ ty, func.valueTy value = .ok ty ∧ (ty.size pointer).Admits bytes
  | .bulk length =>
      ∃ bits, ∃ x ∈ possible length bits, bytes = (x.setWidth pointer.bits.toNat).toNat

/-- An allocation makes room for a number of bytes that is the same on every run. -/
def Function.AllocaSize (func : Function) (pointer : PointerWidth) (alloca : InstId) (size : Int)
    : Prop :=
  ∃ ty count elem number, func.inst alloca = .ok (.alloca ty count)
    ∧ (ty.size pointer).fixed? = some elem ∧ func.allocaCount count = .ok (some number)
    ∧ size = elem * number

/-- The parameter is a pointer to what the caller owns. -/
def Signature.Takes (sig : Signature) (param : Nat) : Prop :=
  sig.params[param]? = some .ptr ∧ sig.isByValue param = false

/-- An address in a function: the value that holds it, and the allocation it is, if the function
made that.
-/
structure Place where
  func : FunctionId
  base : ValueId
  alloca : Option InstId

/-- A use of a value by an instruction of a function. -/
structure Use where
  func : Function
  marked : MarkedFlow
  value : ValueId
  site : UseSite
  inst : Inst

/-- What the use does with the value. -/
def Use.role (use : Use) : Role := use.inst.role use.site.operand

namespace Module

/-- The use is one of the address at a place, or of a value derived from it, that control can come
to.
-/
structure UsedAt (unit : Module) (place : Place) (use : Use) : Prop where
  function : unit.function place.func = .ok use.func
  control : MarkedFlow.ofFunction use.func = .ok use.marked
  derived : use.func.Derived use.marked place.base use.value
  executes : use.marked.Executes use.site.inst
  inst : use.func.inst use.site.inst = .ok use.inst
  operand : use.inst.operands[use.site.operand]? = some use.value

/-- A call to the symbol runs the function, and its parameter takes the caller's address. -/
structure Receives (unit : Module) (callee : Global) (param : Nat) (target : FunctionId)
    : Prop where
  bound : unit.boundFunction callee = .ok (some target)
  takes : ∃ func, unit.function target = .ok func ∧ func.sig.Takes param

/-- Parameters and arguments are counted with 32 bits. -/
structure Numbered (unit : Module) : Prop where
  params : ∀ func ∈ unit.functions, func.sig.params.length ≤ UInt32.size
  args : ∀ func ∈ unit.functions, ∀ inst ∈ func.insts, ∀ call ∈ inst.call?,
    call.args.length ≤ UInt32.size

-----------------------------------------------------------------------------------------
-- Chains of calls
-----------------------------------------------------------------------------------------

section Chains

variable (unit : Module) (possible : FunctionId → Possible)

/-- Where a used value can point, as a distance from the start, when its place is at a known
distance. There is no number for a pointer to another root.
-/
def Position (place : Place) (shift : Option Int) (use : Use) (position : Option Int) : Prop :=
  ∃ root offset,
    use.func.Points unit.pointerWidth (possible place.func) use.value root offset
      ∧ position = if root = place.base then shift.map (· + offset) else none

variable (start : Place)

/-- The address at the start comes to a place through calls, moved by a distance. -/
inductive Carried : Place → Option Int → Prop
  | start : Carried start (some 0)
  | call {place shift use callee param target position}
    (carried : Carried place shift)
    (used : unit.UsedAt place use)
    (passed : use.role = .pass callee param)
    (received : unit.Receives callee param target)
    (moved : unit.Position possible place shift use position)
    : Carried ⟨target, ⟨param⟩, none⟩ position

/-- A byte is accessed through the address at the start, given by its distance if that is known. -/
inductive Touches : Option Int → Prop
  | access {place shift use extent position bytes} {index : Nat}
    (carried : unit.Carried possible start place shift)
    (used : unit.UsedAt place use)
    (accessed : use.role = .access extent)
    (moved : unit.Position possible place shift use position)
    (spans : extent.Spans use.func unit.pointerWidth (possible place.func) bytes)
    (inside : index < bytes)
    : Touches (position.map (· + index))

/-- Some use of the address at the start cannot be followed, or can come when the allocation is
dead.
-/
inductive Lost : Prop
  | leak {place shift use}
    (carried : unit.Carried possible start place shift)
    (used : unit.UsedAt place use)
    (leaked : use.role = .leak)
  | unreceived {place shift use callee param}
    (carried : unit.Carried possible start place shift)
    (used : unit.UsedAt place use)
    (passed : use.role = .pass callee param)
    (unknown : ¬ ∃ target, unit.Receives callee param target)
  | dead {place shift use alloca}
    (carried : unit.Carried possible start place shift)
    (used : unit.UsedAt place use)
    (memory : use.inst.usesMemory = true)
    (made : place.alloca = some alloca)
    (ended : use.marked.CanBeDead alloca use.site.inst)

/-- Some memory operation on the address at the start can run with a length of at least half the
address space, which is a negative number when it is read as signed.
-/
inductive Overlong : Prop
  | bulk {place shift use length position bits} {x : BitVec bits}
    (carried : unit.Carried possible start place shift)
    (used : unit.UsedAt place use)
    (accessed : use.role = .access (.bulk length))
    (moved : unit.Position possible place shift use position)
    (can : x ∈ possible place.func length bits)
    (long : Word.half unit.pointerWidth.bits ≤ (x.setWidth unit.pointerWidth.bits.toNat).toNat)

end Chains

end Module

end StackBounds
