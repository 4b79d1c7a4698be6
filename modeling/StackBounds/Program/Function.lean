import StackBounds.Program.Instruction
import StackBounds.Program.Linkage

/-! Functions: a signature, numbered values and instructions, and the order of the blocks.
What uses a value, what an instruction results in and where it stands are read off these.
-/

namespace StackBounds

/-- The outside of a function. -/
structure Signature where
  name : String
  linkage : Linkage
  /-- The definition in this linkage unit is the one that is called. -/
  dsoLocal : Bool
  params : List Ty
  /-- Pointer parameters whose target is a copy made by the caller. -/
  byValue : List Nat
  ret : Ty
  /-- The function is compiled with memory tagging. -/
  memtag : Bool
  deriving DecidableEq, Repr

namespace Signature

/-- A signature as declared: a symbol of another module can be preempted, all others not. -/
def declared (name : String) (linkage : Linkage) (params : List Ty) (ret : Ty) : Signature where
  name
  linkage
  dsoLocal := linkage != .external
  params
  byValue := []
  ret
  memtag := false

/-- A parameter is passed by value. -/
def isByValue (sig : Signature) (index : Nat) : Bool := sig.byValue.contains index

/-- Marks a pointer parameter as passed by value. -/
def withByValue (sig : Signature) (index : Nat) : Except Fault Signature :=
  match sig.params[index]? with
  | some .ptr =>
      pure (if sig.isByValue index then sig else { sig with byValue := sig.byValue ++ [index] })
  | _ => throw (.byValueParam index)

end Signature

/-- A placed block with its instructions in order. -/
structure PlacedBlock where
  id : BlockId
  insts : List InstId
  deriving DecidableEq, Repr

/-- A place where a value is read: an instruction and an operand number. -/
structure UseSite where
  inst : InstId
  operand : Nat
  deriving DecidableEq, Repr

/-- A function. Values and instructions are numbered by their position; a function without
placed blocks is a declaration.
-/
structure Function where
  sig : Signature
  values : List Value
  insts : List Inst
  /-- How many blocks have been made. -/
  blockCount : Nat
  layout : List PlacedBlock
  deriving DecidableEq, Repr

namespace Function

/-- A function without a body: its first values are its arguments. -/
def ofSignature (sig : Signature) : Function where
  sig
  values := sig.params.zipIdx.map fun (ty, index) => .argument ty index
  insts := []
  blockCount := 0
  layout := []

/-- The values of the parameters. -/
def args (func : Function) : List ValueId :=
  (List.range func.sig.params.length).map ValueId.mk

/-- The function has no body here. -/
def isDeclaration (func : Function) : Bool := func.layout.isEmpty

/-- The value with a number. -/
def value (func : Function) (id : ValueId) : Except Fault Value :=
  match func.values[id.index]? with
  | some value => pure value
  | none => throw (.dangling .value id.index)

/-- The instruction with a number. -/
def inst (func : Function) (id : InstId) : Except Fault Inst :=
  match func.insts[id.index]? with
  | some inst => pure inst
  | none => throw (.dangling .inst id.index)

/-- The type of a value. -/
def valueTy (func : Function) (id : ValueId) : Except Fault Ty := do
  pure (← func.value id).ty

/-- The numbers of all values. -/
def valueIds (func : Function) : List ValueId :=
  (List.range func.values.length).map ValueId.mk

/-- The numbers of all instructions. -/
def instIds (func : Function) : List InstId :=
  (List.range func.insts.length).map InstId.mk

/-- The instructions that read a value, in the order of their numbers. -/
def users (func : Function) (id : ValueId) : List InstId :=
  func.insts.zipIdx.filterMap fun (inst, index) =>
    if inst.operands.contains id then some ⟨index⟩ else none

/-- The places where a value is read, one for each operand. -/
def uses (func : Function) (id : ValueId) : List UseSite :=
  func.insts.zipIdx.flatMap fun (inst, index) =>
    inst.operands.zipIdx.filterMap fun (operand, position) =>
      if operand = id then some ⟨⟨index⟩, position⟩ else none

/-- The value that an instruction results in. -/
def resultOf (func : Function) (id : InstId) : Option ValueId :=
  (func.values.findIdx? fun value => value.inst? == some id).map ValueId.mk

/-- The placed blocks, in order. -/
def blocks (func : Function) : List BlockId := func.layout.map (·.id)

/-- The first block. -/
def entry? (func : Function) : Option BlockId := func.layout.head?.map (·.id)

/-- The instructions of a block, in order; none for a block that is not placed. -/
def instsOf (func : Function) (id : BlockId) : List InstId :=
  ((func.layout.find? fun block => block.id == id).map (·.insts)).getD []

/-- The placed instructions, block by block. -/
def placedInsts (func : Function) : List InstId := func.layout.flatMap (·.insts)

/-- The block that an instruction stands in. -/
def blockOf (func : Function) (id : InstId) : Option BlockId :=
  (func.layout.find? fun block => block.insts.contains id).map (·.id)

end Function

end StackBounds
