import StackBounds.Program.Function
import StackBounds.Table

/-! Functions as they are stored while they grow. Beside its values, instructions and blocks, a
function keeps tables: which value holds a constant, what an instruction results in, what reads a
value, what stands in a block and where an instruction stands. Whatever is made is entered in all
of them.
-/

namespace StackBounds

/-- A function with its tables. -/
structure StoredFunction where
  sig : Signature
  /-- How many blocks have been made. -/
  blockCount : Nat
  values : List Value
  insts : List Inst
  /-- The values that instructions result in. -/
  results : Table InstId ValueId
  /-- The values that hold constants. -/
  immediates : List (Immediate × ValueId)
  /-- The sets of instructions that read a value. -/
  users : Table ValueId (Table InstId Unit)
  /-- The placed blocks, in order. -/
  blocks : List BlockId
  /-- The instructions of blocks, in order. -/
  lists : Table BlockId (List InstId)
  /-- The blocks that instructions stand in. -/
  places : Table InstId BlockId
  deriving DecidableEq, Repr

namespace StoredFunction

-----------------------------------------------------------------------------------------
-- Reading the tables
-----------------------------------------------------------------------------------------

/-- The instructions that read a value, in the order of their numbers. -/
def usersOf (stored : StoredFunction) (id : ValueId) : List InstId :=
  ((stored.users.get? id).getD .empty).keys

/-- The operands of an instruction. -/
def operandsOf (stored : StoredFunction) (id : InstId) : List ValueId :=
  ((stored.insts[id.index]?).map (·.operands)).getD []

/-- The places where a value is read, one for each operand. -/
def uses (stored : StoredFunction) (id : ValueId) : List UseSite :=
  (stored.usersOf id).flatMap fun inst =>
    (stored.operandsOf inst).zipIdx.filterMap fun (operand, position) =>
      if operand = id then some ⟨inst, position⟩ else none

/-- The value that holds a constant. -/
def immediate? (stored : StoredFunction) (imm : Immediate) : Option ValueId :=
  stored.immediates.lookup imm

/-- The value that an instruction results in. -/
def resultOf (stored : StoredFunction) (id : InstId) : Option ValueId := stored.results.get? id

/-- The instructions of a block, in order. -/
def instsOf (stored : StoredFunction) (id : BlockId) : List InstId :=
  (stored.lists.get? id).getD []

/-- The block that an instruction stands in. -/
def blockOf (stored : StoredFunction) (id : InstId) : Option BlockId := stored.places.get? id

/-- The function that is stored. -/
def function (stored : StoredFunction) : Function where
  sig := stored.sig
  values := stored.values
  insts := stored.insts
  blockCount := stored.blockCount
  layout := stored.blocks.map fun block => ⟨block, stored.instsOf block⟩

-----------------------------------------------------------------------------------------
-- Growing
-----------------------------------------------------------------------------------------

/-- A function without a body: its first values are its arguments. -/
def ofSignature (sig : Signature) : StoredFunction where
  sig
  blockCount := 0
  values := (Function.ofSignature sig).values
  insts := []
  results := .empty
  immediates := []
  users := .empty
  blocks := []
  lists := .empty
  places := .empty

/-- Makes a block that is not placed yet. -/
def makeBlock (stored : StoredFunction) : StoredFunction × BlockId :=
  ({ stored with blockCount := stored.blockCount + 1 }, ⟨stored.blockCount⟩)

/-- Places a block after all others. -/
def placeBlock (stored : StoredFunction) (id : BlockId) : Except Fault StoredFunction :=
  if stored.blocks.contains id then
    throw (.blockPlacedTwice id.index)
  else
    pure { stored with blocks := stored.blocks ++ [id] }

/-- Makes a value. -/
def makeValue (stored : StoredFunction) (value : Value) : StoredFunction × ValueId :=
  ({ stored with values := stored.values ++ [value] }, ⟨stored.values.length⟩)

/-- Makes a constant, or finds the value that already holds it. -/
def makeConstant (stored : StoredFunction) (imm : Immediate) : StoredFunction × ValueId :=
  match stored.immediate? imm with
  | some id => (stored, id)
  | none =>
      let (stored, id) := stored.makeValue (.constant imm)
      ({ stored with immediates := (imm, id) :: stored.immediates }, id)

/-- Enters an instruction as a reader of a value. -/
def addUser (id : InstId) (users : Table ValueId (Table InstId Unit)) (value : ValueId)
    : Table ValueId (Table InstId Unit) :=
  users.insert value (((users.get? value).getD .empty).insert id ())

/-- Makes an instruction that is not placed yet, and enters it as a reader of its operands. -/
def makeInst (stored : StoredFunction) (inst : Inst) : StoredFunction × InstId :=
  let id : InstId := ⟨stored.insts.length⟩
  ({ stored with
      insts := stored.insts ++ [inst]
      users := inst.operands.foldl (addUser id) stored.users },
    id)

/-- Places an instruction at the end of a placed block. -/
def placeInst (stored : StoredFunction) (id : InstId) (block : BlockId)
    : Except Fault StoredFunction :=
  if !stored.blocks.contains block then
    throw (.blockNotPlaced block.index)
  else if (stored.blockOf id).isSome then
    throw (.instPlacedTwice id.index)
  else
    pure { stored with
      lists := stored.lists.insert block (stored.instsOf block ++ [id])
      places := stored.places.insert id block }

/-- Makes the value that an instruction results in. -/
def makeResult (stored : StoredFunction) (id : InstId) (ty : Ty)
    : Except Fault (StoredFunction × ValueId) :=
  if (stored.resultOf id).isSome then
    throw (.secondResult id.index)
  else
    let (stored, value) := stored.makeValue (.result id ty)
    pure ({ stored with results := stored.results.insert id value }, value)

end StoredFunction

end StackBounds
