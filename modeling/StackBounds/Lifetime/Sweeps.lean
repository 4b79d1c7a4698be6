import StackBounds.Address
import StackBounds.BitSet
import StackBounds.Program.Flow
import StackBounds.Table

/-! Lifetime markers, and the sweeps over the blocks of a function that find what they leave alive
on every path.
-/

namespace StackBounds

-----------------------------------------------------------------------------------------
-- Markers
-----------------------------------------------------------------------------------------

/-- A lifetime marker of an allocation. -/
structure Marker where
  inst : InstId
  alloca : InstId
  op : LifetimeOp
  deriving DecidableEq, Repr

/-- What a marker's address is made of. -/
inductive MarkerSource
  /-- An allocation. -/
  | alloca (inst : InstId)
  /-- The same address under another value. -/
  | sameAs (value : ValueId)
  /-- Anything else. -/
  | other
  deriving DecidableEq, Repr

namespace Function

/-- The value is a constant zero. -/
def isZero (func : Function) (id : ValueId) : Except Fault Bool := do
  let value ← func.value id
  pure (value.immediate?.any (·.toInt == 0))

/-- Looks through one cast or one offset of zero. -/
def markerSource (func : Function) (id : ValueId) : Except Fault MarkerSource := do
  match (← func.value id).inst? with
  | none => pure .other
  | some inst => do
    match ← func.inst inst with
    | .alloca _ _ => pure (.alloca inst)
    | .cast .bitcast arg _ => pure (.sameAs arg)
    | .ptrAdd base offset => do
        if ← func.isZero offset then pure (.sameAs base) else pure .other
    | _ => pure .other

/-- The allocation that a marker's address is, seen through casts and offsets of zero. A chain
that comes back to a value that is not fresh has no end.
-/
def markedAlloca (func : Function) (fresh : List ValueId) (id : ValueId)
    : Except Fault (Option InstId) := do
  match ← func.markerSource id with
  | .alloca inst => pure (some inst)
  | .other => pure none
  | .sameAs source =>
    if h : id ∈ fresh then
      have := length_erase_lt h
      func.markedAlloca (fresh.erase id) source
    else
      throw (.endlessAddress id.index)
termination_by fresh.length

/-- The marker that an instruction is, if its address is an allocation. -/
def marker? (func : Function) (id : InstId) : Except Fault (Option Marker) := do
  match ← func.inst id with
  | .lifetime op _ addr => do
      let alloca ← func.markedAlloca func.valueIds addr
      pure (alloca.map fun alloca => ⟨id, alloca, op⟩)
  | _ => pure none

/-- The placed markers of allocations. -/
def markers (func : Function) : Except Fault (List Marker) :=
  func.placedInsts.filterMapM func.marker?

end Function

/-- A function with its control flow and its markers. -/
structure MarkedFlow where
  func : Function
  flow : Flow
  markers : List Marker
  reachable : List BlockId

/-- The control flow and the markers of a function. -/
def MarkedFlow.ofFunction (func : Function) : Except Fault MarkedFlow := do
  let flow ← Flow.ofFunction func
  let markers ← func.markers
  pure { func, flow, markers, reachable := flow.postOrder }

-----------------------------------------------------------------------------------------
-- Sweeps
-----------------------------------------------------------------------------------------

/-- The sets of allocations that are alive at the starts and at the ends of blocks. A block that is
not listed has the empty set.
-/
structure LiveTables where
  ins : Table BlockId BitSet
  outs : Table BlockId BitSet
  deriving DecidableEq, Repr

namespace LiveTables

/-- The allocations alive at the start of a block. -/
def aliveIn (tables : LiveTables) (block : BlockId) : BitSet :=
  (tables.ins.get? block).getD .empty

/-- The allocations alive at the end of a block. -/
def aliveOut (tables : LiveTables) (block : BlockId) : BitSet :=
  (tables.outs.get? block).getD .empty

end LiveTables

namespace MarkedFlow

/-- The allocations with markers, each once. -/
def tracked (marked : MarkedFlow) : List InstId := (marked.markers.map (·.alloca)).eraseDups

/-- The set of the allocations with markers. -/
def interesting (marked : MarkedFlow) : BitSet :=
  marked.tracked.foldl (fun set alloca => set.insert alloca.index) .empty

/-- The marker that an instruction is. -/
def markerAt (marked : MarkedFlow) (inst : InstId) : Option Marker :=
  marked.markers.find? fun marker => marker.inst == inst

/-- The allocations alive after an instruction, from those alive before it. -/
def applyMarker (marked : MarkedFlow) (live : BitSet) (inst : InstId) : BitSet :=
  match marked.markerAt inst with
  | none => live
  | some marker =>
    match marker.op with
    | .start => live.insert marker.alloca.index
    | .stop => live.remove marker.alloca.index

/-- The allocations alive after some instructions, from those alive before them. -/
def applyMarkers (marked : MarkedFlow) (live : BitSet) (insts : List InstId) : BitSet :=
  insts.foldl marked.applyMarker live

/-- Whether an allocation is alive after an instruction, from whether it was before. -/
def step (marked : MarkedFlow) (alloca : InstId) (alive : Bool) (inst : InstId) : Bool :=
  match marked.markerAt inst with
  | none => alive
  | some marker => if marker.alloca = alloca then marker.op == .start else alive

/-- Whether an allocation is alive after some instructions, from whether it was before. -/
def through (marked : MarkedFlow) (alloca : InstId) (alive : Bool) (insts : List InstId) : Bool :=
  insts.foldl (marked.step alloca) alive

/-- The reachable blocks that can continue at a block. -/
def sources (marked : MarkedFlow) (block : BlockId) : List BlockId :=
  (marked.flow.preds block).filter marked.reachable.contains

/-- What is alive at the start of a block by what is alive at the ends of others: nothing at the
entry, else what is alive at the end of every source.
-/
def meet (marked : MarkedFlow) (tables : LiveTables) (block : BlockId) : BitSet :=
  if marked.flow.entry = some block then
    .empty
  else
    match marked.sources block with
    | [] => .empty
    | first :: rest =>
        rest.foldl (fun live source => live.intersect (tables.aliveOut source))
          (tables.aliveOut first)

/-- What is alive at the end of a block by what is alive at the ends of others. -/
def leaves (marked : MarkedFlow) (tables : LiveTables) (block : BlockId) : BitSet :=
  marked.applyMarkers (marked.meet tables block) (marked.func.instsOf block)

/-- At first everything is alive at the end of every reachable block. -/
def start (marked : MarkedFlow) : LiveTables where
  ins := .empty
  outs := .ofList (marked.reachable.map fun block => (block, marked.interesting))

/-- Visits a block: enters what is alive at its start and at its end, as the tables stand, and notes
when the end changes.
-/
def visit (marked : MarkedFlow) (state : LiveTables × Bool) (block : BlockId) : LiveTables × Bool :=
  let (tables, changed) := state
  let left := marked.leaves tables block
  let entered := { tables with ins := tables.ins.insert block (marked.meet tables block) }
  if left = tables.aliveOut block then
    (entered, changed)
  else
    ({ entered with outs := tables.outs.insert block left }, true)

/-- Visits the reachable blocks in reverse post order, each with the changes of those before it;
with whether some end changed.
-/
def sweep (marked : MarkedFlow) (tables : LiveTables) : LiveTables × Bool :=
  marked.reachable.reverse.foldl marked.visit (tables, false)

end MarkedFlow

end StackBounds
