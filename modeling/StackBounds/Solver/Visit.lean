import StackBounds.Config
import StackBounds.Event
import StackBounds.Range.Sum

/-! One visit of the solver: the parameters of a function grow to cover what its callees access
through them.
-/

namespace StackBounds

namespace FunctionUsage

/-- The calls of all parameters, each with the number of its parameter. -/
def forwards {γ : Type} (info : FunctionUsage γ) : List (UInt32 × Forward γ) :=
  info.params.entries.flatMap fun param => param.2.calls.map fun call => (param.1, call)

/-- Sets the accessed range of a parameter. -/
def setRange {γ : Type} (info : FunctionUsage γ) (param : UInt32) (range : Range)
    : FunctionUsage γ :=
  { info with params := info.params.modify param fun usage => { usage with range } }

/-- Counts a widening. -/
def countUpdate {γ : Type} (info : FunctionUsage γ) : FunctionUsage γ :=
  { info with updates := info.updates + 1 }

end FunctionUsage

/-- The functions that the solver works on. -/
abbrev Functions := Table Callee (FunctionUsage Callee)

namespace Functions

/-- The usage of a parameter. -/
def param? (functions : Functions) (func : Callee) (param : UInt32) : Option (Usage Callee) :=
  (functions.get? func).bind fun info => info.params.get? param

/-- Sets the accessed range of a parameter. -/
def setRange (functions : Functions) (func : Callee) (param : UInt32) (range : Range)
    : Functions :=
  functions.modify func fun info => info.setRange param range

/-- The functions that hand a parameter to the given one, in ascending order. -/
def callersOf (functions : Functions) (func : Callee) : List Callee :=
  (functions.entries.filter fun entry =>
    entry.2.params.entries.any fun param =>
      param.2.calls.any fun call => call.callee == func).map (·.1)

/-- Counts a widening of a function. -/
def countUpdate (functions : Functions) (func : Callee) : Functions :=
  functions.modify func FunctionUsage.countUpdate

end Functions

/-- The fixed data of a solver run. -/
structure Solver where
  /-- What a callee accesses when nothing is known about it. -/
  unknown : Range
  /-- After more widenings than this, a function's parameters become unknown. -/
  limit : UInt32

namespace Solver

/-- The solver for a pointer width. -/
def make (bits : UInt32) (config : Config) : Except Fault Solver := do
  pure ⟨← Range.full bits, config.maxIterations⟩

/-- What a callee accesses relative to the address that is handed to it, seen from the address
before it is moved. Missing callees and parameters access anything.
-/
def access (solver : Solver) (functions : Functions) (call : Forward Callee)
    : Except Fault Range :=
  match functions.param? call.callee call.param with
  | none => pure solver.unknown
  | some usage =>
    if usage.range.isEmpty then
      pure usage.range
    else do
      if ← usage.range.isFull then
        pure solver.unknown
      else
        usage.range.addSigned call.offset

/-- The range of a parameter that has to grow: it covers the access, or is full at once. -/
def growth (toFull : Bool) (known access : Range) : Except Fault Range :=
  if toFull then Range.full known.bits else known.cover access

/-- Accounts for one call of a parameter. There is a result only when the range of the
parameter has to grow.
-/
def absorb (solver : Solver) (func : Callee) (toFull : Bool) (functions : Functions)
    (param : UInt32) (call : Forward Callee)
    : Except Fault (Option Functions) :=
  match functions.param? func param with
  | none => pure none
  | some usage => do
    let access ← solver.access functions call
    if ← usage.range.contains access then
      pure none
    else
      let range ← growth toFull usage.range access
      pure (some (functions.setRange func param range))

/-- Accounts for calls one after the other; later ones see the growth of earlier ones. There
is a result only when some range has to grow.
-/
def sweep (solver : Solver) (func : Callee) (toFull : Bool)
    : List (UInt32 × Forward Callee) → Functions → Except Fault (Option Functions)
  | [], _ => pure none
  | (param, call) :: rest, functions => do
    match ← solver.absorb func toFull functions param call with
    | none => solver.sweep func toFull rest functions
    | some grown => do
      let later ← solver.sweep func toFull rest grown
      pure (some (later.getD grown))

/-- The state of a run: the functions, and those to visit, the most recent first. -/
structure State where
  functions : Functions
  queue : List Callee

/-- Adds functions to the queue, one after the other, unless they wait there already. -/
def enqueue (waiting callers : List Callee) : List Callee :=
  callers.foldl (fun queue caller => if queue.contains caller then queue else caller :: queue)
    waiting

/-- Visits a function. When one of its parameters grows, the widening is counted and its
callers have to be visited.
-/
def visit (solver : Solver) (state : State) (func : Callee) : Traced State :=
  match state.functions.get? func with
  | none => pure state
  | some info => do
    let toFull := decide (solver.limit < info.updates)
    match ← solver.sweep func toFull info.forwards state.functions with
    | none => pure state
    | some grown => do
      Traced.emit (.widen func info.updates toFull)
      if info.updates.toNat + 1 < UInt32.size then
        pure ⟨grown.countUpdate func, enqueue state.queue (grown.callersOf func)⟩
      else
        Traced.ofResult (throw .counterOverflow)

end Solver

end StackBounds
