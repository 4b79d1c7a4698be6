import StackBounds.Solver.Run
import StackBounds.Summary.Index

/-! Propagation: the recorded accesses of all functions of a program grow by what the functions
they hand their parameters to access.
-/

namespace StackBounds.SummaryIndex

/-- The width of recorded ranges. -/
def recordWidth : UInt32 := 64

/-- A recorded call from a module, as the solver takes it. -/
def forward (index : SummaryIndex) (unit : String) (call : AccessCall)
    : Except Fault (Forward Callee) := do
  let callee := match ← index.boundFunction call.callee unit with
    | some id => Callee.summary id
    | none => .unresolved
  Forward.make callee call.param call.offset

/-- A record of a function in a module, as the solver takes it. -/
def usageOf (index : SummaryIndex) (unit : String) (access : ParamAccess)
    : Except Fault (Usage Callee) := do
  let calls ← access.calls.mapM (index.forward unit)
  Usage.collapse ⟨access.range, calls⟩

/-- The solver looks at live functions that are not preemptable and have records. -/
def isPropagated (summary : Summary) : Bool :=
  summary.live && summary.dsoLocal && !summary.accesses.isEmpty

/-- A function as the solver takes it; a later record of a parameter replaces an earlier one. -/
def functionUsage (index : SummaryIndex) (summary : Summary)
    : Except Fault (FunctionUsage Callee) := do
  let params ← summary.accesses.mapM fun access => do
    pure (access.param, ← index.usageOf summary.unit access)
  pure { FunctionUsage.empty with params := Table.ofList params }

/-- The functions that the solver looks at. -/
def functions (index : SummaryIndex) : Except Fault Functions := do
  let entries := index.summaries.zipIdx.filter fun (summary, _) => isPropagated summary
  let functions ← entries.mapM fun (summary, id) => do
    pure (Callee.summary ⟨id⟩, ← index.functionUsage summary)
  pure (.ofList functions)

/-- The records of a solved function. -/
def solvedAccesses (usages : FunctionUsage Callee) : List ParamAccess :=
  usages.params.entries.map fun (param, usage) => ⟨param, usage.range, []⟩

/-- The index without records. -/
def clearAccesses (index : SummaryIndex) : SummaryIndex :=
  ⟨index.summaries.map fun summary =>
    if summary.kind.isFunction then { summary with kind := .function [] } else summary⟩

/-- Replaces the records by those of the solved functions. -/
def store (index : SummaryIndex) (functions : Functions) : Except Fault SummaryIndex :=
  functions.entries.foldlM (fun index (callee, usages) =>
      match callee with
      | .summary id => index.setAccesses id (solvedAccesses usages)
      | _ => pure index)
    index.clearAccesses

/-- Propagates the accesses of the whole program and replaces the records by the result. -/
def propagate (index : SummaryIndex) (config : Config) : Traced SummaryIndex := do
  let functions ← index.functions
  let solver ← Solver.make recordWidth config
  let solved ← solver.run config.verify functions
  let result ← index.store solved
  Traced.emit (.propagate (solved.total fun usages => usages.params.size))
  pure result

end StackBounds.SummaryIndex
