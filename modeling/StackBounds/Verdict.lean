import StackBounds.Local.Report
import StackBounds.Resolution
import StackBounds.Solver.Run

/-! The verdict on a module: the final usages of its functions, and the allocations that are only
accessed within their bounds.
-/

namespace StackBounds

/-- The result of the analysis of a module. -/
structure Verdict where
  /-- Final ranges, with the calls that the local analysis found. -/
  usages : Table FunctionId (FunctionUsage Global)
  /-- The allocations that are safe, in ascending order. -/
  safe : List (FunctionId × InstId)
  /-- How many allocations were judged. -/
  total : Nat

namespace Module

/-- The functions with a body. -/
def definedFunctions (unit : Module) : List FunctionId :=
  unit.functionIds.filter fun id =>
    (unit.functions[id.index]?).any fun func => !func.isDeclaration

/-- The local analyses of all functions with a body. -/
def analyzeLocally (unit : Module) : Traced (List (FunctionId × FunctionUsage Global)) :=
  unit.definedFunctions.mapM fun id => do pure (id, ← unit.analyzeFunction id)

/-- The parameters of a function with their calls resolved, as the solver takes them. -/
def resolveParams (unit : Module) (index : Option SummaryIndex) (usages : FunctionUsage Global)
    : Traced (FunctionUsage Callee) := do
  let params ← usages.params.entries.mapM fun (param, usage) => do
    pure (param, ← unit.resolveCalls index usage)
  pure { FunctionUsage.empty with params := .ofList params }

/-- The final range of an allocation: its own accesses, and what the callees access. -/
def finalRange (solver : Solver) (functions : Functions) (resolved : Usage Callee)
    : Except Fault Range :=
  resolved.calls.foldlM (fun known call => do known.cover (← solver.access functions call))
    resolved.range

/-- A judged allocation. -/
structure Judged where
  alloca : InstId
  usage : Usage Global
  safe : Bool

/-- Judges an allocation: it is safe when its final range is within its bounds. -/
def judge (unit : Module) (index : Option SummaryIndex) (solver : Solver) (functions : Functions)
    (func : Function) (alloca : InstId × Usage Global)
    : Traced Judged := do
  let resolved ← unit.resolveCalls index alloca.2
  let range ← finalRange solver functions resolved
  let size ← func.allocaRange unit.pointerWidth alloca.1
  let safe ← size.contains range
  pure ⟨alloca.1, { alloca.2 with range }, safe⟩

/-- A function with its judged allocations and the ranges that the solver found. -/
def conclude (unit : Module) (index : Option SummaryIndex) (solver : Solver)
    (functions : Functions) (localUsage : FunctionId × FunctionUsage Global)
    : Traced (FunctionId × FunctionUsage Global × List Judged) := do
  let (id, usages) := localUsage
  let func ← unit.function id
  let judged ← usages.allocas.entries.mapM (unit.judge index solver functions func)
  let solved := functions.get? (.function id)
  let params := usages.params.mapWithKey fun param usage =>
    let range := ((solved.bind fun info => info.params.get? param).map (·.range)).getD usage.range
    { usage with range }
  let final : FunctionUsage Global := {
    allocas := .ofList (judged.map fun judged => (judged.alloca, judged.usage))
    params
    updates := (solved.map (·.updates)).getD 0
  }
  pure (id, final, judged)

/-- The report of a verdict: the reports of the functions, each with an empty line after it. -/
def report (unit : Module) (verdict : Verdict) : Except Fault String := do
  let texts ← verdict.usages.entries.mapM fun (id, usages) => do
    pure ((← unit.functionReport id usages) ++ "\n")
  pure (String.join texts)

/-- Analyses a module. Calls into other modules are resolved through the index, if there is
one.
-/
def analyze (unit : Module) (index : Option SummaryIndex) (config : Config) : Traced Verdict := do
  let locals ← unit.analyzeLocally
  let params ← locals.mapM fun (id, usages) => do
    pure (Callee.function id, ← unit.resolveParams index usages)
  let solver ← Solver.make unit.pointerWidth.bits config
  let functions ← solver.run config.verify (.ofList params)
  let concluded ← locals.mapM (unit.conclude index solver functions)
  let judged := concluded.flatMap fun (id, _, judged) => judged.map fun judged => (id, judged)
  let verdict : Verdict := {
    usages := .ofList (concluded.map fun (id, usages, _) => (id, usages))
    safe := (judged.filter fun (_, judged) => judged.safe).map fun (id, judged) =>
      (id, judged.alloca)
    total := judged.length
  }
  Traced.emit (.verdict unit.name verdict.total verdict.safe.length)
  if config.print then
    let text ← unit.report verdict
    Traced.emit (.report unit.name text)
    pure verdict
  else
    pure verdict

end Module

end StackBounds
