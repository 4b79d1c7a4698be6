import StackBounds.Local
import StackBounds.Summary.Record

/-! What a local analysis reports: the text for readers, and the access records for summaries. -/

namespace StackBounds.Module

/-- The line of a parameter. -/
def paramLine (unit : Module) (param : UInt32 × Usage Global) : Except Fault String := do
  let value : ValueId := ⟨param.1.toNat⟩
  pure ("      " ++ value.text ++ "[]: " ++ (← param.2.text unit) ++ "\n")

/-- The line of an allocation; nothing for other instructions. -/
def allocaLine (unit : Module) (func : Function) (usages : FunctionUsage Global) (inst : InstId)
    : Except Fault String :=
  match usages.allocas.get? inst, func.resultOf inst with
  | some usage, some value => do
      let size ← func.allocaRange unit.pointerWidth inst
      let upper ← size.signedUpper
      pure ("      " ++ value.text ++ "[" ++ toString upper ++ "]: " ++ (← usage.text unit) ++ "\n")
  | _, _ => pure ""

/-- The report of a function: its name, then parameters and allocations with their usages. -/
def functionReport (unit : Module) (id : FunctionId) (usages : FunctionUsage Global)
    : Except Fault String := do
  let func ← unit.function id
  let preemptable := if func.sig.dsoLocal then "" else " dso_preemptable"
  let interposable := if func.sig.linkage.isInterposable then " interposable" else ""
  let params ← usages.params.entries.mapM unit.paramLine
  let allocas ← func.placedInsts.mapM (unit.allocaLine func usages)
  pure
    ("  @" ++ func.sig.name ++ preemptable ++ interposable ++ "\n"
      ++ "    args uses:\n" ++ String.join params
      ++ "    allocas uses:\n" ++ String.join allocas)

/-- The record of a call; none when the offset is unknown. -/
def accessCall? (unit : Module) (call : Forward Global) : Except Fault (Option AccessCall) := do
  if ← call.offset.isFull then
    pure none
  else
    let guid ← unit.guidOf call.callee
    pure (some ⟨call.param, guid, call.offset⟩)

/-- The records of calls; none as soon as one of the offsets is unknown. -/
def accessCalls? (unit : Module)
    : List (Forward Global) → Except Fault (Option (List AccessCall))
  | [] => pure (some [])
  | call :: rest => do
    match ← unit.accessCall? call with
    | none => pure none
    | some first => do
      let later ← unit.accessCalls? rest
      pure (later.map (first :: ·))

/-- The record of a parameter; none when its accesses are unknown. -/
def paramAccess? (unit : Module) (param : UInt32 × Usage Global)
    : Except Fault (Option ParamAccess) := do
  if ← param.2.range.isFull then
    pure none
  else
    let calls ← unit.accessCalls? param.2.calls
    pure (calls.map fun calls => ⟨param.1, param.2.range, calls⟩)

/-- The access records of a function. Parameters whose accesses are unknown are left out. -/
def paramAccesses (unit : Module) (usages : FunctionUsage Global)
    : Except Fault (List ParamAccess) :=
  usages.params.entries.filterMapM unit.paramAccess?

end StackBounds.Module
