import StackBounds.Event
import StackBounds.Range.Resize
import StackBounds.Range.Sum
import StackBounds.Summary.Index

/-! Resolution: calls of symbols become calls of functions that the solver knows, and calls into
other modules become accesses that the index has on record.
-/

namespace StackBounds.Module

/-- The range that a symbol of another module accesses through a parameter, at the pointer width
of this module; none when nothing useful is on record.
-/
def recordedAccess (unit : Module) (index : SummaryIndex) (callee : Global) (param : UInt32)
    : Except Fault (Option Range) := do
  let guid ← unit.guidOf callee
  match ← index.boundFunction guid unit.name with
  | none => pure none
  | some id => do
    match ← index.access? id param with
    | none => pure none
    | some access => do
      if ← access.range.isFull then
        pure none
      else
        some <$> access.range.resizeSigned unit.pointerWidth.bits

/-- The recorded range, when there is an index. -/
def recordedAccess? (unit : Module) (index : Option SummaryIndex) (callee : Global)
    (param : UInt32)
    : Except Fault (Option Range) :=
  match index with
  | none => pure none
  | some index => unit.recordedAccess index callee param

/-- Adds resolved calls to a usage. A function of this module stays a call, a recorded access
joins the range, and everything else is an unresolved call.
-/
def resolveOnto (unit : Module) (index : Option SummaryIndex) (resolved : Usage Callee)
    : List (Forward Global) → Traced (Usage Callee)
  | [] => pure resolved
  | call :: rest => do
    match ← unit.boundFunction call.callee with
    | some func => do
        let call ← Forward.make (.function func) call.param call.offset
        unit.resolveOnto index { resolved with calls := resolved.calls ++ [call] } rest
    | none => do
      match ← unit.recordedAccess? index call.callee call.param with
      | some access =>
        if access.isEmpty then
          unit.resolveOnto index resolved rest
        else do
          let resolved ← resolved.widen (← access.addSigned call.offset)
          unit.resolveOnto index resolved rest
      | none => do
          let name ← unit.nameOf call.callee
          Traced.emit (.unresolved name call.param)
          let call ← Forward.make .unresolved call.param call.offset
          unit.resolveOnto index { resolved with calls := resolved.calls ++ [call] } rest

/-- The usage with its calls resolved. One unresolved call makes it unknown. -/
def resolveCalls (unit : Module) (index : Option SummaryIndex) (usage : Usage Global)
    : Traced (Usage Callee) := do
  let resolved ← unit.resolveOnto index ⟨usage.range, []⟩ usage.calls
  resolved.collapse

end StackBounds.Module
