import StackBounds.Program.Module
import StackBounds.Range.Join
import StackBounds.Table

/-! Usages: what is known about the accesses through one address. -/

namespace StackBounds

/-- The number of a summary in the index. -/
structure SummaryId where
  index : Nat
  deriving DecidableEq, Repr, Inhabited

instance : Ord SummaryId := ⟨compareOn SummaryId.index⟩

instance : Std.TransOrd SummaryId := inferInstanceAs (Std.TransCmp (compareOn SummaryId.index))

instance : Std.LawfulEqOrd SummaryId where
  eq_of_compare same := congrArg SummaryId.mk (Std.LawfulEqOrd.eq_of_compare same)

/-- Who receives an address, as the solver sees it. The order of the constructors is the
order in which the solver visits.
-/
inductive Callee
  /-- A function of the analysed module. -/
  | function (id : FunctionId)
  /-- A function that is known through its summary only. -/
  | summary (id : SummaryId)
  /-- Nothing is known about the receiver. -/
  | unresolved
  deriving DecidableEq, Repr

namespace Callee

/-- The position of a callee's kind in the solver's order. -/
def kind : Callee → Nat
  | .function _ => 0
  | .summary _ => 1
  | .unresolved => 2

/-- The number of a callee among those of its kind. -/
def number : Callee → Nat
  | .function id => id.index
  | .summary id => id.index
  | .unresolved => 0

instance : Ord Callee := ⟨compareLex (compareOn kind) (compareOn number)⟩

instance : Std.TransOrd Callee :=
  inferInstanceAs (Std.TransCmp (compareLex (compareOn kind) (compareOn number)))

/-- A callee is known by its kind and its number. -/
theorem eq_of_kind_number {first second : Callee} (kinds : first.kind = second.kind)
    (numbers : first.number = second.number)
    : first = second := by
  cases first with
  | function id =>
      cases second with
      | function other => exact congrArg (fun index => function ⟨index⟩) numbers
      | summary => cases kinds
      | unresolved => cases kinds
  | summary id =>
      cases second with
      | function => cases kinds
      | summary other => exact congrArg (fun index => summary ⟨index⟩) numbers
      | unresolved => cases kinds
  | unresolved =>
      cases second with
      | function => cases kinds
      | summary => cases kinds
      | unresolved => rfl

instance : Std.LawfulEqOrd Callee where
  eq_of_compare same :=
    eq_of_kind_number (Std.LawfulEqOrd.eq_of_compare (compareLex_eq_eq.mp same).1)
      (Std.LawfulEqOrd.eq_of_compare (compareLex_eq_eq.mp same).2)

end Callee

/-- The text of a callee in events. -/
def Callee.text : Callee → String
  | .function id => "Func(FuncRef(" ++ toString id.index ++ "))"
  | .summary id => "Summary(SummaryRef(" ++ toString id.index ++ "))"
  | .unresolved => "Unresolved"

/-- An address that is handed to a parameter of a callee, moved by one of the offsets. -/
structure Forward (γ : Type) where
  callee : γ
  param : UInt32
  offset : Range
  deriving DecidableEq, Repr

/-- Hands an address on; the offsets must not be empty. -/
def Forward.make {γ : Type} (callee : γ) (param : UInt32) (offset : Range)
    : Except Fault (Forward γ) :=
  if offset.isEmpty then throw .emptyOffset else pure ⟨callee, param, offset⟩

/-- The accesses through an address: the bytes that are touched, relative to the address, and
the callees that it is handed to.
-/
structure Usage (γ : Type) where
  /-- Empty when no access is known, and never across the end of the signed numbers. -/
  range : Range
  calls : List (Forward γ)
  deriving DecidableEq, Repr

namespace Usage

variable {γ : Type}

/-- No access is known. -/
def unused (bits : UInt32) : Except Fault (Usage γ) := do
  pure ⟨← Range.empty bits, []⟩

/-- Widens the accessed range to cover another one. -/
def widen (usage : Usage γ) (range : Range) : Except Fault (Usage γ) := do
  pure { usage with range := ← usage.range.cover range }

/-- Makes the accessed range unknown. -/
def forget (usage : Usage γ) : Except Fault (Usage γ) := do
  pure { usage with range := ← Range.full usage.range.bits }

/-- Any byte may be accessed. -/
def isUnknown (usage : Usage γ) : Except Fault Bool := usage.range.isFull

/-- The address is handed to a callee about which nothing is known. -/
def hasUnresolved (usage : Usage Callee) : Bool :=
  usage.calls.any fun call => call.callee == .unresolved

/-- Makes the usage unknown and drops its calls when one of them is unresolved. -/
def collapse (usage : Usage Callee) : Except Fault (Usage Callee) :=
  if usage.hasUnresolved then do
    pure { ← usage.forget with calls := [] }
  else
    pure usage

/-- The usage in reports: the range, then each callee with argument number and offsets. -/
def text (unit : Module) (usage : Usage Global) : Except Fault String := do
  let calls ← usage.calls.mapM fun call => do
    let name ← unit.nameOf call.callee
    let offset ← call.offset.text
    pure (", @" ++ name ++ "(arg" ++ toString call.param.toNat ++ ", " ++ offset ++ ")")
  pure ((← usage.range.text) ++ String.join calls)

end Usage

/-- The usages of the allocations and the pointer parameters of a function. -/
structure FunctionUsage (γ : Type) where
  allocas : Table InstId (Usage γ)
  params : Table UInt32 (Usage γ)
  /-- How often the solver has widened the parameters. -/
  updates : UInt32
  deriving DecidableEq, Repr

/-- No allocation and no parameter. -/
def FunctionUsage.empty {γ : Type} : FunctionUsage γ := ⟨.empty, .empty, 0⟩

end StackBounds
