import StackBounds.Program.Guid
import StackBounds.Range.Basic
import StackBounds.Json.Value

/-! Access records: what a summarised function does through one of its parameters, and the JSON
text of such records.
-/

namespace StackBounds

/-- A parameter that is handed on to a symbol. -/
structure AccessCall where
  param : UInt32
  callee : Guid
  offset : Range
  deriving DecidableEq, Repr

/-- The accesses of a function through one of its parameters. -/
structure ParamAccess where
  param : UInt32
  range : Range
  calls : List AccessCall
  deriving DecidableEq, Repr

-----------------------------------------------------------------------------------------
-- Writing
-----------------------------------------------------------------------------------------

/-- The record of a range. -/
def Range.toJson (range : Range) : Json.Value :=
  .ofFields [
    ("bits", .ofNat range.bits.toNat),
    ("lower", .ofNat range.lower.toNat),
    ("upper", .ofNat range.upper.toNat)]

/-- The record of a call. -/
def AccessCall.toJson (call : AccessCall) : Json.Value :=
  .ofFields [
    ("param_no", .ofNat call.param.toNat),
    ("callee", .ofNat call.callee.value.toNat),
    ("offsets", call.offset.toJson)]

/-- The record of the accesses through a parameter. -/
def ParamAccess.toJson (access : ParamAccess) : Json.Value :=
  .ofFields [
    ("param_no", .ofNat access.param.toNat),
    ("use_range", access.range.toJson),
    ("calls", .array (access.calls.map AccessCall.toJson))]

/-- The JSON text of access records. -/
def encodeAccesses (accesses : List ParamAccess) : String :=
  (Json.Value.array (accesses.map ParamAccess.toJson)).render

-----------------------------------------------------------------------------------------
-- Reading
-----------------------------------------------------------------------------------------

/-- Reads a 32-bit number. -/
def uint32? (value : Json.Value) : Option UInt32 :=
  (value.natBelow? UInt32.size).map UInt32.ofNat

/-- Reads a 64-bit number. -/
def uint64? (value : Json.Value) : Option UInt64 :=
  (value.natBelow? UInt64.size).map UInt64.ofNat

/-- Reads a range; the bounds are taken as they are. -/
def Range.ofJson? (value : Json.Value) : Option Range := do
  match ← value.fields? ["bits", "lower", "upper"] with
  | [bits, lower, upper] =>
      pure ⟨← uint32? bits, ← uint64? lower, ← uint64? upper⟩
  | _ => none

/-- Reads a call. -/
def AccessCall.ofJson? (value : Json.Value) : Option AccessCall := do
  match ← value.fields? ["param_no", "callee", "offsets"] with
  | [param, callee, offset] =>
      pure ⟨← uint32? param, ⟨← uint64? callee⟩, ← Range.ofJson? offset⟩
  | _ => none

/-- Reads an access record. -/
def ParamAccess.ofJson? (value : Json.Value) : Option ParamAccess := do
  match ← value.fields? ["param_no", "use_range", "calls"] with
  | [param, range, calls] =>
      pure ⟨← uint32? param, ← Range.ofJson? range,
        ← (← calls.items?).mapM AccessCall.ofJson?⟩
  | _ => none

/-- Reads the JSON text of access records. -/
def decodeAccesses? (text : String) : Option (List ParamAccess) := do
  (← (← Json.parse? text).items?).mapM ParamAccess.ofJson?

end StackBounds
