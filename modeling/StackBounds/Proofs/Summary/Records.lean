import StackBounds.Summary.Record
import StackBounds.Proofs.Json.Values

/-! Access records survive their JSON text. A record is an object whose fields have distinct names,
so each field is found again under its name, and a number is written with the digits it is read
from.
-/

namespace StackBounds

open Json (Value)

-----------------------------------------------------------------------------------------
-- Reading back
-----------------------------------------------------------------------------------------

theorem uint32?_ofNat (number : UInt32) : uint32? (.ofNat number.toNat) = some number := by
  simp [uint32?, Value.natBelow?_ofNat number.toNat_lt_size]

theorem uint64?_ofNat (number : UInt64) : uint64? (.ofNat number.toNat) = some number := by
  simp [uint64?, Value.natBelow?_ofNat number.toNat_lt_size]

theorem Range.ofJson?_toJson (range : Range) : ofJson? range.toJson = some range := by
  have found := Value.fields?_record (show ["bits", "lower", "upper"].Nodup from by decide)
    (.ofNat range.bits.toNat) (.ofNat range.lower.toNat) (.ofNat range.upper.toNat)
  simp [ofJson?, toJson, found, uint32?_ofNat, uint64?_ofNat]

theorem AccessCall.ofJson?_toJson (call : AccessCall) : ofJson? call.toJson = some call := by
  have found := Value.fields?_record (show ["param_no", "callee", "offsets"].Nodup from by decide)
    (.ofNat call.param.toNat) (.ofNat call.callee.value.toNat) call.offset.toJson
  simp [ofJson?, toJson, found, uint32?_ofNat, uint64?_ofNat, Range.ofJson?_toJson]

theorem ParamAccess.ofJson?_toJson (access : ParamAccess)
    : ofJson? access.toJson = some access := by
  have found := Value.fields?_record (show ["param_no", "use_range", "calls"].Nodup from by decide)
    (.ofNat access.param.toNat) access.range.toJson (.array (access.calls.map AccessCall.toJson))
  have calls := Json.mapM_map fun call (_ : call ∈ access.calls) => call.ofJson?_toJson
  simp [ofJson?, toJson, found, calls, uint32?_ofNat, Range.ofJson?_toJson, Value.items?]

-----------------------------------------------------------------------------------------
-- Texts
-----------------------------------------------------------------------------------------

theorem Range.isCompact_toJson (range : Range) : range.toJson.IsCompact := by
  apply Value.isCompact_ofFields
  · show ["bits", "lower", "upper"].all Json.isVisible = true
    decide
  · simp [Value.isCompact_ofNat]

theorem AccessCall.isCompact_toJson (call : AccessCall) : call.toJson.IsCompact := by
  apply Value.isCompact_ofFields
  · show ["param_no", "callee", "offsets"].all Json.isVisible = true
    decide
  · simp [Value.isCompact_ofNat, Range.isCompact_toJson]

theorem ParamAccess.isCompact_toJson (access : ParamAccess) : access.toJson.IsCompact := by
  have calls : (Value.array (access.calls.map AccessCall.toJson)).IsCompact :=
    Value.isCompact_array (by simp [AccessCall.isCompact_toJson])
  apply Value.isCompact_ofFields
  · show ["param_no", "use_range", "calls"].all Json.isVisible = true
    decide
  · simp [Value.isCompact_ofNat, Range.isCompact_toJson, calls]

/-- A text is read as access records when its tokens are those of an array of such records. -/
theorem decodeAccesses?_eq_some_iff {text : String} {accesses : List ParamAccess}
    : decodeAccesses? text = some accesses
      ↔ ∃ items, Json.tokens text.toList = some (Value.array items).tokens
        ∧ List.Forall₂ (fun item access => ParamAccess.ofJson? item = some access) items
          accesses := by
  simp only [← Json.parse?_eq_some_iff, ← Json.mapM_eq_some_iff]
  constructor
  · intro decoded
    obtain ⟨value, parsed, decoded⟩ := Option.bind_eq_some_iff.mp decoded
    obtain ⟨items, listed, read⟩ := Option.bind_eq_some_iff.mp decoded
    cases value with
    | array others =>
        cases listed
        exact ⟨items, parsed, read⟩
    | _ => cases listed
  · rintro ⟨items, parsed, read⟩
    simp [decodeAccesses?, parsed, Value.items?, read]

/-- Access records are written as the JSON array of their records, without blanks, and read back
from it; so records that were read from any text, which are those of an array of records, are the
same after another writing and reading.
-/
theorem accesses_survive_text
    : (∀ accesses : List ParamAccess,
        decodeAccesses? (encodeAccesses accesses) = some accesses
        ∧ Json.parse? (encodeAccesses accesses)
          = some (.array (accesses.map ParamAccess.toJson))
        ∧ ∀ char ∈ (encodeAccesses accesses).toList, Json.isBlank char = false)
      ∧ ∀ text : String,
        ((decodeAccesses? text).bind fun accesses => decodeAccesses? (encodeAccesses accesses))
          = decodeAccesses? text
        ∧ ∀ accesses, decodeAccesses? text = some accesses
          ↔ ∃ items, Json.tokens text.toList = some (Value.array items).tokens
            ∧ List.Forall₂ (fun item access => ParamAccess.ofJson? item = some access) items
              accesses := by
  have written (accesses : List ParamAccess) :=
    (Value.isCompact_array (List.forall_mem_map.mpr fun access (_ : access ∈ accesses) =>
      access.isCompact_toJson)).parse?_render
  have decoded (accesses : List ParamAccess)
      : decodeAccesses? (encodeAccesses accesses) = some accesses := by
    have records := Json.mapM_map fun access (_ : access ∈ accesses) => access.ofJson?_toJson
    simp [decodeAccesses?, encodeAccesses, (written accesses).1, Value.items?, records]
  refine ⟨fun accesses => ⟨decoded accesses, written accesses⟩,
    fun text => ⟨?_, fun accesses => decodeAccesses?_eq_some_iff⟩⟩
  cases decodeAccesses? text with
  | none => rfl
  | some accesses => exact decoded accesses

theorem accesses_survive_text_greatest
    : encodeAccesses [⟨0xffffffff, ⟨64, 0, 4⟩, [⟨0, ⟨0xffffffffffffffff⟩, ⟨64, 8, 9⟩⟩]⟩]
        = "[\x7b\"param_no\":4294967295,\"use_range\":\x7b\"bits\":64,\"lower\":0,\"upper\":4\x7d,"
          ++ "\"calls\":[\x7b\"param_no\":0,\"callee\":18446744073709551615,"
          ++ "\"offsets\":\x7b\"bits\":64,\"lower\":8,\"upper\":9\x7d\x7d]\x7d]"
      ∧ decodeAccesses?
          (encodeAccesses [⟨0xffffffff, ⟨64, 0, 4⟩, [⟨0, ⟨0xffffffffffffffff⟩, ⟨64, 8, 9⟩⟩]⟩])
        = some [⟨0xffffffff, ⟨64, 0, 4⟩, [⟨0, ⟨0xffffffffffffffff⟩, ⟨64, 8, 9⟩⟩]⟩] :=
  ⟨by decide +kernel, (accesses_survive_text.1 _).1⟩

end StackBounds
