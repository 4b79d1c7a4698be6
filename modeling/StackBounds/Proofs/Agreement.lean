import StackBounds.Proofs.Analysis
import StackBounds.Proofs.Solver.Bound
import StackBounds.Proofs.Solver.Least
import StackBounds.Proofs.Summary.Chains
import StackBounds.Proofs.Summary.Linking

/-! A module on its own and its propagated summary agree on the safe side. The propagated records
solve what the analysis of the module solves, so the least solution lies inside them.
-/

namespace StackBounds.Module

open SummaryIndex (recordWidth)

variable {unit : Module} {collection : Collection} {functions final : Functions}

-----------------------------------------------------------------------------------------
-- Records as an assignment
-----------------------------------------------------------------------------------------

/-- The ranges that solved records give to the parameters of a module's functions. Where there is
no record, anything may be accessed.
-/
def recordedRanges (collection : Collection) (final : Functions) : Callee → UInt32 → Range
  | .function func, param =>
      ((collection.find? (.function func)).map fun id =>
        Solver.rangesOf recordWidth final (.summary id) param).getD (Range.top recordWidth)
  | _, _ => Range.top recordWidth

theorem recordedRanges_of_mem {index : SummaryIndex} {withAccesses : Bool}
    (collects : unit.Collects withAccesses index collection) {func : FunctionId} {id : SummaryId}
    (inside : (.function func, id) ∈ collection.summarized) (param : UInt32)
    : recordedRanges collection final (.function func) param
      = Solver.rangesOf recordWidth final (.summary id) param := by
  have found : collection.find? (.function func) = some id :=
    find?_key_of_mem collects.symbols inside
  rw [recordedRanges, found, Option.map_some, Option.getD_some]

/-- What holds of the full set and of all solved ranges holds of the assignment. -/
theorem recordedRanges_holds {holds : Range → Prop} (top : holds (Range.top recordWidth))
    (solved : ∀ func param usage, final.param? func param = some usage → holds usage.range)
    (collection : Collection) (func : Callee) (param : UInt32)
    : holds (recordedRanges collection final func param) := by
  cases func with
  | summary _ => exact top
  | unresolved => exact top
  | function func =>
      rw [recordedRanges]
      cases collection.find? (.function func) with
      | none => exact top
      | some id =>
          rw [Option.map_some, Option.getD_some, Solver.rangesOf]
          cases found : final.param? (.summary id) param with
          | none => exact top
          | some usage => exact solved _ _ _ found

section Records

variable (collects : unit.Collects true .empty collection) (differ : unit.GuidsDiffer)
  (represents : collection.index.Represents (fun _ => recordWidth) functions)
  (wf : final.WellFormed recordWidth) (grows : functions.Grows final)

include collects differ represents wf grows

/-- A solved record belongs to a parameter that is tracked. Unless it is full, it holds what the
local analysis found, and all calls of the parameter are bound to functions with summaries.
-/
theorem tracked_of_solved {func : FunctionId} {id : SummaryId} {param : UInt32}
    {solved : Usage Callee} (inside : (.function func, id) ∈ collection.summarized)
    (found : final.param? (.summary id) param = some solved)
    : ∃ usages usage, (unit.analyzeFunction func).result = .ok usages
      ∧ usages.params.get? param = some usage
      ∧ (solved.range.IsAll ∨ (usage.range ⊆ solved.range
        ∧ ∀ call ∈ usage.calls, ∃ callee target,
          unit.boundFunction call.callee = .ok (some callee)
          ∧ (.function callee, target) ∈ collection.summarized
          ∧ ⟨.summary target, call.param, call.offset⟩ ∈ solved.calls)) := by
  obtain ⟨summary, access, callable, record, rfl⟩ :=
    SummaryIndex.exists_record_of_final represents grows found
  obtain ⟨_, _, foundSummary, summarizes⟩ := collects.made _ _ inside
  cases callable.found.symm.trans foundSummary
  obtain ⟨usages, analyzed, recording⟩ := summarizes.exists_usages
  obtain ⟨_, records⟩ := paramAccesses_records recording
  obtain ⟨usage, tracked, states⟩ := records access record
  refine ⟨usages, usage, analyzed, tracked, ?_⟩
  have meets := SummaryIndex.translates_final represents wf grows callable record found
  by_cases all : solved.range.IsAll
  · exact Or.inl all
  refine Or.inr ⟨states.range ▸ meets.range, fun call member => ?_⟩
  obtain ⟨recorded, listed, same⟩ := exists_answer states.calls member
  obtain ⟨bound, binding⟩ :=
    SummaryIndex.boundFunction_ok collects.aliasesExist recorded.callee summary.unit
  cases bound with
  | none => exact absurd (meets.unbound recorded listed binding) all
  | some target =>
      obtain ⟨callee, bound, reached⟩ := collects.boundFunction differ same.callee binding
      have kept := (meets.bound recorded listed target binding).resolve_left all
      rw [same.param, same.offset] at kept
      exact ⟨callee, target, bound, reached, kept⟩

variable {config : Config} {verdict : Verdict} (analysis : unit.Analysis none config verdict)

/-- What the solver starts from in the module lies inside the solved record, and each of its calls
is a call of the record, unless the record is full or missing.
-/
theorem Analysis.start_recorded {func : FunctionId} {param : UInt32} {resolved : Usage Callee}
    (found : analysis.start.param? (.function func) param = some resolved)
    : (recordedRanges collection final (.function func) param).IsAll
      ∨ ∃ id solved, final.param? (.summary id) param = some solved
        ∧ recordedRanges collection final (.function func) param = solved.range
        ∧ ¬ solved.range.IsAll ∧ resolved.range ⊆ solved.range
        ∧ ∀ kept ∈ resolved.calls, ∃ callee target, kept.callee = .function callee
          ∧ (.function callee, target) ∈ collection.summarized
          ∧ ⟨.summary target, kept.param, kept.offset⟩ ∈ solved.calls := by
  have top := Range.isAll_top SummaryIndex.valid_recordWidth
  cases foundId : collection.find? (.function func) with
  | none =>
      rw [recordedRanges, foundId]
      exact Or.inl top
  | some id =>
      have inside : (.function func, id) ∈ collection.summarized :=
        mem_of_find?_key foundId
      rw [recordedRanges_of_mem collects inside]
      cases foundSolved : final.param? (.summary id) param with
      | none =>
          rw [Solver.rangesOf, foundSolved]
          exact Or.inl top
      | some solved =>
          rw [Solver.rangesOf_of_some foundSolved]
          by_cases all : solved.range.IsAll
          · exact Or.inl all
          refine Or.inr ⟨id, solved, foundSolved, rfl, all, ?_⟩
          obtain ⟨usages, usage, analyzed, tracked, full | ⟨range, calls⟩⟩ :=
            tracked_of_solved collects differ represents wf grows inside foundSolved
          · exact absurd full all
          obtain ⟨_, _, member, trackedHere, resolution⟩ := analysis.start_param? found
          obtain ⟨_, _, rfl, analyzedHere⟩ := exists_input analysis.listed member
          cases analyzed.symm.trans analyzedHere
          cases tracked.symm.trans trackedHere
          have proper := ((analysis.shaped member).params _ (Table.mem_of_get? tracked)).1
          obtain ⟨_, _, ⟨_, _, call, listed, outside⟩ | ⟨same, _, origins⟩⟩ :=
            resolveCalls_spec rangesWellFormed_none proper resolution
          · obtain ⟨_, _, bound, _⟩ := calls call listed
            cases bound.symm.trans outside
          refine ⟨same rfl ▸ range, fun kept member => ?_⟩
          obtain ⟨known, call, listed, param, offset, names⟩ := origins kept member
          obtain ⟨callee, target, bound, reached, forwarded⟩ := calls call listed
          obtain ⟨_, binding, equal⟩ := names.resolve_left fun lost => known lost.1
          cases bound.symm.trans binding
          exact ⟨callee, target, equal, reached, param ▸ offset ▸ forwarded⟩

variable (wide : unit.pointerWidth.bits = recordWidth) (straight : Solver.StraightRanges final)
  (settled : analysis.solver.Settled final)

include wide straight settled

/-- The propagated records solve what the analysis solves. -/
theorem Analysis.solution
    : analysis.solver.Solution recordWidth analysis.start (recordedRanges collection final) := by
  have made : Solver.make recordWidth config = .ok analysis.solver := wide ▸ analysis.made
  have wfStart : analysis.start.WellFormed recordWidth :=
    wide ▸ analysis.start_wellFormed rangesWellFormed_none
  have proper := recordedRanges_holds (Range.ofWidth_top SummaryIndex.valid_recordWidth)
    (fun func param usage found => (wf.usages func param usage found).range) collection
  have bounded := recordedRanges_holds (Range.straight_top SummaryIndex.valid_recordWidth)
    straight collection
  refine ⟨proper, bounded, ?_, ?_⟩
  · intro func param resolved found
    obtain ⟨id, rfl⟩ := analysis.start_function found
    rcases analysis.start_recorded collects differ represents wf grows found
      with all | ⟨_, _, _, same, _, range, _⟩
    · have width := (wfStart.usages _ _ _ found).range.bits_eq
      exact Range.subset_of_isAll all (width.trans (proper _ _).bits_eq.symm)
    · exact same ▸ range
  · intro func param assigned found call member
    rw [Functions.param?_assign, Option.map_eq_some_iff] at found
    obtain ⟨resolved, found, rfl⟩ := found
    obtain ⟨id, rfl⟩ := analysis.start_function found
    rcases analysis.start_recorded collects differ represents wf grows found
      with all | ⟨_, solved, foundSolved, same, known, _, calls⟩
    · obtain ⟨access, result, properAccess⟩ := Solver.access_spec made
        (wfStart.assign proper) (wfStart.usages _ _ _ found) member
      exact ⟨access, result,
        Range.subset_of_isAll all (properAccess.bits_eq.trans (proper _ _).bits_eq.symm)⟩
    · obtain ⟨callee, target, name, reached, forwarded⟩ := calls call member
      have absorbs := settled.absorbed made wf _ _ _ foundSolved _ forwarded
      have properSolved := (wf.usages _ _ _ foundSolved).range.wellFormed
      cases foundTarget : final.param? (.summary target) call.param with
      | none => exact absurd (absorbs.isAll_of_missing properSolved made foundTarget) known
      | some targetUsage =>
          -- The callee is tracked in the module as well, with the range of its record.
          obtain ⟨usages, usage, analyzed, tracked, _⟩ :=
            tracked_of_solved collects differ represents wf grows reached foundTarget
          obtain ⟨_, listed, analyzedHere⟩ := analysis.exists_local (collects.defined reached)
          cases analyzed.symm.trans analyzedHere
          obtain ⟨start, foundStart, _⟩ := analysis.exists_start_param? listed tracked
          obtain ⟨access, result, _, inside⟩ := absorbs
          refine ⟨access, ?_, same ▸ inside⟩
          rw [← result]
          refine Solver.access_eq_of_range rfl ?_
          rw [Functions.param?_assign, name, foundStart, foundTarget, Option.map_some,
            Option.map_some, Option.map_some, recordedRanges_of_mem collects reached,
            Solver.rangesOf_of_some foundTarget]

end Records

-----------------------------------------------------------------------------------------
-- The stages of both sides
-----------------------------------------------------------------------------------------

theorem mem_globals_of_boundFunction {symbol : Global} {bound : Option FunctionId}
    (result : unit.boundFunction symbol = .ok bound)
    : symbol ∈ unit.globals := by
  obtain ⟨_, here, _⟩ := exists_of_bind_eq_ok result
  obtain ⟨_, _, here⟩ := exists_of_bind_eq_ok here
  obtain ⟨_, linked, _⟩ := exists_of_bind_eq_ok here
  exact mem_globals_of_linkageOf linked

/-- A module that can be analysed can be summarised, with all its functions. -/
theorem Analysis.exists_collection {config : Config} {verdict : Verdict}
    (analysis : unit.Analysis none config verdict) (recording : config.recordAccesses = true)
    : ∃ collection, (unit.summarize config .empty).result = .ok collection.index
      ∧ unit.Collects true .empty collection
      ∧ ∀ id, unit.isDeclaration (.function id) = .ok false
        → ∃ number, (.function id, number) ∈ collection.summarized := by
  have wanted : unit.needsAccesses config = true := by rw [needsAccesses, recording, Bool.true_or]
  obtain ⟨collected, summarized⟩ := summarize_ok config .empty fun _ id defined => by
    obtain ⟨usages, member, analyzed⟩ := analysis.exists_local defined
    have shaped := analysis.shaped member
    obtain ⟨accesses, recorded⟩ := paramAccesses_ok shaped fun entry listed call inside => by
      have found := Table.get?_of_mem listed
      obtain ⟨_, _, resolution⟩ := analysis.exists_start_param? member found
      obtain ⟨_, bound⟩ := exists_binding_of_resolveCalls rangesWellFormed_none
        (shaped.params entry listed).1 resolution inside
      exact exists_guid (mem_globals_of_boundFunction bound)
    exact ⟨usages, accesses, analyzed, recorded⟩
  obtain ⟨collection, collects, rfl, all⟩ := summarize_spec summarized
  rw [wanted] at collects
  refine ⟨collection, summarized, collects, fun id defined => ?_⟩
  have listed := (List.mem_filter.mp (mem_definedFunctions.mpr defined)).1
  obtain ⟨⟨_, number⟩, inside, rfl⟩ := List.mem_map.mp (all id listed defined)
  exact ⟨number, inside⟩

section Propagation

variable {config : Config} {solver : Solver} (collects : unit.Collects true .empty collection)
  (wide : unit.pointerWidth.bits = recordWidth)
  (taken : collection.index.functions = .ok functions)

include collects wide taken

theorem Collects.straightRanges : Solver.StraightRanges functions :=
  SummaryIndex.straightRanges_of_measured (collects.measured wide) taken

/-- What a run over the functions of a module leads to, and what is stored of it. -/
theorem Collects.propagated (made : Solver.make recordWidth config = .ok solver)
    (ran : (solver.run config.verify functions).result = .ok final)
    : collection.index.Represents (fun _ => recordWidth) functions ∧ final.WellFormed recordWidth
      ∧ functions.Grows final ∧ Solver.StraightRanges final ∧ solver.Settled final
      ∧ ∃ index, collection.index.store final = .ok index
        ∧ ∀ id param, id.index < collection.index.summaries.length
          → index.access? id param = .ok ((final.param? (.summary id) param).map fun usage =>
            ⟨param, usage.range, []⟩) := by
  have represents := SummaryIndex.functions_represents taken (collects.recorded wide)
  obtain ⟨chain, absorbed⟩ := Solver.run_answer made represents.sized ran
  obtain ⟨wf, grows⟩ := Solver.sized_of_chain made represents.wellFormed chain
  have straight := Solver.chain_straight made represents.wellFormed
    (collects.straightRanges wide taken) chain
  exact ⟨represents, wf, grows, straight, absorbed.settled, SummaryIndex.store_spec
    ((Table.Related.keys_eq grows).symm ▸ represents.keys)⟩

omit wide in
/-- A function has at most as many records as tracked parameters, and is not counted yet. -/
theorem Collects.few_records {verdict : Verdict} (analysis : unit.Analysis none config verdict)
    {func : Callee} {info : FunctionUsage Callee} (found : functions.get? func = some info)
    : info.updates = 0 ∧ ∃ id reported, verdict.usages.get? id = some reported
      ∧ info.params.size ≤ reported.params.size := by
  obtain ⟨number, summary, rfl, foundSummary, propagated, translated⟩ :=
    SummaryIndex.exists_summary_of_functions taken (Table.mem_of_get? found)
  have fresh : info.updates = 0 := by
    obtain ⟨_, _, same⟩ := exists_of_bind_eq_ok translated
    cases same
    rfl
  have callable := SummaryIndex.callable_of_isPropagated foundSummary propagated
  obtain ⟨_, inside, summarizes⟩ := collects.exists_symbol foundSummary
  cases summarizes with
  | aliased _ kind _ _ =>
      have function := callable.function
      rw [kind] at function
      cases function
  | @function id _ _ describes kind defined recorded unrecorded =>
      have function : unit.Summarizes true collection.summarized (.function id) summary :=
        .function describes kind defined recorded unrecorded
      obtain ⟨usages, analyzed, recording⟩ := function.exists_usages
      obtain ⟨unique, records⟩ := paramAccesses_records recording
      obtain ⟨_, lookup⟩ := SummaryIndex.functionUsage_lookup unique translated
      have tracked : info.params.keys ⊆ usages.params.keys := by
        intro param member
        obtain ⟨⟨_, usage⟩, inside, rfl⟩ := List.mem_map.mp member
        obtain ⟨access, record, same, _⟩ := lookup _ usage (Table.get?_of_mem inside)
        obtain ⟨_, foundUsage, _⟩ := records access record
        exact same ▸ Table.mem_keys_of_get? foundUsage
      obtain ⟨reported, foundReported⟩ := analysis.exists_reported defined
      obtain ⟨locals, _, listed, concludes⟩ := analysis.exists_concluded foundReported
      obtain ⟨_, _, rfl, analyzedHere⟩ := exists_input analysis.listed listed
      cases analyzed.symm.trans analyzedHere
      refine ⟨fresh, _, reported, foundReported, ?_⟩
      have few := (List.subperm_of_subset info.params.keys_nodup tracked).length_le
      have keys : reported.params.keys = locals.params.keys := by
        rw [concludes.params, Table.keys_mapWithKey]
      rw [← keys] at few
      simpa only [Table.keys, Table.size, List.length_map] using few

end Propagation

/-- As long as nothing is made full by force, the analysis stays below every solution. -/
theorem Analysis.final_below {config : Config} {verdict : Verdict}
    (analysis : unit.Analysis none config verdict)
    (wide : unit.pointerWidth.bits = recordWidth) {ranges : Callee → UInt32 → Range}
    (solution : analysis.solver.Solution recordWidth analysis.start ranges)
    (counts : ∀ id info, verdict.usages.get? id = some info
      → info.updates.toNat ≤ config.maxIterations.toNat + 1)
    : Solver.Below analysis.final ranges := by
  have made : Solver.make recordWidth config = .ok analysis.solver := wide ▸ analysis.made
  have wf : analysis.start.WellFormed recordWidth :=
    wide ▸ analysis.start_wellFormed rangesWellFormed_none
  obtain ⟨chain, _⟩ := Solver.gentleChain_of_run made wf analysis.ran fun func info found => by
    obtain ⟨id, reported, foundReported, same⟩ :=
      analysis.reported_updates rangesWellFormed_none found
    exact same ▸ counts id reported foundReported
  exact Solver.gentleChain_below made wf solution chain

/-- The analysis of a module on its own and the propagation of its summary agree on the safe side.
Where every symbol has its own identifier and no function was counted more than once beyond the
limit, the module can be summarised, its summary can be propagated unless a counter may run full,
and the reported range of a parameter lies inside the range on record for it; a parameter without
record may be accessed anywhere.
-/
theorem analyze_within_propagated {unit : Module} {config : Config} {verdict : Verdict}
    (wide : unit.pointerWidth = .w64) (differ : unit.GuidsDiffer)
    (recording : config.recordAccesses = true)
    (analyzed : (unit.analyze none config).result = .ok verdict)
    (counts : ∀ id info, verdict.usages.get? id = some info
      → info.updates.toNat ≤ config.maxIterations.toNat + 1)
    : ∃ collected, (unit.summarize config .empty).result = .ok collected
      ∧ ((∀ id info, verdict.usages.get? id = some info
          → config.maxIterations.toNat + 1 + info.params.size < UInt32.size)
        → ∃ index, (collected.propagate config).result = .ok index)
      ∧ ∀ index, (collected.propagate config).result = .ok index
        → ∀ id info param usage, verdict.usages.get? id = some info
          → info.params.get? param = some usage
          → ∃ guid summary record, unit.guidOf (.function id) = .ok guid
            ∧ index.summariesOf guid = [summary]
            ∧ index.access? summary param = .ok record
            ∧ usage.range ⊆ (record.map (·.range)).getD (Range.top 64) := by
  have width : unit.pointerWidth.bits = recordWidth := by rw [wide]; rfl
  obtain ⟨analysis⟩ := exists_analysis analyzed
  have made : Solver.make recordWidth config = .ok analysis.solver := width ▸ analysis.made
  obtain ⟨collection, summarized, collects, all⟩ := analysis.exists_collection recording
  refine ⟨collection.index, summarized, ?_, ?_⟩
  · intro fits
    have recorded := collects.recorded width
    obtain ⟨functions, taken⟩ := recorded.exists_functions collects.aliasesExist
    have represents := SummaryIndex.functions_represents taken recorded
    have within : analysis.solver.AllWithin functions := by
      intro func info found
      obtain ⟨fresh, id, reported, foundReported, few⟩ := collects.few_records taken analysis found
      have bound := fits id reported foundReported
      rw [← Solver.limit_of_make made] at bound
      exact ⟨by simp [fresh], by omega⟩
    obtain ⟨final, ran⟩ := Solver.run_answers made represents.wellFormed within config.verify
    obtain ⟨_, _, _, _, _, index, stored, _⟩ := collects.propagated width taken made ran
    exact ⟨index, by rw [SummaryIndex.result_propagate taken made, ran, ok_bind, stored]⟩
  · intro index propagated id info param usage found foundUsage
    obtain ⟨functions, solver, final, taken, madeAgain, ran, stored⟩ :=
      SummaryIndex.exists_propagation propagated
    cases made.symm.trans madeAgain
    obtain ⟨represents, wf, grows, straight, settled, _, storing, records⟩ :=
      collects.propagated width taken made ran
    cases stored.symm.trans storing
    have solution := analysis.solution collects differ represents wf grows width straight settled
    have below := analysis.final_below width solution counts
    obtain ⟨_, _, solved, member, _, foundSolved, rfl⟩ :=
      analysis.reported_param rangesWellFormed_none found foundUsage
    obtain ⟨_, listed, rfl, _⟩ := exists_input analysis.listed member
    obtain ⟨number, inside⟩ := all _ (mem_definedFunctions.mp listed)
    obtain ⟨_, summary, foundSummary, summarizes⟩ := collects.made _ _ inside
    have guid := summarizes.describes.guid
    refine ⟨summary.guid, number, _, guid, ?_,
      records number param (List.getElem?_eq_some_iff.mp foundSummary).1, ?_⟩
    · rw [← SummaryIndex.summariesOf_clearAccesses, SummaryIndex.clearAccesses_store stored,
        SummaryIndex.summariesOf_clearAccesses]
      exact collects.summariesOf_eq differ inside guid
    · have range := below _ _ _ foundSolved
      rw [recordedRanges_of_mem collects inside, Solver.rangesOf] at range
      rw [Option.map_map]
      exact range

/-- Stores four bytes through its parameter. -/
def writeFour : Function where
  sig := .declared "write" .internal [.ptr] .unit
  values := [.argument .ptr 0, .constant (.i32 7)]
  insts := [.store ⟨0⟩ ⟨1⟩, .ret none]
  blockCount := 1
  layout := [⟨⟨0⟩, [⟨0⟩, ⟨1⟩]⟩]

/-- Hands its parameter to an alias, moved by four bytes. -/
def passMoved : Function where
  sig := .declared "pass" .exported [.ptr] .unit
  values := [.argument .ptr 0, .constant (.i64 4), .result ⟨0⟩ .ptr]
  insts := [.ptrAdd ⟨0⟩ ⟨1⟩, .call ⟨.direct (.aliased ⟨0⟩), [⟨2⟩], [], .unit⟩, .ret none]
  blockCount := 1
  layout := [⟨⟨0⟩, [⟨0⟩, ⟨1⟩, ⟨2⟩]⟩]

def relay : Module :=
  ⟨"relay", ⟨.x86_64, .unknown, .linux⟩, [writeFour, passMoved],
    [⟨"other", .exported, true, .function ⟨0⟩⟩]⟩

/-- What the local analysis finds in the module. -/
def relayLocals : List (FunctionId × FunctionUsage Global) :=
  [(⟨0⟩, ⟨.empty, .ofList [(0, ⟨⟨64, 0, 4⟩, []⟩)], 0⟩),
    (⟨1⟩, ⟨.empty, .ofList [(0, ⟨⟨64, 0, 0⟩, [⟨.aliased ⟨0⟩, 0, ⟨64, 4, 5⟩⟩]⟩)], 0⟩)]

/-- The functions of the module as the solver sees them. -/
def relayFunctions (range : Range) (updates : UInt32) : Functions :=
  .ofList [(.function ⟨0⟩, ⟨.empty, .ofList [(0, ⟨⟨64, 0, 4⟩, []⟩)], 0⟩),
    (.function ⟨1⟩, ⟨.empty, .ofList [(0, ⟨range, [⟨.function ⟨0⟩, 0, ⟨64, 4, 5⟩⟩]⟩)], updates⟩)]

/-- What is reported for the module. -/
def relayUsages : Table FunctionId (FunctionUsage Global) :=
  .ofList [(⟨0⟩, ⟨.empty, .ofList [(0, ⟨⟨64, 0, 4⟩, []⟩)], 0⟩),
    (⟨1⟩, ⟨.empty, .ofList [(0, ⟨⟨64, 4, 8⟩, [⟨.aliased ⟨0⟩, 0, ⟨64, 4, 5⟩⟩]⟩)], 1⟩)]

theorem run_relayFunctions
    : ((Solver.mk (Range.top 64) 20).run true (relayFunctions ⟨64, 0, 0⟩ 0)).result
      = .ok (relayFunctions ⟨64, 4, 8⟩ 1) := by
  let solver : Solver := ⟨Range.top 64, 20⟩
  have visited : (solver.visitAll [.function ⟨0⟩, .function ⟨1⟩]
      ⟨relayFunctions ⟨64, 0, 0⟩ 0, []⟩).result = .ok ⟨relayFunctions ⟨64, 4, 8⟩ 1, []⟩ := rfl
  have again : (solver.visitAll [.function ⟨0⟩, .function ⟨1⟩]
      ⟨relayFunctions ⟨64, 4, 8⟩ 1, []⟩).result = .ok ⟨relayFunctions ⟨64, 4, 8⟩ 1, []⟩ := rfl
  change (solver.run true _).result = _
  simp only [Solver.run, Traced.result_bind, ↓reduceIte]
  change (solver.visitAll [.function ⟨0⟩, .function ⟨1⟩] _).result >>= _ = _
  rw [visited, ok_bind, Solver.result_drain_nil rfl, ok_bind]
  change (solver.visitAll [.function ⟨0⟩, .function ⟨1⟩] _).result >>= _ = _
  rw [again]
  rfl

theorem exists_verdict_relay
    : ∃ verdict, (relay.analyze none { recordAccesses := true }).result = .ok verdict
      ∧ verdict.usages = relayUsages := by
  have straightWrite : writeFour.IsStraight ⟨⟨0⟩, [⟨0⟩, ⟨1⟩]⟩ := ⟨rfl, rfl, rfl⟩
  have straightPass : passMoved.IsStraight ⟨⟨0⟩, [⟨0⟩, ⟨1⟩, ⟨2⟩]⟩ := ⟨rfl, rfl, rfl⟩
  have listed : relay.analyzeLocally.result = .ok relayLocals := by
    rw [analyzeLocally, Traced.result_mapM]
    change List.mapM _ [FunctionId.mk 0, ⟨1⟩] = _
    refine mapM_eq_ok_iff.mpr (.cons ?_ (.cons ?_ .nil))
    · rw [Traced.result_bind, straightWrite.analyzeFunction rfl]
      decide +kernel
    · rw [Traced.result_bind, straightPass.analyzeFunction rfl]
      decide +kernel
  have resolved : List.Forall₂
      (fun (entry : FunctionId × FunctionUsage Global) (answer : Callee × FunctionUsage Callee) =>
        answer.1 = .function entry.1 ∧ (relay.resolveParams none entry.2).result = .ok answer.2)
      relayLocals (relayFunctions ⟨64, 0, 0⟩ 0).entries :=
    .cons ⟨rfl, by decide +kernel⟩ (.cons ⟨rfl, by decide +kernel⟩ .nil)
  obtain ⟨concluded, concluding, same⟩ := exists_of_bind_eq_ok
    (show (relayLocals.mapM fun entry =>
        (relay.conclude none ⟨Range.top 64, 20⟩ (relayFunctions ⟨64, 4, 8⟩ 1) entry).result)
      >>= (fun concluded => pure (concluded.map fun answer => (answer.1, answer.2.1)))
      = .ok relayUsages.entries by decide +kernel)
  let config : Config := { recordAccesses := true }
  have made : Solver.make relay.pointerWidth.bits config = .ok ⟨Range.top 64, 20⟩ := rfl
  obtain ⟨total, analyzed⟩ := result_analyze (rfl : config.print = false) listed resolved made
    run_relayFunctions concluding
  exact ⟨_, analyzed, congrArg Table.ofList (Except.ok.inj same)⟩

theorem analyze_within_propagated_relay
    : relay.pointerWidth = .w64
      ∧ relay.GuidsDiffer
      ∧ ∃ verdict collected index guid summary record,
        (relay.analyze none { recordAccesses := true }).result = .ok verdict
        ∧ (relay.summarize { recordAccesses := true } .empty).result = .ok collected
        ∧ (collected.propagate { recordAccesses := true }).result = .ok index
        ∧ relay.guidOf (.function ⟨1⟩) = .ok guid
        ∧ index.summariesOf guid = [summary]
        ∧ index.access? summary 0 = .ok record
        ∧ (∃ info usage, verdict.usages.get? ⟨1⟩ = some info ∧ info.params.get? 0 = some usage
          ∧ usage.range = ⟨64, 4, 8⟩)
        ∧ (Range.mk 64 4 8) ⊆ (record.map (·.range)).getD (Range.top 64) := by
  have differ : relay.GuidsDiffer := by
    unfold GuidsDiffer
    decide +kernel
  obtain ⟨verdict, analyzed, same⟩ := exists_verdict_relay
  have reported (id : FunctionId) (info : FunctionUsage Global)
      (found : verdict.usages.get? id = some info)
      : info.updates.toNat ≤ 1 ∧ info.params.size = 1 := by
    have each : ∀ entry ∈ relayUsages.entries,
        entry.2.updates.toNat ≤ 1 ∧ entry.2.params.size = 1 := by decide
    exact each _ (same ▸ Table.mem_of_get? found)
  obtain ⟨collected, summarized, answers, agree⟩ :=
    analyze_within_propagated rfl differ rfl analyzed fun id info found =>
      Nat.le_trans (reported id info found).1 (by decide)
  obtain ⟨index, propagated⟩ := answers fun id info found => by
    rw [(reported id info found).2]
    decide
  have foundPass : verdict.usages.get? ⟨1⟩
      = some ⟨.empty, .ofList [(0, ⟨⟨64, 4, 8⟩, [⟨.aliased ⟨0⟩, 0, ⟨64, 4, 5⟩⟩]⟩)], 1⟩ := by
    rw [same]
    rfl
  obtain ⟨guid, summary, record, named, found, recorded, inside⟩ :=
    agree index propagated ⟨1⟩ _ 0 _ foundPass rfl
  exact ⟨rfl, differ, verdict, collected, index, guid, summary, record, analyzed, summarized,
    propagated, named, found, recorded, ⟨_, _, foundPass, rfl, rfl⟩, inside⟩

end StackBounds.Module
