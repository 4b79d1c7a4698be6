import StackBounds.Proofs.Forwarding
import StackBounds.Proofs.Solver.Least

/-! No range that is kept passes the end of the signed numbers: not in the local results, not after
their calls are resolved, not while the solver runs and not in the verdict.
-/

namespace StackBounds

open Relation (ReflTransGen)

-----------------------------------------------------------------------------------------
-- Usages that are kept
-----------------------------------------------------------------------------------------

/-- A usage as it is kept: its ranges are of the width, the offsets of its calls are not empty, and
none of them passes the end of the signed numbers, unless it is full.
-/
structure Usage.Stored {γ : Type} (bits : UInt32) (usage : Usage γ) : Prop
    extends Usage.WellFormed bits usage where
  straight : usage.range.Straight
  offsets : ∀ call ∈ usage.calls, call.offset.Straight

/-- The usages of the allocations and of the parameters. -/
def FunctionUsage.all {γ : Type} (usages : FunctionUsage γ) : List (Usage γ) :=
  usages.allocas.entries.map (·.2) ++ usages.params.entries.map (·.2)

/-- All usages of a function are as they are kept. -/
def FunctionUsage.Stored {γ : Type} (bits : UInt32) (usages : FunctionUsage γ) : Prop :=
  ∀ usage ∈ usages.all, usage.Stored bits

-----------------------------------------------------------------------------------------
-- Local results
-----------------------------------------------------------------------------------------

namespace LocalAnalysis

variable {analysis : LocalAnalysis} {base : ValueId} {alloca : Option InstId} {tracked : Tracked}

variable {lifetime : Lifetime} (reads : analysis.Reads lifetime)

include reads

/-- Offsets are full or do not pass the end of the signed numbers. -/
theorem offset_straight {addr : ValueId} {range : Range}
    (result : analysis.offset addr base = .ok range)
    : range.Straight := by
  obtain ⟨source, found, result⟩ := exists_of_bind_eq_ok result
  obtain ⟨proper, _⟩ := offsetFrom_covers reads (Possible.closed_empty _ _) found
  rw [proper.wellFormed.isUnusable_eq] at result
  simp only [ok_bind, decide_eq_true_eq] at result
  split at result
  · exact Or.inr (Or.inl (unknown_spec result).2)
  · rename_i usable
    have same : source.resizeSigned analysis.pointer.bits = .ok source := by
      simp [Range.resizeSigned, proper.bits_eq]
    cases same.symm.trans result
    rw [not_or, not_or] at usable
    exact proper.wellFormed.straight_iff.mpr (Or.inr (Or.inr usable.2.2))

/-- The usage of a tracked address is as it is kept. -/
theorem track_stored (result : (analysis.track base alloca).result = .ok tracked)
    : tracked.usage.Stored analysis.pointer.bits := by
  obtain ⟨wf, straight, _⟩ := track_keeps reads.proper result
  refine ⟨wf, straight, fun call member => ?_⟩
  obtain ⟨_, _, _, _, _, _, moved⟩ := track_origin result member
  exact offset_straight reads moved

end LocalAnalysis

-----------------------------------------------------------------------------------------
-- Runs of the solver
-----------------------------------------------------------------------------------------

namespace Solver

variable {bits : UInt32} {config : Config} {solver : Solver} {start functions : Functions}

/-- Wherever a run passes through, ranges do not pass the end of the signed numbers; by induction on
the steps.
-/
theorem Passes.straight (made : make bits config = .ok solver) (wf : start.WellFormed bits)
    (straight : StraightRanges start) (passes : solver.Passes start functions)
    : StraightRanges functions := by
  induction passes with
  | start => exact straight
  | visited before result ih =>
      have wfBefore := (before.grows made wf).1
      exact chain_straight made wfBefore ih (chain_of_visit made wfBefore result)
  | swept before found split result ih =>
      have wfBefore := (before.grows made wf).1
      have chain := widenings_of_sweep made wfBefore found split result
      exact widenings_straight made wfBefore ih chain.to_reflTransGen

/-- Wherever a run passes through, usages are as they are kept, if those of the start are. -/
theorem Passes.stored (made : make bits config = .ok solver) (wf : start.WellFormed bits)
    (stored : ∀ func param usage, start.param? func param = some usage → usage.Stored bits)
    (passes : solver.Passes start functions)
    : ∀ func param usage, functions.param? func param = some usage → usage.Stored bits := by
  obtain ⟨wfAfter, grows⟩ := passes.grows made wf
  have straight := passes.straight made wf fun func param usage found =>
    (stored func param usage found).straight
  intro func param usage found
  obtain ⟨before, foundBefore, same⟩ := grows.exists_param? found
  refine ⟨wfAfter.usages func param usage found, straight func param usage found, ?_⟩
  rw [same.calls]
  exact (stored func param before foundBefore).offsets

end Solver

-----------------------------------------------------------------------------------------
-- The stages of an analysis
-----------------------------------------------------------------------------------------

namespace Module

variable {unit : Module} {index : Option SummaryIndex} {config : Config} {verdict : Verdict}

/-- Everything that the local analysis lists comes from tracking an address. -/
theorem exists_tracked {id : FunctionId} {usages : FunctionUsage Global}
    (result : (unit.analyzeFunction id).result = .ok usages) {usage : Usage Global}
    (listed : usage ∈ usages.all)
    : ∃ analysis lifetime base alloca tracked, analysis.pointer = unit.pointerWidth
      ∧ LocalAnalysis.Reads analysis lifetime
      ∧ (analysis.track base alloca).result = .ok tracked ∧ tracked.usage = usage := by
  simp only [analyzeFunction, Traced.result_bind, Traced.result_liftM] at result
  obtain ⟨func, _, result⟩ := exists_of_bind_eq_ok result
  obtain ⟨analysis, made, ran⟩ := exists_of_bind_eq_ok result
  obtain ⟨_, pointer, lifetime, reads⟩ := LocalAnalysis.reads_of_ofFunction made
  obtain ⟨params, allocas⟩ := LocalAnalysis.run_spec ran
  rcases List.mem_append.mp listed with alloca | param
  · obtain ⟨entry, member, rfl⟩ := List.mem_map.mp alloca
    obtain ⟨base, tracked, _, _, tracking, same⟩ := allocas entry member
    exact ⟨analysis, lifetime, base, _, tracked, pointer, reads, tracking, same⟩
  · obtain ⟨entry, member, rfl⟩ := List.mem_map.mp param
    obtain ⟨_, _, _, tracked, tracking, same⟩ := params entry member
    exact ⟨analysis, lifetime, _, _, tracked, pointer, reads, tracking, same⟩

theorem analyzeFunction_stored {id : FunctionId} {usages : FunctionUsage Global}
    (result : (unit.analyzeFunction id).result = .ok usages)
    : usages.Stored unit.pointerWidth.bits := by
  intro usage listed
  obtain ⟨_, _, _, _, _, pointer, reads, tracking, rfl⟩ := exists_tracked result listed
  exact pointer ▸ LocalAnalysis.track_stored reads tracking

/-- A usage is as it is kept after its calls are resolved. -/
theorem resolveCalls_stored {usage : Usage Global} {resolved : Usage Callee}
    (trusted : RangesWellFormed index) (stored : usage.Stored unit.pointerWidth.bits)
    (result : (unit.resolveCalls index usage).result = .ok resolved)
    : resolved.Stored unit.pointerWidth.bits := by
  have wf := stored.toWellFormed
  obtain ⟨wfResolved, _, ⟨all, dropped, _⟩ | ⟨_, _, origins⟩⟩ :=
    resolveCalls_spec trusted wf result
  · exact ⟨wfResolved, Or.inr (Or.inl all), by simp [dropped]⟩
  refine ⟨wfResolved, ?_, fun kept member => ?_⟩
  · obtain ⟨bound, _, accounting, result⟩ := exists_accounting_of_resolveCalls trusted wf result
    have isHull := accounting.isHull _ (Range.isHull_self wf.range stored.straight)
    unfold Usage.collapse at result
    split at result
    · obtain ⟨unknown, forgotten, result⟩ := exists_of_bind_eq_ok result
      cases result
      exact Or.inr (Or.inl (accounting.wellFormed.of_forget forgotten).2)
    · cases result
      exact isHull.straight
  · obtain ⟨_, call, inside, _, same, _⟩ := origins kept member
    exact same ▸ stored.offsets call inside

/-- What is judged for an allocation is as it is kept. -/
theorem judge_stored {solver : Solver} {final : Functions} {func : Function}
    {alloca : InstId × Usage Global} {judged : Judged} (trusted : RangesWellFormed index)
    (made : Solver.make unit.pointerWidth.bits config = .ok solver)
    (wf : final.WellFormed unit.pointerWidth.bits)
    (stored : alloca.2.Stored unit.pointerWidth.bits)
    (result : (unit.judge index solver final func alloca).result = .ok judged)
    : judged.usage.Stored unit.pointerWidth.bits := by
  simp only [judge, Traced.result_bind, Traced.result_liftM, Traced.result_pure] at result
  obtain ⟨resolved, resolution, result⟩ := exists_of_bind_eq_ok result
  obtain ⟨range, ranged, result⟩ := exists_of_bind_eq_ok result
  obtain ⟨_, _, result⟩ := exists_of_bind_eq_ok result
  obtain ⟨_, _, result⟩ := exists_of_bind_eq_ok result
  cases result
  have storedResolved := resolveCalls_stored trusted stored resolution
  obtain ⟨proper, _, _, keeps⟩ := finalRange_spec made wf storedResolved.toWellFormed ranged
  exact ⟨⟨proper, stored.offset, stored.moved⟩, keeps storedResolved.straight, stored.offsets⟩

namespace Analysis

variable (analysis : unit.Analysis index config verdict)

theorem locals_stored {id : FunctionId} {usages : FunctionUsage Global}
    (member : (id, usages) ∈ analysis.locals)
    : usages.Stored unit.pointerWidth.bits := by
  obtain ⟨_, _, rfl, analyzed⟩ := exists_input analysis.listed member
  exact analyzeFunction_stored analyzed

/-- What the solver starts from is as it is kept. -/
theorem start_stored (trusted : RangesWellFormed index) (func : Callee) (param : UInt32)
    (resolved : Usage Callee) (found : analysis.start.param? func param = some resolved)
    : resolved.Stored unit.pointerWidth.bits := by
  obtain ⟨id, rfl⟩ := analysis.start_function found
  obtain ⟨usages, usage, member, foundUsage, resolution⟩ := analysis.start_param? found
  refine resolveCalls_stored trusted (analysis.locals_stored member usage ?_) resolution
  exact List.mem_append_right _ (List.mem_map.mpr ⟨_, Table.mem_of_get? foundUsage, rfl⟩)

/-- Wherever the solver passes through, usages are as they are kept. -/
theorem passes_stored (trusted : RangesWellFormed index) {functions : Functions}
    (passes : analysis.solver.Passes analysis.start functions)
    : ∀ func param usage, functions.param? func param = some usage
      → usage.Stored unit.pointerWidth.bits :=
  passes.stored analysis.made (analysis.start_wellFormed trusted) (analysis.start_stored trusted)

include analysis in
/-- What is reported is as it is kept. -/
theorem reported_stored (trusted : RangesWellFormed index) {id : FunctionId}
    {info : FunctionUsage Global} (found : verdict.usages.get? id = some info)
    : info.Stored unit.pointerWidth.bits := by
  have wf := (analysis.solved trusted).1
  have passes := Solver.passes_of_run analysis.made (analysis.start_wellFormed trusted)
    analysis.ran
  obtain ⟨usages, judged, member, concludes⟩ := analysis.exists_concluded found
  have stored := analysis.locals_stored member
  intro usage listed
  rcases List.mem_append.mp listed with alloca | param
  · obtain ⟨entry, inside, rfl⟩ := List.mem_map.mp alloca
    rw [concludes.allocas] at inside
    obtain ⟨answer, answered, rfl⟩ := List.mem_map.mp inside
    obtain ⟨func, _, judging⟩ := concludes.judged
    obtain ⟨before, tracked, result⟩ := exists_input judging answered
    refine judge_stored trusted analysis.made wf (stored before.2 ?_) result
    exact List.mem_append_left _ (List.mem_map.mpr ⟨before, tracked, rfl⟩)
  · obtain ⟨entry, inside, rfl⟩ := List.mem_map.mp param
    rw [concludes.params] at inside
    obtain ⟨before, tracked, rfl⟩ := List.mem_map.mp inside
    have kept := stored before.2 (List.mem_append_right _ (List.mem_map.mpr ⟨before, tracked, rfl⟩))
    cases solved : analysis.final.param? (.function id) before.1 with
    | none => simpa only [solved, Option.map_none, Option.getD_none] using kept
    | some usage =>
        have settled := analysis.passes_stored trusted passes _ _ _ solved
        simp only [solved, Option.map_some, Option.getD_some]
        exact ⟨⟨settled.range, kept.offset, kept.moved⟩, settled.straight, kept.offsets⟩

end Analysis

/-- No range that is kept is malformed or passes the end of the signed numbers. Whatever the index
has on record, as long as it denotes sets: the local results, what they become when their calls are
resolved, the functions wherever the solver passes through, and the verdict have ranges of the
pointer width that are empty, full or a signed interval, and offsets of calls that are full or a
signed interval.
-/
theorem analyze_keeps_straight (trusted : RangesWellFormed index)
    (analyzed : (unit.analyze index config).result = .ok verdict)
    : ∃ analysis : unit.Analysis index config verdict,
      (∀ entry ∈ analysis.locals, entry.2.Stored unit.pointerWidth.bits)
      ∧ (∀ entry ∈ analysis.locals, ∀ usage ∈ entry.2.all, ∀ resolved,
        (unit.resolveCalls index usage).result = .ok resolved
          → resolved.Stored unit.pointerWidth.bits)
      ∧ (∀ functions, analysis.solver.Passes analysis.start functions
        → ∀ func param usage, functions.param? func param = some usage
          → usage.Stored unit.pointerWidth.bits)
      ∧ ∀ entry ∈ verdict.usages.entries, entry.2.Stored unit.pointerWidth.bits := by
  obtain ⟨analysis⟩ := exists_analysis analyzed
  refine ⟨analysis, fun entry member => analysis.locals_stored member,
    fun entry member usage listed resolved => ?_,
    fun functions passes => analysis.passes_stored trusted passes, fun entry member => ?_⟩
  · exact resolveCalls_stored trusted (analysis.locals_stored member usage listed)
  · exact analysis.reported_stored trusted (Table.get?_of_mem member)

/-- Eight bytes around the end of the signed numbers, on record for a function of another module. -/
def wrapped : Summary := relayed ⟨64, 0x7FFFFFFFFFFFFFFC, 0x8000000000000004⟩ []

/-- Witness: what is on record passes the end of the signed numbers, and what is kept for the lent
allocation is full.
-/
theorem analyze_keeps_straight_lender
    : RangesWellFormed (some ⟨[wrapped]⟩)
      ∧ ¬ (Range.mk 64 0x7FFFFFFFFFFFFFFC 0x8000000000000004).Straight
      ∧ ∃ verdict, (lender.analyze (some ⟨[wrapped]⟩) recording).result = .ok verdict
        ∧ verdict.usages = .ofList [(⟨1⟩,
          ⟨.ofList [(⟨0⟩, ⟨Range.top 64, [⟨.function ⟨0⟩, 0, ⟨64, 0, 1⟩⟩]⟩)], .empty, 0⟩)]
        ∧ ∀ entry ∈ verdict.usages.entries, entry.2.Stored 64 := by
  have trusted : RangesWellFormed (some ⟨[wrapped]⟩) := by
    rintro _ ⟨⟩
    decide +kernel
  obtain ⟨concluded, concluding, same⟩ := exists_of_bind_eq_ok
    (show (lenderLocals.mapM fun entry => (lender.conclude (some ⟨[wrapped]⟩) ⟨Range.top 64, 20⟩
        (.ofList [(.function ⟨1⟩, ⟨.empty, .empty, 0⟩)]) entry).result)
      >>= (fun concluded => pure (concluded.map fun answer => (answer.1, answer.2.1)))
      = .ok [(⟨1⟩, ⟨.ofList [(⟨0⟩, ⟨Range.top 64, [⟨.function ⟨0⟩, 0, ⟨64, 0, 1⟩⟩]⟩)], .empty, 0⟩)]
      by decide +kernel)
  obtain ⟨total, analyzed⟩ := analyze_lender ⟨[wrapped]⟩ concluding
  obtain ⟨_, _, _, _, stored⟩ := analyze_keeps_straight trusted analyzed
  exact ⟨trusted, by decide +kernel, _, analyzed, congrArg Table.ofList (Except.ok.inj same),
    stored⟩

end Module

end StackBounds
