import StackBounds.Proofs.Analysis
import StackBounds.Proofs.Local.PlainUses

/-! Constant accesses. A plainly used allocation makes no calls, so its own range is the one that is
judged: the verdict calls it safe exactly when every access stays inside it.
-/

namespace StackBounds

open Word (IsOffset)

namespace Module

variable {unit : Module} {index : Option SummaryIndex} {config : Config} {verdict : Verdict}

theorem isDeclaration_eq_false {id : FunctionId} {func : Function} {inst : InstId}
    (found : unit.function id = .ok func) (placed : inst ∈ func.placedInsts)
    : unit.isDeclaration (.function id) = .ok false := by
  have body : func.isDeclaration = false := by
    rw [Function.isDeclaration, List.isEmpty_eq_false_iff]
    intro empty
    rw [Function.placedInsts, empty] at placed
    cases placed
  rw [isDeclaration, found, ok_bind, body, pure_eq_ok]

/-- Without calls there is nothing to resolve. -/
theorem result_resolveCalls_of_nil {usage : Usage Global} (none : usage.calls = [])
    : (unit.resolveCalls index usage).result = .ok ⟨usage.range, []⟩ := by
  rw [resolveCalls, none]
  rfl

/-- The local analysis lists every placed allocation with a size and a result, and tracks it. -/
theorem exists_tracked_alloca {id : FunctionId} {func : Function} {usages : FunctionUsage Global}
    {alloca : InstId} {base : ValueId} (found : unit.function id = .ok func)
    (locally : (unit.analyzeFunction id).result = .ok usages) (placed : alloca ∈ func.placedInsts)
    (allocates : func.Allocates unit.pointerWidth alloca)
    (results : func.resultOf alloca = some base)
    : ∃ analysis lifetime tracked, LocalAnalysis.Reads analysis lifetime
      ∧ analysis.func = func
      ∧ analysis.pointer = unit.pointerWidth
      ∧ (analysis.track base (some alloca)).result = .ok tracked
      ∧ (alloca, tracked.usage) ∈ usages.allocas.entries := by
  simp only [analyzeFunction, Traced.result_bind, Traced.result_liftM, found, ok_bind] at locally
  obtain ⟨analysis, made, ran⟩ := exists_of_bind_eq_ok locally
  obtain ⟨rfl, pointer, lifetime, reads⟩ := LocalAnalysis.reads_of_ofFunction made
  rw [← pointer] at allocates
  obtain ⟨usage, listed⟩ := LocalAnalysis.run_lists ran placed allocates
    (Option.isSome_iff_exists.mpr ⟨base, results⟩)
  obtain ⟨_, allocas⟩ := LocalAnalysis.run_spec ran
  obtain ⟨_, tracked, _, resultsAgain, tracking, rfl⟩ := allocas _ listed
  cases results.symm.trans resultsAgain
  exact ⟨analysis, lifetime, tracked, reads, rfl, pointer, tracking, listed⟩

/-- The local analysis lists a plainly used allocation without calls, and with a range that is
included in the bytes of the allocation exactly when every access is.
-/
theorem exists_usage_subset_iff {id : FunctionId} {func : Function} {marked : MarkedFlow}
    {alloca : InstId} {base : ValueId} {bytes : Int} {usages : FunctionUsage Global}
    (found : unit.function id = .ok func) (one : func.OneResult)
    (control : MarkedFlow.ofFunction func = .ok marked)
    (plainly : func.UsedPlainly unit.pointerWidth marked alloca base bytes)
    (locally : (unit.analyzeFunction id).result = .ok usages)
    : ∃ usage whole, (alloca, usage) ∈ usages.allocas.entries
      ∧ func.allocaRange unit.pointerWidth alloca = .ok whole
      ∧ whole.OfWidth unit.pointerWidth.bits
      ∧ usage.range.OfWidth unit.pointerWidth.bits
      ∧ usage.calls = []
      ∧ (usage.range ⊆ whole
        ↔ ∀ offset size, func.AccessesAt unit.pointerWidth marked base offset size
          → 0 < size → 0 ≤ offset ∧ offset + size ≤ bytes) := by
  obtain ⟨whole, sized, proper, _, elements⟩ :=
    plainly.reserves.exists_allocaRange plainly.positive plainly.small
  have allocates : func.Allocates unit.pointerWidth alloca := by
    refine ⟨whole, sized, fun none => ?_⟩
    have first := (elements 0).mpr ⟨Int.le_refl 0, plainly.positive⟩
    exact proper.wellFormed.not_mem_of_isNone none _ first.2
  obtain ⟨analysis, lifetime, tracked, reads, rfl, pointer, tracking, listed⟩ :=
    exists_tracked_alloca found locally plainly.placed allocates plainly.results
  cases control.symm.trans reads.describes.control
  rw [← pointer] at plainly sized proper ⊢
  obtain ⟨noCalls, exactly⟩ := LocalAnalysis.track_subset_iff reads plainly one tracking sized
  have wf := (LocalAnalysis.track_keeps reads.proper tracking).1
  exact ⟨tracked.usage, whole, listed, sized, proper, wf.range, noCalls, exactly⟩

/-- The verdict is exact for accesses at constant offsets. An allocation without lifetime markers,
of a positive size below half the address space, whose uses are casts, additions of constants,
loads and stores, at offsets that stay below the greatest signed number, is safe exactly when every
reachable load and store of some bytes stays inside the allocation.
-/
theorem analyze_safe_iff_accesses_inside {id : FunctionId} {func : Function} {marked : MarkedFlow}
    {alloca : InstId} {base : ValueId} {bytes : Int} (found : unit.function id = .ok func)
    (one : func.OneResult) (control : MarkedFlow.ofFunction func = .ok marked)
    (plainly : func.UsedPlainly unit.pointerWidth marked alloca base bytes)
    (analyzed : (unit.analyze index config).result = .ok verdict)
    : (id, alloca) ∈ verdict.safe
      ↔ ∀ offset size, func.AccessesAt unit.pointerWidth marked base offset size
        → 0 < size → 0 ≤ offset ∧ offset + size ≤ bytes := by
  obtain ⟨analysis⟩ := exists_analysis analyzed
  obtain ⟨usages, member, locally⟩ :=
    analysis.exists_local (isDeclaration_eq_false found plainly.placed)
  obtain ⟨usage, whole, listed, sized, proper, properUsage, noCalls, exactly⟩ :=
    exists_usage_subset_iff found one control plainly locally
  obtain ⟨judged, judging, safe⟩ := analysis.exists_judged_iff found locally member listed
  obtain ⟨_, resolved, range, _, resolution, ranged, sizedAgain, decided⟩ := judge_spec judging
  cases sized.symm.trans sizedAgain
  -- There is nothing to resolve, so the range that is judged is the local one.
  cases (result_resolveCalls_of_nil noCalls).symm.trans resolution
  cases ranged
  have contained := Range.contains_eq_true_iff proper.wellFormed properUsage.wellFormed
    (proper.bits_eq.trans properUsage.bits_eq.symm)
  rw [decided, Except.ok.injEq] at contained
  rw [safe, contained, exactly]

/-- Goes four bytes back from an allocation of eight bytes, casts the address, moves it by a step
and loads four bytes.
-/
def stepper (step : Int64) : Function where
  sig := .declared "f" .exported [] .unit
  values := [.result ⟨0⟩ .ptr, .constant (.i64 (-4)), .result ⟨1⟩ .ptr, .result ⟨2⟩ .ptr,
    .constant (.i64 step), .result ⟨3⟩ .ptr, .result ⟨4⟩ .i32]
  insts := [.alloca (.array .i8 8) none, .ptrAdd ⟨0⟩ ⟨1⟩, .cast .bitcast ⟨2⟩ .ptr,
    .ptrAdd ⟨3⟩ ⟨4⟩, .load ⟨5⟩ .i32, .ret none]
  blockCount := 1
  layout := [⟨⟨0⟩, [⟨0⟩, ⟨1⟩, ⟨2⟩, ⟨3⟩, ⟨4⟩, ⟨5⟩]⟩]

def stepping (step : Int64) : Module := ⟨"m", ⟨.x86_64, .unknown, .linux⟩, [stepper step], []⟩

section Stepping

variable (step : Int64)

theorem stepper_straight
    : (stepper step).IsStraight ⟨⟨0⟩, [⟨0⟩, ⟨1⟩, ⟨2⟩, ⟨3⟩, ⟨4⟩, ⟨5⟩]⟩ :=
  ⟨rfl, rfl, rfl⟩

theorem stepper_oneResult : (stepper step).OneResult := by
  intro id other inst ty otherTy found again
  obtain ⟨_ | _ | _ | _ | _ | _ | _ | _⟩ := id <;> cases found <;>
    obtain ⟨_ | _ | _ | _ | _ | _ | _ | _⟩ := other <;> cases again <;> rfl

/-- The allocation is moved to three other values. -/
theorem mem_of_moves_stepper {marked : MarkedFlow} {steps : Nat} {value : ValueId} {offset : Int}
    (moves : (stepper step).Moves marked ⟨0⟩ steps value offset)
    : (value, offset) ∈ [(⟨0⟩, 0), (⟨2⟩, -4), (⟨3⟩, -4), (ValueId.mk 5, -4 + step.toInt)] := by
  induction moves with
  | base => exact List.mem_cons_self
  | @bitcast _ _ offset inst _ _ result _ _ found results ih =>
      obtain ⟨_ | _ | _ | _ | _ | _ | _⟩ := inst <;> cases found
      obtain ⟨_ | _ | _ | _ | _ | _ | _ | _⟩ := result <;> cases results
      simpa using ih
  | @ptrAdd _ _ offset inst _ imm _ result _ _ found constant results ih =>
      obtain ⟨_ | _ | _ | _ | _ | _ | _⟩ := inst <;> cases found <;> cases constant
      · obtain ⟨_ | _ | _ | _ | _ | _ | _ | _⟩ := result <;> cases results
        have zero : offset = 0 := by simpa using ih
        subst zero
        exact List.mem_cons_of_mem _ List.mem_cons_self
      · obtain ⟨_ | _ | _ | _ | _ | _ | _ | _⟩ := result <;> cases results
        have back : offset = -4 := by simpa using ih
        subst back
        simp [Immediate.toInt]

theorem mem_of_derived_stepper {marked : MarkedFlow} {value : ValueId}
    (derived : (stepper step).Derived marked ⟨0⟩ value)
    : value ∈ [⟨0⟩, ⟨2⟩, ⟨3⟩, ValueId.mk 5] := by
  cases derived with
  | base => exact List.mem_cons_self
  | @result _ inst _ _ _ _ _ found derives operand results =>
      obtain ⟨_ | _ | _ | _ | _ | _ | _ | _⟩ := value <;> cases results
      · simp
      · simp
      · simp
      · simp
      · -- Nothing is derived by a load.
        cases found
        cases derives

variable {step}

theorem usedPlainly_stepper (isOffset : IsOffset 64 step.toInt)
    (isSum : IsOffset 64 (-4 + step.toInt))
    : (stepper step).UsedPlainly .w64 (.straight (stepper step) ⟨0⟩) ⟨0⟩ ⟨0⟩ 8 where
  placed := List.mem_cons_self
  results := rfl
  reserves := by
    have fixed : ¬ (Ty.array .i8 8).HasScalable := (Ty.scalable_size_iff .w64 _).not.mp (by decide)
    exact .intro rfl fixed .one (by decide)
  positive := by decide
  small := by decide
  unmarked := by
    rintro ⟨⟨_ | _ | _ | _ | _ | _ | _⟩, _, _, _, _, found, _⟩ <;> cases found
  plain := by
    intro value inst op derived _ found operand
    have member := mem_of_derived_stepper step derived
    obtain ⟨_ | _ | _ | _ | _ | _ | _⟩ := inst <;> cases found
    · cases operand
    · rcases List.mem_pair.mp operand with rfl | rfl
      · exact .ptrAdd rfl (by decide)
      · simp at member
    · cases List.mem_singleton.mp operand
      exact .bitcast .ptr
    · rcases List.mem_pair.mp operand with rfl | rfl
      · exact .ptrAdd rfl isOffset
      · simp at member
    · cases List.mem_singleton.mp operand
      exact .load ((Ty.scalable_size_iff .w64 _).not.mp (by decide))
    · cases operand
  offsets := by
    intro steps value offset moves
    have member := mem_of_moves_stepper step moves
    simp only [List.mem_cons, Prod.mk.injEq, List.not_mem_nil, or_false] at member
    rcases member with ⟨_, rfl⟩ | ⟨_, rfl⟩ | ⟨_, rfl⟩ | ⟨_, rfl⟩
    · decide
    · decide
    · decide
    · exact isSum

theorem accessesAt_stepper
    : (stepper step).AccessesAt .w64 (.straight (stepper step) ⟨0⟩) ⟨0⟩ (-4 + step.toInt) 4 := by
  have executes (inst : InstId) (standing : (stepper step).blockOf inst = some ⟨0⟩) :=
    MarkedFlow.executes_straight standing
  have back : (stepper step).Moves (.straight (stepper step) ⟨0⟩) ⟨0⟩ 1 ⟨2⟩
      (0 + (Immediate.i64 (-4)).toInt) :=
    .ptrAdd .base (executes ⟨1⟩ rfl) rfl rfl rfl
  have same := Function.Moves.bitcast back (executes ⟨2⟩ rfl) rfl
    (rfl : (stepper step).value ⟨3⟩ = _)
  have landed : (stepper step).Moves (.straight (stepper step) ⟨0⟩) ⟨0⟩ 3 ⟨5⟩
      (-4 + (Immediate.i64 step).toInt) :=
    .ptrAdd same (executes ⟨3⟩ rfl) rfl rfl rfl
  exact .load landed (executes ⟨4⟩ rfl) rfl

theorem eq_of_accessesAt_stepper {marked : MarkedFlow} {offset : Int} {size : Nat}
    (accesses : (stepper step).AccessesAt .w64 marked ⟨0⟩ offset size)
    : offset = -4 + step.toInt ∧ size = 4 := by
  cases accesses with
  | @load _ _ _ inst _ moves _ found =>
      obtain ⟨_ | _ | _ | _ | _ | _ | _⟩ := inst <;> cases found
      exact ⟨by simpa using mem_of_moves_stepper step moves, rfl⟩
  | @store _ _ _ inst _ _ _ _ found _ =>
      obtain ⟨_ | _ | _ | _ | _ | _ | _⟩ := inst <;> cases found

/-- There is a verdict when the function can be analysed and reported. -/
theorem exists_verdict_stepping {usage : Usage Global}
    {answer : FunctionId × FunctionUsage Global × List Judged}
    (locally : ((stepping step).analyzeFunction ⟨0⟩).result
      = .ok ⟨.ofList [(⟨0⟩, usage)], .empty, 0⟩)
    (concluding : ((stepping step).conclude none ⟨Range.top 64, 20⟩
      (.ofList [(.function ⟨0⟩, .empty)]) (⟨0⟩, ⟨.ofList [(⟨0⟩, usage)], .empty, 0⟩)).result
      = .ok answer)
    : ∃ verdict, ((stepping step).analyze none {}).result = .ok verdict := by
  have listed : (stepping step).analyzeLocally.result
      = .ok [(⟨0⟩, ⟨.ofList [(⟨0⟩, usage)], .empty, 0⟩)] := by
    rw [analyzeLocally, Traced.result_mapM]
    change List.mapM _ [FunctionId.mk 0] = _
    refine mapM_eq_ok_iff.mpr (.cons ?_ .nil)
    rw [Traced.result_bind, locally]
    rfl
  have made : Solver.make (stepping step).pointerWidth.bits {} = .ok ⟨Range.top 64, 20⟩ := rfl
  have ran : ((Solver.mk (Range.top 64) 20).run true (.ofList [(.function ⟨0⟩, .empty)])).result
      = .ok (.ofList [(.function ⟨0⟩, .empty)]) := Solver.run_of_visitAll true rfl
  obtain ⟨_, analyzed⟩ := result_analyze rfl listed (.cons ⟨rfl, rfl⟩ .nil) made ran
    (mapM_eq_ok_iff.mpr (.cons concluding .nil))
  exact ⟨_, analyzed⟩

end Stepping

/-- Witness: a load of the last four bytes is safe, and a load one byte further is not. -/
theorem analyze_safe_iff_accesses_inside_stepping
    : (∃ verdict, ((stepping 8).analyze none {}).result = .ok verdict
        ∧ (stepper 8).UsedPlainly .w64 (.straight (stepper 8) ⟨0⟩) ⟨0⟩ ⟨0⟩ 8
        ∧ (stepper 8).AccessesAt .w64 (.straight (stepper 8) ⟨0⟩) ⟨0⟩ 4 4
        ∧ (⟨0⟩, ⟨0⟩) ∈ verdict.safe)
      ∧ ∃ verdict, ((stepping 9).analyze none {}).result = .ok verdict
        ∧ (stepper 9).UsedPlainly .w64 (.straight (stepper 9) ⟨0⟩) ⟨0⟩ ⟨0⟩ 8
        ∧ (stepper 9).AccessesAt .w64 (.straight (stepper 9) ⟨0⟩) ⟨0⟩ 5 4
        ∧ (⟨0⟩, ⟨0⟩) ∉ verdict.safe := by
  constructor
  · have locally : ((stepping 8).analyzeFunction ⟨0⟩).result
        = .ok ⟨.ofList [(⟨0⟩, ⟨⟨64, 4, 8⟩, []⟩)], .empty, 0⟩ := by
      rw [(stepper_straight 8).analyzeFunction rfl]
      decide +kernel
    obtain ⟨verdict, analyzed⟩ := exists_verdict_stepping locally rfl
    have found : (stepping 8).function ⟨0⟩ = .ok (stepper 8) := rfl
    have plainly := usedPlainly_stepper (by decide : IsOffset 64 (8 : Int64).toInt) (by decide)
    refine ⟨verdict, analyzed, plainly, accessesAt_stepper, ?_⟩
    refine (analyze_safe_iff_accesses_inside found (stepper_oneResult 8)
      (stepper_straight 8).control plainly analyzed).mpr fun offset size accesses _ => ?_
    obtain ⟨rfl, rfl⟩ := eq_of_accessesAt_stepper accesses
    decide
  · have locally : ((stepping 9).analyzeFunction ⟨0⟩).result
        = .ok ⟨.ofList [(⟨0⟩, ⟨⟨64, 5, 9⟩, []⟩)], .empty, 0⟩ := by
      rw [(stepper_straight 9).analyzeFunction rfl]
      decide +kernel
    obtain ⟨verdict, analyzed⟩ := exists_verdict_stepping locally rfl
    have found : (stepping 9).function ⟨0⟩ = .ok (stepper 9) := rfl
    have plainly := usedPlainly_stepper (by decide : IsOffset 64 (9 : Int64).toInt) (by decide)
    refine ⟨verdict, analyzed, plainly, accessesAt_stepper, fun safe => ?_⟩
    have inside := (analyze_safe_iff_accesses_inside found (stepper_oneResult 9)
      (stepper_straight 9).control plainly analyzed).mp safe 5 4 accessesAt_stepper (by decide)
    omega

end Module

end StackBounds
