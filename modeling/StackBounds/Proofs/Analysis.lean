import StackBounds.Proofs.Resolving
import StackBounds.Proofs.Solver.FixedPoint

/-! The stages of an analysis, with an index or without: what the local analysis lists, what the
solver starts from and ends with, and how both are reported.
-/

namespace StackBounds

open Word

-----------------------------------------------------------------------------------------
-- The bounds of an allocation
-----------------------------------------------------------------------------------------

/-- A range of bytes that is not empty is that of the allocation's size, which is less than half
the address space.
-/
theorem Function.allocaRange_spec {func : Function} {pointer : PointerWidth} {alloca : InstId}
    {range : Range} (sized : func.allocaRange pointer alloca = .ok range) (some : ¬ range.IsNone)
    : ∃ size, func.AllocaSize pointer alloca size
      ∧ size < half pointer.bits
      ∧ range.OfWidth pointer.bits
      ∧ ¬ range.IsAll
      ∧ ∀ position, range.Holds position ↔ 0 ≤ position ∧ position < size := by
  have valid := pointer.valid_bits
  have notEmpty : ¬ Range.empty pointer.bits = .ok range := by
    intro empty
    rw [Range.empty_eq valid, Except.ok.injEq] at empty
    exact some (empty ▸ Range.isNone_bottom _)
  unfold Function.allocaRange at sized
  obtain ⟨inst, found, sized⟩ := exists_of_bind_eq_ok sized
  split at sized
  · rename_i ty count
    rw [valid.signedMax_eq, ok_bind] at sized
    split at sized
    · exact absurd sized notEmpty
    · rename_i elem fixed
      split at sized
      · obtain ⟨number?, counted, sized⟩ := exists_of_bind_eq_ok sized
        split at sized
        · exact absurd sized notEmpty
        · rename_i number
          split at sized
          · rename_i bound
            have positive : 0 ≤ (elem : Int) * number :=
              Int.mul_nonneg (Int.natCast_nonneg elem) (Int.le_of_lt bound.1)
            have zeroFits : Fits pointer.bits 0 := by
              have := Word.half_pos pointer.bits
              exact ⟨by omega, by omega⟩
            obtain ⟨built, result, proper, notAll, elements⟩ :=
              Range.ofSigned_spec valid zeroFits ⟨by omega, by omega⟩ positive
            cases sized.symm.trans result
            exact ⟨_, ⟨ty, count, elem, number, found, fixed, counted, rfl⟩, by omega, proper,
              notAll, elements⟩
          · exact absurd sized notEmpty
      · exact absurd sized notEmpty
  · exact absurd sized notEmpty

-----------------------------------------------------------------------------------------
-- Functions with a single block
-----------------------------------------------------------------------------------------

/-- The control flow of a function with a single block and no markers. -/
def MarkedFlow.straight (func : Function) (block : BlockId) : MarkedFlow :=
  ⟨func, ⟨some block, []⟩, [], [block]⟩

def Lifetime.straight (func : Function) (block : BlockId) : Lifetime :=
  ⟨.straight func block, .ofList [(block, .empty)], .ofList [(block, .empty)]⟩

/-- Nothing is ever alive without markers, so the first sweep is the last one. -/
theorem MarkedFlow.sweep_straight (func : Function) (block : BlockId)
    : (straight func block).sweep (straight func block).start
      = ((Lifetime.straight func block).tables, false) := by
  have unmarked (live : BitSet) (insts : List InstId)
      : (straight func block).applyMarkers live insts = live := by
    induction insts with
    | nil => rfl
    | cons inst rest ih => exact ih
  have entry (tables : LiveTables) : (straight func block).meet tables block = .empty := if_pos rfl
  have same : (straight func block).leaves (straight func block).start block
      = (straight func block).start.aliveOut block := by
    rw [leaves, entry, unmarked, aliveOut_start (List.mem_singleton.mpr rfl)]
    rfl
  change (straight func block).visit ((straight func block).start, false) block = _
  rw [visit]
  simp only [same, ↓reduceIte, entry]
  rfl

theorem MarkedFlow.executes_straight {func : Function} {block : BlockId} {inst : InstId}
    (standing : func.blockOf inst = some block)
    : (straight func block).Executes inst :=
  ⟨block, standing, .entry rfl⟩

/-- The function has a single block, which ends it, and no lifetime markers. -/
structure Function.IsStraight (func : Function) (block : PlacedBlock) : Prop where
  layout : func.layout = [block]
  last : Flow.edgesOf func block = .ok []
  unmarked : func.markers = .ok []

theorem Function.IsStraight.control {func : Function} {block : PlacedBlock}
    (straight : func.IsStraight block)
    : MarkedFlow.ofFunction func = .ok (.straight func block.id) := by
  have flow : Flow.ofFunction func = .ok ⟨some block.id, []⟩ := by
    simp [Flow.ofFunction, straight.layout, straight.last, Function.entry?]
  have order : (Flow.mk (some block.id) []).postOrder = [block.id] := by
    rw [Flow.postOrder_eq_walk]
    simp [Flow.nodes, Flow.sorted, Flow.insertSorted, Flow.walk, Flow.succs]
  rw [MarkedFlow.ofFunction, flow, ok_bind, straight.unmarked, ok_bind, order]
  rfl

theorem Function.IsStraight.lifetime {func : Function} {block : PlacedBlock}
    (straight : func.IsStraight block)
    : Lifetime.ofFunction func = .ok (.straight func block.id) := by
  rw [Lifetime.ofFunction, straight.control, ok_bind,
    MarkedFlow.settle_of_unchanged (MarkedFlow.sweep_straight func block.id), pure_eq_ok]
  rfl

theorem Function.IsStraight.analyzeFunction {unit : Module} {id : FunctionId} {func : Function}
    {block : PlacedBlock} (straight : func.IsStraight block) (found : unit.function id = .ok func)
    : (unit.analyzeFunction id).result
      = (LocalAnalysis.mk func unit.pointerWidth
          ⟨(Lifetime.straight func block.id).isReachable,
            (Lifetime.straight func block.id).isAliveAfter⟩
          ⟨func.offsetFrom unit.pointerWidth, func.signedRange unit.pointerWidth⟩).run.result := by
  simp only [Module.analyzeFunction, Traced.result_bind, Traced.result_liftM, found, ok_bind,
    LocalAnalysis.ofFunction, straight.lifetime, pure_eq_ok]

namespace Module

variable {unit : Module} {index : Option SummaryIndex} {config : Config} {verdict : Verdict}

/-- The allocations that are judged safe. -/
def safeAllocas (concluded : List (FunctionId × FunctionUsage Global × List Judged))
    : List (FunctionId × InstId) :=
  ((concluded.flatMap fun entry => entry.2.2.map fun judged => (entry.1, judged)).filter
    fun judged => judged.2.safe).map fun judged => (judged.1, judged.2.alloca)

/-- How the solved functions are reported for a function. -/
structure Concludes (unit : Module) (index : Option SummaryIndex) (solver : Solver)
    (final : Functions) (entry : FunctionId × FunctionUsage Global)
    (answer : FunctionId × FunctionUsage Global × List Judged)
    : Prop where
  name : answer.1 = entry.1
  judged : ∃ func, unit.function entry.1 = .ok func
    ∧ List.Forall₂ (fun alloca judged =>
        (unit.judge index solver final func alloca).result = .ok judged)
      entry.2.allocas.entries answer.2.2
  allocas : answer.2.1.allocas.entries
    = answer.2.2.map fun judged => (judged.alloca, judged.usage)
  params : answer.2.1.params = entry.2.params.mapWithKey fun param usage =>
    { usage with
      range := ((final.param? (.function entry.1) param).map (·.range)).getD usage.range }
  updates : answer.2.1.updates = ((final.get? (.function entry.1)).map (·.updates)).getD 0

/-- An allocation that is judged safe has a final range inside its bounds. -/
theorem judge_spec {solver : Solver} {final : Functions} {func : Function}
    {alloca : InstId × Usage Global} {judged : Judged}
    (result : (unit.judge index solver final func alloca).result = .ok judged)
    : judged.alloca = alloca.1 ∧ ∃ resolved range size,
      (unit.resolveCalls index alloca.2).result = .ok resolved
      ∧ finalRange solver final resolved = .ok range
      ∧ func.allocaRange unit.pointerWidth alloca.1 = .ok size
      ∧ size.contains range = .ok judged.safe := by
  simp only [judge, Traced.result_bind, Traced.result_liftM, Traced.result_pure] at result
  obtain ⟨resolved, resolution, afterResolved⟩ := exists_of_bind_eq_ok result
  obtain ⟨range, ranged, afterRange⟩ := exists_of_bind_eq_ok afterResolved
  obtain ⟨size, sized, afterSize⟩ := exists_of_bind_eq_ok afterRange
  obtain ⟨safe, decided, afterDecided⟩ := exists_of_bind_eq_ok afterSize
  cases afterDecided
  exact ⟨rfl, resolved, range, size, resolution, ranged, sized, decided⟩

theorem concludes_of_conclude {solver : Solver} {final : Functions}
    {entry : FunctionId × FunctionUsage Global}
    {answer : FunctionId × FunctionUsage Global × List Judged}
    (result : (unit.conclude index solver final entry).result = .ok answer)
    : unit.Concludes index solver final entry answer := by
  simp only [conclude, Traced.result_bind, Traced.result_liftM, Traced.result_mapM,
    Traced.result_pure] at result
  obtain ⟨func, found, result⟩ := exists_of_bind_eq_ok result
  obtain ⟨judged, judging, result⟩ := exists_of_bind_eq_ok result
  cases result
  have related := mapM_eq_ok_iff.mp judging
  have keys : (judged.map fun judged => (judged.alloca, judged.usage)).map (·.1)
      = entry.2.allocas.keys := by
    rw [List.map_map]
    exact map_eq_map_of_forall₂ (fun alloca answer step => by exact (judge_spec step).1) related
  refine ⟨rfl, ⟨func, found, related⟩, Table.entries_ofList ?_, rfl, rfl⟩
  rw [keys]
  exact entry.2.allocas.keys_ascending

/-- The final range of an allocation includes its own accesses and absorbs its calls; it is its own
range, or a cover. By induction on the calls.
-/
theorem finalRange_spec {bits : UInt32} {solver : Solver} {final : Functions}
    {resolved : Usage Callee} {range : Range} (made : Solver.make bits config = .ok solver)
    (wf : final.WellFormed bits) (proper : resolved.WellFormed bits)
    (result : finalRange solver final resolved = .ok range)
    : range.OfWidth bits ∧ resolved.range ⊆ range
      ∧ (∀ call ∈ resolved.calls, solver.Absorbs final range call)
      ∧ (resolved.range.Straight → range.Straight) := by
  have loop (calls : List (Forward Callee)) (inside : calls ⊆ resolved.calls) (known : Range)
      (properKnown : known.OfWidth bits)
      (result : calls.foldlM
        (fun known call => do known.cover (← solver.access final call)) known = .ok range)
      : range.OfWidth bits ∧ known ⊆ range
        ∧ (∀ call ∈ calls, solver.Absorbs final range call)
        ∧ (known.Straight → range.Straight) := by
    induction calls generalizing known with
    | nil =>
        cases result
        exact ⟨properKnown, Range.subset_refl _, by simp, id⟩
    | cons call rest ih =>
        rw [List.foldlM_cons] at result
        obtain ⟨next, step, result⟩ := exists_of_bind_eq_ok result
        obtain ⟨access, accessed, covering⟩ := exists_of_bind_eq_ok step
        obtain ⟨_, found, properAccess⟩ :=
          Solver.access_spec made wf proper (inside List.mem_cons_self)
        cases accessed.symm.trans found
        have width := properKnown.bits_eq.trans properAccess.bits_eq.symm
        obtain ⟨_, covered, properNext, straight, left, right⟩ :=
          Range.cover_spec properKnown.wellFormed properAccess.wellFormed width
        cases covering.symm.trans covered
        obtain ⟨properRange, grows, absorbs, keeps⟩ :=
          ih (fun _ member => inside (List.mem_cons_of_mem _ member)) next
            (properKnown.bits_eq ▸ properNext) result
        refine ⟨properRange, Range.subset_trans left grows, ?_, fun _ => keeps straight⟩
        intro other member
        rcases List.mem_cons.mp member with rfl | later
        · exact ⟨access, accessed, properAccess.bits_eq.trans properRange.bits_eq.symm,
            Range.subset_trans right grows⟩
        · exact absorbs other later
  exact loop resolved.calls (List.Subset.refl _) resolved.range proper.range result

/-- An allocation that is judged safe has a size, and its final range is inside it. -/
theorem exists_size_of_judged {solver : Solver} {final : Functions} {func : Function}
    {alloca : InstId} {usage : Usage Global} {judged : Judged} (trusted : RangesWellFormed index)
    (made : Solver.make unit.pointerWidth.bits config = .ok solver)
    (wf : final.WellFormed unit.pointerWidth.bits)
    (proper : usage.WellFormed unit.pointerWidth.bits)
    (allocates : func.Allocates unit.pointerWidth alloca)
    (result : (unit.judge index solver final func (alloca, usage)).result = .ok judged)
    (safe : judged.safe = true)
    : ∃ size resolved range whole, func.AllocaSize unit.pointerWidth alloca size
      ∧ size < half unit.pointerWidth.bits
      ∧ whole.OfWidth unit.pointerWidth.bits ∧ ¬ whole.IsAll
      ∧ (∀ position, whole.Holds position ↔ 0 ≤ position ∧ position < size)
      ∧ (unit.resolveCalls index usage).result = .ok resolved
      ∧ range.OfWidth unit.pointerWidth.bits ∧ resolved.range ⊆ range ∧ range ⊆ whole
      ∧ ∀ call ∈ resolved.calls, solver.Absorbs final range call := by
  obtain ⟨_, resolved, range, whole, resolution, ranged, sized, decided⟩ := judge_spec result
  obtain ⟨_, sizedAgain, some⟩ := allocates
  cases sized.symm.trans sizedAgain
  obtain ⟨size, allocated, small, properWhole, notAll, elements⟩ :=
    Function.allocaRange_spec sized some
  obtain ⟨properRange, grows, absorbs, _⟩ :=
    finalRange_spec made wf (resolveCalls_spec trusted proper resolution).1 ranged
  have width := properWhole.bits_eq.trans properRange.bits_eq.symm
  have included : range ⊆ whole :=
    (Range.contains_eq_true_iff properWhole.wellFormed properRange.wellFormed width).mp
      (safe ▸ decided)
  exact ⟨size, resolved, range, whole, allocated, small, properWhole, notAll, elements, resolution,
    properRange, grows, included, absorbs⟩

/-- The stages of an analysis and what each of them hands on. -/
structure Analysis (unit : Module) (index : Option SummaryIndex) (config : Config)
    (verdict : Verdict) where
  locals : List (FunctionId × FunctionUsage Global)
  start : Functions
  solver : Solver
  final : Functions
  concluded : List (FunctionId × FunctionUsage Global × List Judged)
  listed : List.Forall₂
    (fun id entry => entry.1 = id ∧ (unit.analyzeFunction id).result = .ok entry.2)
    unit.definedFunctions locals
  resolved : List.Forall₂
    (fun entry answer => answer.1 = .function entry.1
      ∧ (unit.resolveParams index entry.2).result = .ok answer.2)
    locals start.entries
  made : Solver.make unit.pointerWidth.bits config = .ok solver
  ran : (solver.run config.verify start).result = .ok final
  concludes : List.Forall₂ (unit.Concludes index solver final) locals concluded
  usages : verdict.usages.entries = concluded.map fun answer => (answer.1, answer.2.1)
  safe : verdict.safe = safeAllocas concluded

theorem definedFunctions_ascending (unit : Module)
    : unit.definedFunctions.Pairwise fun first second => compare first second = .lt := by
  refine List.Pairwise.filter _ (List.pairwise_map.mpr (List.pairwise_lt_range.imp ?_))
  exact fun before => Nat.compare_eq_lt.mpr before

/-- Every verdict comes from the stages of an analysis. -/
theorem exists_analysis (analyzed : (unit.analyze index config).result = .ok verdict)
    : Nonempty (unit.Analysis index config verdict) := by
  simp only [analyze, analyzeLocally, Traced.result_bind, Traced.result_liftM, Traced.result_mapM,
    Traced.result_emit, Traced.result_pure, ok_bind] at analyzed
  obtain ⟨locals, listed, analyzed⟩ := exists_of_bind_eq_ok analyzed
  obtain ⟨params, resolved, analyzed⟩ := exists_of_bind_eq_ok analyzed
  obtain ⟨solver, made, analyzed⟩ := exists_of_bind_eq_ok analyzed
  obtain ⟨final, ran, analyzed⟩ := exists_of_bind_eq_ok analyzed
  obtain ⟨concluded, concluding, analyzed⟩ := exists_of_bind_eq_ok analyzed
  -- Printing a report changes nothing in the verdict.
  have same : verdict.usages = .ofList (concluded.map fun answer => (answer.1, answer.2.1))
      ∧ verdict.safe = safeAllocas concluded := by
    split at analyzed
    · simp only [Traced.result_bind, Traced.result_liftM, Traced.result_emit, ok_bind] at analyzed
      obtain ⟨_, _, printed⟩ := exists_of_bind_eq_ok analyzed
      cases printed
      exact ⟨rfl, rfl⟩
    · cases analyzed
      exact ⟨rfl, rfl⟩
  have analyses : List.Forall₂
      (fun id entry => entry.1 = id ∧ (unit.analyzeFunction id).result = .ok entry.2)
      unit.definedFunctions locals := by
    refine (mapM_eq_ok_iff.mp listed).imp fun id entry step => ?_
    obtain ⟨usages, analyzed, step⟩ := exists_of_bind_eq_ok step
    cases step
    exact ⟨rfl, analyzed⟩
  have resolves : List.Forall₂
      (fun entry answer => answer.1 = .function entry.1
        ∧ (unit.resolveParams index entry.2).result = .ok answer.2)
      locals params := by
    refine (mapM_eq_ok_iff.mp resolved).imp fun entry answer step => ?_
    obtain ⟨info, resolution, step⟩ := exists_of_bind_eq_ok step
    cases step
    exact ⟨rfl, resolution⟩
  have concludes : List.Forall₂ (unit.Concludes index solver final) locals concluded :=
    (mapM_eq_ok_iff.mp concluding).imp fun entry answer step => concludes_of_conclude step
  -- All lists are in the order of the functions with a body, so tables keep them as they are.
  have names : locals.map (·.1) = unit.definedFunctions :=
    (map_eq_map_of_forall₂ (fun _ _ step => step.1) analyses).trans (List.map_id _)
  have ascending := names ▸ definedFunctions_ascending unit
  have callees : params.map (·.1) = (locals.map (·.1)).map Callee.function := by
    rw [List.map_map]
    exact map_eq_map_of_forall₂ (fun _ _ step => step.1) resolves
  have answers : (concluded.map fun answer => (answer.1, answer.2.1)).map (·.1)
      = locals.map (·.1) := by
    rw [List.map_map]
    exact map_eq_map_of_forall₂ (fun _ _ step => step.name) concludes
  have start : (Table.ofList params).entries = params :=
    Table.entries_ofList (callees ▸ List.pairwise_map.mpr ascending)
  refine ⟨⟨locals, .ofList params, solver, final, concluded, analyses, start.symm ▸ resolves, made,
    ran, concludes, ?_, same.2⟩⟩
  rw [same.1, Table.entries_ofList (answers ▸ ascending)]

/-- The stages of an analysis lead to its verdict. -/
theorem result_analyze {locals : List (FunctionId × FunctionUsage Global)} {start : Functions}
    {solver : Solver} {final : Functions}
    {concluded : List (FunctionId × FunctionUsage Global × List Judged)}
    (quiet : config.print = false) (listed : unit.analyzeLocally.result = .ok locals)
    (resolved : List.Forall₂
      (fun entry answer => answer.1 = .function entry.1
        ∧ (unit.resolveParams index entry.2).result = .ok answer.2)
      locals start.entries)
    (made : Solver.make unit.pointerWidth.bits config = .ok solver)
    (ran : (solver.run config.verify start).result = .ok final)
    (concluding : (locals.mapM fun entry => (unit.conclude index solver final entry).result)
      = .ok concluded)
    : ∃ total, (unit.analyze index config).result = .ok
      ⟨.ofList (concluded.map fun answer => (answer.1, answer.2.1)), safeAllocas concluded,
        total⟩ := by
  have resolution : (locals.mapM fun entry => do
      .ok (Callee.function entry.1, ← (unit.resolveParams index entry.2).result))
      = Except.ok start.entries := by
    refine mapM_eq_ok_iff.mpr (resolved.imp fun entry answer resolves => ?_)
    rw [resolves.2, ok_bind, ← resolves.1]
  simp only [analyze, Traced.result_bind, Traced.result_liftM, Traced.result_mapM,
    Traced.result_emit, Traced.result_pure, ok_bind, listed]
  rw [resolution, ok_bind, made, ok_bind, Table.ofList_entries, ran, ok_bind, concluding, ok_bind,
    quiet]
  exact ⟨_, rfl⟩

theorem mem_definedFunctions {id : FunctionId}
    : id ∈ unit.definedFunctions ↔ unit.isDeclaration (.function id) = .ok false := by
  have listed : id ∈ unit.functionIds ↔ id.index < unit.functions.length := by
    rw [functionIds, List.mem_map]
    constructor
    · rintro ⟨_, bound, rfl⟩
      exact List.mem_range.mp bound
    · intro bound
      exact ⟨id.index, List.mem_range.mpr bound, rfl⟩
  rw [definedFunctions, List.mem_filter, listed]
  simp only [isDeclaration, function]
  cases found : unit.functions[id.index]? with
  | none => simp
  | some func =>
      have bound := (List.getElem?_eq_some_iff.mp found).1
      simp [bound]

namespace Analysis

variable (analysis : unit.Analysis index config verdict)

theorem locals_keys : analysis.locals.map (·.1) = unit.definedFunctions :=
  (map_eq_map_of_forall₂ (fun _ _ step => step.1) analysis.listed).trans (List.map_id _)

theorem start_keys : analysis.start.keys = unit.definedFunctions.map Callee.function := by
  rw [← analysis.locals_keys, List.map_map]
  exact map_eq_map_of_forall₂ (fun _ _ step => step.1) analysis.resolved

include analysis in
theorem usages_keys : verdict.usages.keys = unit.definedFunctions := by
  rw [Table.keys, analysis.usages, ← analysis.locals_keys, List.map_map]
  exact map_eq_map_of_forall₂ (fun _ _ step => step.name) analysis.concludes

/-- Every function with a body has been analysed. -/
theorem exists_local {id : FunctionId} (defined : unit.isDeclaration (.function id) = .ok false)
    : ∃ usages, (id, usages) ∈ analysis.locals ∧ (unit.analyzeFunction id).result = .ok usages := by
  obtain ⟨⟨_, usages⟩, member, rfl, analyzed⟩ :=
    exists_answer analysis.listed (mem_definedFunctions.mpr defined)
  exact ⟨usages, member, analyzed⟩

/-- The local results are shaped. -/
theorem shaped {id : FunctionId} {usages : FunctionUsage Global}
    (member : (id, usages) ∈ analysis.locals)
    : usages.Shaped unit.pointerWidth.bits := by
  obtain ⟨_, _, rfl, analyzed⟩ := exists_input analysis.listed member
  exact analyzeFunction_shaped analyzed

/-- What the solver starts from is what the local analysis listed, with its calls resolved. -/
theorem start_param? {id : FunctionId} {param : UInt32} {resolved : Usage Callee}
    (found : analysis.start.param? (.function id) param = some resolved)
    : ∃ usages usage, (id, usages) ∈ analysis.locals ∧ usages.params.get? param = some usage
      ∧ (unit.resolveCalls index usage).result = .ok resolved := by
  obtain ⟨info, foundInfo, foundUsage⟩ := Option.bind_eq_some_iff.mp found
  obtain ⟨⟨other, usages⟩, member, name, resolution⟩ :=
    exists_input analysis.resolved (Table.mem_of_get? foundInfo)
  cases name
  have related := resolveParams_related resolution
  cases foundLocal : usages.params.get? param with
  | none =>
      rw [Table.Related.get?_none related foundLocal] at foundUsage
      cases foundUsage
  | some usage =>
      obtain ⟨_, foundAgain, resolved⟩ := Table.Related.get?_some related foundLocal
      cases foundUsage.symm.trans foundAgain
      exact ⟨usages, usage, member, foundLocal, resolved⟩

theorem exists_start_param? {id : FunctionId} {usages : FunctionUsage Global} {param : UInt32}
    {usage : Usage Global} (member : (id, usages) ∈ analysis.locals)
    (found : usages.params.get? param = some usage)
    : ∃ resolved, analysis.start.param? (.function id) param = some resolved
      ∧ (unit.resolveCalls index usage).result = .ok resolved := by
  obtain ⟨⟨_, info⟩, inside, name, resolution⟩ := exists_answer analysis.resolved member
  cases name
  obtain ⟨resolved, foundResolved, result⟩ :=
    Table.Related.get?_some (resolveParams_related resolution) found
  refine ⟨resolved, ?_, result⟩
  rw [Functions.param?, Table.get?_of_mem inside, Option.bind_some, foundResolved]

theorem start_function {func : Callee} {param : UInt32} {resolved : Usage Callee}
    (found : analysis.start.param? func param = some resolved)
    : ∃ id, func = .function id := by
  obtain ⟨info, foundInfo, _⟩ := Option.bind_eq_some_iff.mp found
  obtain ⟨⟨id, _⟩, _, name, _⟩ := exists_input analysis.resolved (Table.mem_of_get? foundInfo)
  exact ⟨id, name⟩

theorem start_wellFormed (trusted : RangesWellFormed index)
    : analysis.start.WellFormed unit.pointerWidth.bits := by
  refine ⟨fun func param usage found => ?_⟩
  obtain ⟨id, rfl⟩ := analysis.start_function found
  obtain ⟨usages, tracked, member, foundTracked, resolution⟩ := analysis.start_param? found
  have wf := ((analysis.shaped member).params _ (Table.mem_of_get? foundTracked)).1
  exact (resolveCalls_spec trusted wf resolution).1

section Explained

variable {possible : FunctionId → Possible} {id : FunctionId}
  (one : ∀ func ∈ unit.functions, func.OneResult)
  (closed : ∀ {id func}, unit.function id = .ok func
    → (possible id).Closed func unit.pointerWidth)

include one closed

/-- The local results say everything about the addresses they list. -/
theorem locals_explain {usages : FunctionUsage Global} (member : (id, usages) ∈ analysis.locals)
    : unit.ExplainsLocally possible id usages := by
  obtain ⟨_, _, rfl, analyzed⟩ := exists_input analysis.listed member
  exact analyzeFunction_explains one closed analyzed

/-- Without an index, so does what the solver starts from. -/
theorem start_explains (analysis : unit.Analysis none config verdict)
    {info : FunctionUsage Callee} (found : analysis.start.get? (.function id) = some info)
    : unit.ExplainsParams possible unit.BindsTo id info.params := by
  obtain ⟨_, member, name, resolution⟩ :=
    exists_input analysis.resolved (Table.mem_of_get? found)
  cases name
  exact resolveParams_explains (analysis.locals_explain one closed member).params resolution

end Explained

/-- The solver settles. -/
theorem solved (trusted : RangesWellFormed index)
    : analysis.final.WellFormed unit.pointerWidth.bits ∧ analysis.start.Grows analysis.final
      ∧ analysis.solver.Settled analysis.final := by
  have wf := analysis.start_wellFormed trusted
  obtain ⟨chain, absorbed⟩ := Solver.run_answer analysis.made wf analysis.ran
  obtain ⟨wfFinal, grows⟩ := Solver.sized_of_chain analysis.made wf chain
  exact ⟨wfFinal, grows, absorbed.settled⟩

include analysis in
/-- Every function with a body is reported. -/
theorem exists_reported {id : FunctionId} (defined : unit.isDeclaration (.function id) = .ok false)
    : ∃ info, verdict.usages.get? id = some info := by
  have listed := mem_definedFunctions.mpr defined
  rw [← analysis.usages_keys] at listed
  obtain ⟨⟨_, info⟩, member, rfl⟩ := List.mem_map.mp listed
  exact ⟨info, Table.get?_of_mem member⟩

/-- What is reported for a function. -/
theorem exists_concluded {id : FunctionId} {info : FunctionUsage Global}
    (found : verdict.usages.get? id = some info)
    : ∃ usages judged, (id, usages) ∈ analysis.locals
      ∧ unit.Concludes index analysis.solver analysis.final (id, usages) (id, info, judged) := by
  have member := Table.mem_of_get? found
  rw [analysis.usages] at member
  obtain ⟨⟨_, _, judged⟩, inside, same⟩ := List.mem_map.mp member
  obtain ⟨rfl, rfl⟩ := Prod.mk.inj same
  obtain ⟨⟨_, usages⟩, listed, concludes⟩ := exists_input analysis.concludes inside
  cases concludes.name
  exact ⟨usages, judged, listed, concludes⟩

/-- The reported range of a parameter is the solved one. -/
theorem reported_param (trusted : RangesWellFormed index) {id : FunctionId}
    {info : FunctionUsage Global} {param : UInt32} {usage : Usage Global}
    (found : verdict.usages.get? id = some info)
    (foundUsage : info.params.get? param = some usage)
    : ∃ usages tracked solved, (id, usages) ∈ analysis.locals
      ∧ usages.params.get? param = some tracked
      ∧ analysis.final.param? (.function id) param = some solved
      ∧ usage = { tracked with range := solved.range } := by
  obtain ⟨usages, _, member, concludes⟩ := analysis.exists_concluded found
  rw [concludes.params, Table.get?_mapWithKey, Option.map_eq_some_iff] at foundUsage
  obtain ⟨tracked, foundTracked, rfl⟩ := foundUsage
  obtain ⟨resolved, foundResolved, _⟩ := analysis.exists_start_param? member foundTracked
  obtain ⟨solved, foundSolved, _⟩ := (analysis.solved trusted).2.1.param?_some foundResolved
  refine ⟨usages, tracked, solved, member, foundTracked, foundSolved, ?_⟩
  simp only [foundSolved, Option.map_some, Option.getD_some]

/-- The counts of the solver are reported. -/
theorem reported_updates (trusted : RangesWellFormed index) {func : Callee}
    {solved : FunctionUsage Callee} (found : analysis.final.get? func = some solved)
    : ∃ id info, verdict.usages.get? id = some info ∧ info.updates = solved.updates := by
  have keys := Table.Related.keys_eq (analysis.solved trusted).2.1
  have listed : func ∈ unit.definedFunctions.map Callee.function := by
    rw [← analysis.start_keys, ← keys]
    exact Table.mem_keys_of_get? found
  obtain ⟨id, defined, rfl⟩ := List.mem_map.mp listed
  obtain ⟨info, foundInfo⟩ := analysis.exists_reported (mem_definedFunctions.mp defined)
  obtain ⟨_, _, _, concludes⟩ := analysis.exists_concluded foundInfo
  refine ⟨_, info, foundInfo, ?_⟩
  rw [concludes.updates, found, Option.map_some, Option.getD_some]

/-- An allocation that is reported safe was listed by the local analysis and judged safe. -/
theorem exists_judged {id : FunctionId} {alloca : InstId} (safe : (id, alloca) ∈ verdict.safe)
    : ∃ func usages usage judged, unit.function id = .ok func ∧ (id, usages) ∈ analysis.locals
      ∧ (alloca, usage) ∈ usages.allocas.entries
      ∧ (unit.judge index analysis.solver analysis.final func (alloca, usage)).result = .ok judged
      ∧ judged.safe = true := by
  rw [analysis.safe] at safe
  obtain ⟨⟨_, judged⟩, filtered, same⟩ := List.mem_map.mp safe
  cases same
  obtain ⟨judgedHere, isSafe⟩ := List.mem_filter.mp filtered
  obtain ⟨answer, inside, judgedAnswer⟩ := List.mem_flatMap.mp judgedHere
  obtain ⟨_, member, same⟩ := List.mem_map.mp judgedAnswer
  cases same
  obtain ⟨⟨_, usages⟩, listed, concludes⟩ := exists_input analysis.concludes inside
  obtain ⟨func, found, judging⟩ := concludes.judged
  obtain ⟨⟨alloca, usage⟩, tracked, result⟩ := exists_input judging member
  obtain rfl : judged.alloca = alloca := (judge_spec result).1
  exact ⟨func, usages, usage, judged, concludes.name ▸ found, concludes.name ▸ listed, tracked,
    result, isSafe⟩

/-- An allocation that the local analysis lists is judged, and it is reported safe exactly when it
is judged so.
-/
theorem exists_judged_iff {id : FunctionId} {func : Function} {usages : FunctionUsage Global}
    {alloca : InstId} {usage : Usage Global} (found : unit.function id = .ok func)
    (analyzed : (unit.analyzeFunction id).result = .ok usages)
    (member : (id, usages) ∈ analysis.locals) (listed : (alloca, usage) ∈ usages.allocas.entries)
    : ∃ judged,
        (unit.judge index analysis.solver analysis.final func (alloca, usage)).result = .ok judged
        ∧ ((id, alloca) ∈ verdict.safe ↔ judged.safe = true) := by
  obtain ⟨answer, inside, concludes⟩ := exists_answer analysis.concludes member
  obtain ⟨_, foundAgain, judging⟩ := concludes.judged
  cases found.symm.trans foundAgain
  obtain ⟨judged, judgedHere, result⟩ := exists_answer judging listed
  refine ⟨judged, result, fun safe => ?_, fun safe => ?_⟩
  · obtain ⟨_, others, other, again, foundOther, memberOther, listedOther, resultOther, isSafe⟩ :=
      analysis.exists_judged safe
    cases found.symm.trans foundOther
    -- The function has been analysed once, and it lists each allocation once.
    obtain ⟨_, _, rfl, analyzedOther⟩ := exists_input analysis.listed memberOther
    cases analyzed.symm.trans analyzedOther
    cases (Table.get?_of_mem listed).symm.trans (Table.get?_of_mem listedOther)
    cases result.symm.trans resultOther
    exact isSafe
  · rw [analysis.safe]
    refine List.mem_map.mpr ⟨(id, judged), List.mem_filter.mpr ⟨?_, safe⟩, ?_⟩
    · refine List.mem_flatMap.mpr ⟨answer, inside, List.mem_map.mpr ⟨judged, judgedHere, ?_⟩⟩
      rw [concludes.name]
    · rw [(judge_spec result).1]

end Analysis

end Module

end StackBounds
