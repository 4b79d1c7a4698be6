import StackBounds.Proofs.Computations
import StackBounds.Proofs.Local.Uses
import StackBounds.Proofs.Tables

/-! The local analysis of a function: the usage of each allocation it lists and of each parameter
that takes an address says everything about that address.
-/

namespace StackBounds

/-- The instruction makes room for some bytes. -/
def Function.Allocates (func : Function) (pointer : PointerWidth) (inst : InstId) : Prop :=
  ∃ range, func.allocaRange pointer inst = .ok range ∧ ¬ range.IsNone

namespace LocalAnalysis

variable {analysis : LocalAnalysis}

-----------------------------------------------------------------------------------------
-- Allocations
-----------------------------------------------------------------------------------------

/-- The usage is what tracking the result of an instruction that makes room gives. -/
def TracksAlloca (analysis : LocalAnalysis) (inst : InstId) (usage : Usage Global) : Prop :=
  ∃ base tracked, analysis.func.Allocates analysis.pointer inst
    ∧ analysis.func.resultOf inst = some base
    ∧ (analysis.track base (some inst)).result = .ok tracked ∧ tracked.usage = usage

theorem trackAlloca_spec {allocas next : Table InstId (Usage Global)} {inst : InstId}
    (result : (analysis.trackAlloca allocas inst).result = .ok next)
    : next = allocas
      ∨ ∃ usage, analysis.TracksAlloca inst usage ∧ next = allocas.insert inst usage := by
  simp only [trackAlloca, Traced.result_bind, Traced.result_liftM] at result
  obtain ⟨range, sized, result⟩ := exists_of_bind_eq_ok result
  split at result
  · cases result
    exact Or.inl rfl
  · rename_i base found
    simp only [Traced.result_bind, Traced.result_liftM, Traced.result_emit, Traced.result_pure]
      at result
    obtain ⟨tracked, tracking, result⟩ := exists_of_bind_eq_ok result
    obtain ⟨_, _, result⟩ := exists_of_bind_eq_ok result
    cases result
    split at found
    · cases found
    · rename_i some
      have allocates : analysis.func.Allocates analysis.pointer inst :=
        ⟨range, sized, fun none => some (Range.isEmpty_iff.mpr none)⟩
      exact Or.inr ⟨tracked.usage, ⟨base, tracked, allocates, found, tracking, rfl⟩, rfl⟩

/-- Every entry for an allocation comes from tracking it; by induction on the instructions. -/
theorem foldlM_trackAlloca_spec {insts : List InstId}
    {allocas final : Table InstId (Usage Global)}
    (result : (insts.foldlM analysis.trackAlloca allocas).result = .ok final)
    : ∀ entry ∈ final.entries, entry ∈ allocas.entries
      ∨ analysis.TracksAlloca entry.1 entry.2 := by
  induction insts generalizing allocas with
  | nil =>
      cases result
      exact fun _ member => Or.inl member
  | cons inst rest ih =>
      rw [List.foldlM_cons, Traced.result_bind] at result
      obtain ⟨next, first, remaining⟩ := exists_of_bind_eq_ok result
      rcases trackAlloca_spec first with rfl | ⟨usage, tracks, rfl⟩
      · exact ih remaining
      · intro entry member
        rcases ih remaining entry member with earlier | tracked
        · rcases Table.mem_of_mem_insertEntry earlier with rfl | before
          · exact Or.inr tracks
          · exact Or.inl before
        · exact Or.inr tracked

/-- An allocation with a result is listed, and the others stay. -/
theorem trackAlloca_lists {allocas next : Table InstId (Usage Global)} {inst : InstId}
    (result : (analysis.trackAlloca allocas inst).result = .ok next) {other : InstId}
    (listed : other ∈ allocas.keys
      ∨ (other = inst ∧ analysis.func.Allocates analysis.pointer inst
        ∧ (analysis.func.resultOf inst).isSome = true))
    : other ∈ next.keys := by
  simp only [trackAlloca, Traced.result_bind, Traced.result_liftM] at result
  obtain ⟨range, sized, result⟩ := exists_of_bind_eq_ok result
  split at result
  · rename_i nothing
    cases result
    rcases listed with earlier | ⟨_, ⟨again, sizedAgain, some⟩, resulting⟩
    · exact earlier
    · cases sized.symm.trans sizedAgain
      rw [if_neg fun empty => some (Range.isEmpty_iff.mp empty)] at nothing
      rw [nothing] at resulting
      cases resulting
  · simp only [Traced.result_bind, Traced.result_liftM, Traced.result_emit, Traced.result_pure]
      at result
    obtain ⟨tracked, _, result⟩ := exists_of_bind_eq_ok result
    obtain ⟨_, _, result⟩ := exists_of_bind_eq_ok result
    cases result
    exact Table.mem_keys_insert _ (listed.symm.imp_left And.left)

/-- Every allocation with a result is listed; by induction on the instructions. -/
theorem foldlM_trackAlloca_lists {insts : List InstId} {allocas final : Table InstId (Usage Global)}
    (result : (insts.foldlM analysis.trackAlloca allocas).result = .ok final) {inst : InstId}
    (listed : inst ∈ allocas.keys
      ∨ (inst ∈ insts ∧ analysis.func.Allocates analysis.pointer inst
        ∧ (analysis.func.resultOf inst).isSome = true))
    : inst ∈ final.keys := by
  induction insts generalizing allocas with
  | nil =>
      cases result
      exact listed.resolve_right fun never => List.not_mem_nil never.1
  | cons head rest ih =>
      rw [List.foldlM_cons, Traced.result_bind] at result
      obtain ⟨next, first, remaining⟩ := exists_of_bind_eq_ok result
      refine ih remaining ?_
      rcases listed with earlier | ⟨member, made⟩
      · exact Or.inl (trackAlloca_lists first (Or.inl earlier))
      rcases List.mem_cons.mp member with rfl | later
      · exact Or.inl (trackAlloca_lists first (Or.inr ⟨rfl, made⟩))
      · exact Or.inr ⟨later, made⟩

-----------------------------------------------------------------------------------------
-- Parameters
-----------------------------------------------------------------------------------------

/-- The usage is what tracking a parameter gives. -/
def TracksParam (analysis : LocalAnalysis) (param : Nat) (usage : Usage Global) : Prop :=
  ∃ tracked, (analysis.track ⟨param⟩ none).result = .ok tracked ∧ tracked.usage = usage

/-- The parameter is a pointer to what the caller owns. -/
def takes (analysis : LocalAnalysis) (param : Ty × Nat) : Bool :=
  param.1.isPointer && !analysis.func.sig.isByValue param.2

theorem trackParam_spec {params next : Table UInt32 (Usage Global)} {param : Ty × Nat}
    (result : (analysis.trackParam params param).result = .ok next)
    : next = params
      ∨ (analysis.takes param = true
        ∧ ∃ usage, analysis.TracksParam param.2 usage
          ∧ next = params.insert (UInt32.ofNat param.2) usage) := by
  unfold trackParam at result
  split at result
  · rename_i taken
    simp only [Traced.result_bind, Traced.result_liftM, Traced.result_emit, Traced.result_pure]
      at result
    obtain ⟨tracked, tracking, result⟩ := exists_of_bind_eq_ok result
    obtain ⟨_, _, result⟩ := exists_of_bind_eq_ok result
    cases result
    exact Or.inr ⟨taken, tracked.usage, ⟨tracked, tracking, rfl⟩, rfl⟩
  · cases result
    exact Or.inl rfl

theorem ofNat_inj_of_lt {first second : Nat} (hfirst : first < UInt32.size)
    (hsecond : second < UInt32.size) (same : UInt32.ofNat first = UInt32.ofNat second)
    : first = second := by
  have numbers := congrArg UInt32.toNat same
  rwa [UInt32.toNat_ofNat_of_lt' hfirst, UInt32.toNat_ofNat_of_lt' hsecond] at numbers

/-- Every entry for a parameter comes from tracking one that takes an address; by induction on the
parameters.
-/
theorem foldlM_trackParam_spec {items : List (Ty × Nat)}
    {params final : Table UInt32 (Usage Global)}
    (result : (items.foldlM analysis.trackParam params).result = .ok final)
    : ∀ entry ∈ final.entries, entry ∈ params.entries
      ∨ ∃ item ∈ items, analysis.takes item = true ∧ entry.1 = UInt32.ofNat item.2
        ∧ analysis.TracksParam item.2 entry.2 := by
  induction items generalizing params with
  | nil =>
      cases result
      exact fun _ member => Or.inl member
  | cons item rest ih =>
      rw [List.foldlM_cons, Traced.result_bind] at result
      obtain ⟨next, first, remaining⟩ := exists_of_bind_eq_ok result
      have later {entry : UInt32 × Usage Global}
          (origin : ∃ other ∈ rest, analysis.takes other = true ∧ entry.1 = UInt32.ofNat other.2
            ∧ analysis.TracksParam other.2 entry.2)
          : ∃ other ∈ item :: rest, analysis.takes other = true ∧ entry.1 = UInt32.ofNat other.2
            ∧ analysis.TracksParam other.2 entry.2 := by
        obtain ⟨other, member, taken⟩ := origin
        exact ⟨other, List.mem_cons_of_mem _ member, taken⟩
      intro entry member
      have origin := ih remaining entry member
      rcases trackParam_spec first with rfl | ⟨taken, usage, tracks, rfl⟩
      · exact origin.imp_right later
      · rcases origin with before | fromRest
        · rcases Table.mem_of_mem_insertEntry before with rfl | earlier
          · exact Or.inr ⟨item, List.mem_cons_self, taken, rfl, tracks⟩
          · exact Or.inl earlier
        · exact Or.inr (later fromRest)

theorem signature_takes {param : Nat} {ty : Ty}
    (found : analysis.func.sig.params[param]? = some ty)
    (taken : analysis.takes (ty, param) = true)
    : analysis.func.sig.Takes param := by
  obtain ⟨pointer, owned⟩ := Bool.and_eq_true_iff.mp taken
  refine ⟨?_, by simpa using owned⟩
  rw [found]
  cases ty with
  | ptr => rfl
  | _ => cases pointer

/-- The usages that a run lists come from tracking. -/
theorem run_spec {usages : FunctionUsage Global}
    (result : analysis.run.result = .ok usages)
    : (∀ entry ∈ usages.params.entries, ∃ param, analysis.func.sig.Takes param
        ∧ entry.1 = UInt32.ofNat param ∧ analysis.TracksParam param entry.2)
      ∧ ∀ entry ∈ usages.allocas.entries, analysis.TracksAlloca entry.1 entry.2 := by
  unfold run at result
  split at result
  · cases result
  simp only [Traced.result_bind, Traced.result_emit, Traced.result_pure, ok_bind] at result
  obtain ⟨allocas, trackedAllocas, result⟩ := exists_of_bind_eq_ok result
  obtain ⟨params, trackedParams, result⟩ := exists_of_bind_eq_ok result
  cases result
  constructor
  · intro entry member
    rcases foldlM_trackParam_spec trackedParams entry member
      with nothing | ⟨⟨ty, param⟩, inside, taken, key, tracks⟩
    · cases nothing
    · exact ⟨param, signature_takes (List.mem_zipIdx_iff_getElem?.mp inside) taken, key, tracks⟩
  · intro entry member
    rcases foldlM_trackAlloca_spec trackedAllocas entry member with nothing | tracks
    · cases nothing
    · exact tracks

/-- A run lists every placed allocation with a result. -/
theorem run_lists {usages : FunctionUsage Global} (result : analysis.run.result = .ok usages)
    {inst : InstId} (placed : inst ∈ analysis.func.placedInsts)
    (allocates : analysis.func.Allocates analysis.pointer inst)
    (resulting : (analysis.func.resultOf inst).isSome = true)
    : ∃ usage, (inst, usage) ∈ usages.allocas.entries := by
  unfold run at result
  split at result
  · cases result
  simp only [Traced.result_bind, Traced.result_emit, Traced.result_pure, ok_bind] at result
  obtain ⟨allocas, trackedAllocas, result⟩ := exists_of_bind_eq_ok result
  obtain ⟨params, _, result⟩ := exists_of_bind_eq_ok result
  cases result
  have listed := foldlM_trackAlloca_lists trackedAllocas (Or.inr ⟨placed, allocates, resulting⟩)
  obtain ⟨⟨_, usage⟩, member, rfl⟩ := List.mem_map.mp listed
  exact ⟨usage, member⟩

end LocalAnalysis

/-- The usages are of a width, with straight ranges. -/
structure FunctionUsage.Shaped {γ : Type} (bits : UInt32) (usages : FunctionUsage γ) : Prop where
  params : ∀ entry ∈ usages.params.entries,
    entry.2.WellFormed bits ∧ entry.2.range.Straight
  allocas : ∀ entry ∈ usages.allocas.entries,
    entry.2.WellFormed bits ∧ entry.2.range.Straight

namespace Module

variable {unit : Module} {possible : FunctionId → Possible}

/-- The local analysis of any function has shaped results. -/
theorem analyzeFunction_shaped {id : FunctionId} {usages : FunctionUsage Global}
    (result : (unit.analyzeFunction id).result = .ok usages)
    : usages.Shaped unit.pointerWidth.bits := by
  simp only [analyzeFunction, Traced.result_bind, Traced.result_liftM] at result
  obtain ⟨func, _, result⟩ := exists_of_bind_eq_ok result
  obtain ⟨analysis, made, ran⟩ := exists_of_bind_eq_ok result
  obtain ⟨_, pointer, lifetime, reads⟩ := LocalAnalysis.reads_of_ofFunction made
  have shaped {base : ValueId} {alloca : Option InstId} {tracked : LocalAnalysis.Tracked}
      (tracking : (analysis.track base alloca).result = .ok tracked)
      : tracked.usage.WellFormed unit.pointerWidth.bits ∧ tracked.usage.range.Straight := by
    obtain ⟨wf, straight, _⟩ :=
      LocalAnalysis.track_keeps reads.proper tracking
    exact ⟨pointer ▸ wf, straight⟩
  obtain ⟨params, allocas⟩ := LocalAnalysis.run_spec ran
  refine ⟨fun entry member => ?_, fun entry member => ?_⟩
  · obtain ⟨_, _, _, tracked, tracking, usage⟩ := params entry member
    exact usage ▸ shaped tracking
  · obtain ⟨_, tracked, _, _, tracking, usage⟩ := allocas entry member
    exact usage ▸ shaped tracking

/-- The local analysis lists allocations with a size. -/
theorem analyzeFunction_allocates {id : FunctionId} {func : Function}
    {usages : FunctionUsage Global} (found : unit.function id = .ok func)
    (result : (unit.analyzeFunction id).result = .ok usages)
    : ∀ entry ∈ usages.allocas.entries, func.Allocates unit.pointerWidth entry.1 := by
  simp only [analyzeFunction, Traced.result_bind, Traced.result_liftM, found, ok_bind] at result
  obtain ⟨analysis, made, ran⟩ := exists_of_bind_eq_ok result
  obtain ⟨rfl, pointer, _⟩ := LocalAnalysis.reads_of_ofFunction made
  intro entry member
  obtain ⟨_, _, allocates, _⟩ := (LocalAnalysis.run_spec ran).2 entry member
  exact pointer ▸ allocates

/-- A table lists parameters of a function that take an address, each with a usage that says
everything about it.
-/
def ExplainsParams {γ : Type} (unit : Module) (possible : FunctionId → Possible)
    (names : Global → γ → Prop) (id : FunctionId) (params : Table UInt32 (Usage γ))
    : Prop :=
  ∀ entry ∈ params.entries, ∃ func param, unit.function id = .ok func
    ∧ func.sig.Takes param ∧ entry.1 = UInt32.ofNat param
    ∧ unit.Explains possible names ⟨id, ⟨param⟩, none⟩ entry.2

/-- The usages of a function say everything about its parameters and the listed allocations. -/
structure ExplainsLocally (unit : Module) (possible : FunctionId → Possible) (id : FunctionId)
    (usages : FunctionUsage Global)
    : Prop where
  params : unit.ExplainsParams possible Eq id usages.params
  allocas : ∀ entry ∈ usages.allocas.entries, ∃ func base, unit.function id = .ok func
    ∧ func.Allocates unit.pointerWidth entry.1 ∧ func.resultOf entry.1 = some base
    ∧ unit.Explains possible Eq ⟨id, base, some entry.1⟩ entry.2

/-- The local analysis of a function says everything about the addresses it tracks. -/
theorem analyzeFunction_explains {id : FunctionId} {usages : FunctionUsage Global}
    (one : ∀ func ∈ unit.functions, func.OneResult)
    (closed : ∀ {func}, unit.function id = .ok func
      → (possible id).Closed func unit.pointerWidth)
    (result : (unit.analyzeFunction id).result = .ok usages)
    : unit.ExplainsLocally possible id usages := by
  simp only [analyzeFunction, Traced.result_bind, Traced.result_liftM] at result
  obtain ⟨_, found, result⟩ := exists_of_bind_eq_ok result
  obtain ⟨analysis, made, ran⟩ := exists_of_bind_eq_ok result
  obtain ⟨rfl, pointer, lifetime, reads⟩ := LocalAnalysis.reads_of_ofFunction made
  have present := mem_of_function found
  have explained (base : ValueId) (alloca : Option InstId) {tracked : LocalAnalysis.Tracked}
      (tracking : (analysis.track base alloca).result = .ok tracked)
      : unit.Explains possible Eq ⟨id, base, alloca⟩ tracked.usage :=
    LocalAnalysis.track_explains reads pointer found (one _ present) (pointer ▸ closed found)
      tracking
  obtain ⟨params, allocas⟩ := LocalAnalysis.run_spec ran
  constructor
  · intro entry member
    obtain ⟨param, taken, key, tracked, tracking, usage⟩ := params entry member
    exact ⟨_, param, found, taken, key, usage ▸ explained ⟨param⟩ none tracking⟩
  · intro entry member
    obtain ⟨base, tracked, allocates, results, tracking, usage⟩ := allocas entry member
    exact ⟨_, base, found, pointer ▸ allocates, results,
      usage ▸ explained base (some entry.1) tracking⟩

end Module

end StackBounds
