import StackBounds.Proofs.Analysis
import StackBounds.Proofs.Summary.Collecting
import StackBounds.Proofs.Summary.Rounds

/-! Verdicts across modules. An allocation that is found safe with an index may be handed to
functions of other modules. What is on record for them stays inside its bounds, and so does what
they hand the address on to, provided that the record is complete.
-/

namespace StackBounds

open Relation (ReflTransGen TransGen)

-----------------------------------------------------------------------------------------
-- The index of a program
-----------------------------------------------------------------------------------------

namespace SummaryIndex

/-- The index was filled by modules, one after the other. -/
inductive Filled : SummaryIndex → Prop
  | empty : Filled .empty
  | added {index next : SummaryIndex} {unit : Module} {config : Config}
    (filled : Filled index)
    (summarized : (unit.summarize config index).result = .ok next)
    : Filled next

variable {index : SummaryIndex}

/-- The records of every function have the width of its module; by induction on the modules. -/
theorem Filled.measured (filled : index.Filled) {id : SummaryId} {summary : Summary}
    (found : index.summaries[id.index]? = some summary)
    : ∃ bits, summary.Measured bits := by
  induction filled with
  | empty => simp [SummaryIndex.empty] at found
  | @added index next unit config _ summarized ih =>
      obtain ⟨collection, collects, rfl, _⟩ := Module.summarize_spec summarized
      rcases collects.old_or_summarizes found with old | ⟨_, _, summarizes⟩
      · exact ih old
      · exact ⟨_, summarizes.measured⟩

/-- What holds of every summary at some width holds at the width of its function. -/
theorem exists_width (holds : Summary → UInt32 → Prop)
    (each : ∀ (id : SummaryId) summary, index.summaries[id.index]? = some summary
      → ∃ bits, holds summary bits)
    : ∃ width : Callee → UInt32, ∀ (id : SummaryId) summary,
      index.summaries[id.index]? = some summary → holds summary (width (.summary id)) := by
  have widths (callee : Callee)
      : ∃ bits, ∀ (id : SummaryId) summary, callee = .summary id
        → index.summaries[id.index]? = some summary → holds summary bits := by
    cases callee with
    | summary id =>
        cases found : index.summaries[id.index]? with
        | none =>
            refine ⟨0, fun other summary same foundOther => ?_⟩
            cases same
            cases found.symm.trans foundOther
        | some summary =>
            obtain ⟨bits, measured⟩ := each id summary found
            refine ⟨bits, fun other summary same foundOther => ?_⟩
            cases same
            cases found.symm.trans foundOther
            exact measured
    | function id => exact ⟨0, fun other summary same => by cases same⟩
    | unresolved => exact ⟨0, fun other summary same => by cases same⟩
  choose width measured using widths
  exact ⟨width, fun id summary found => measured _ id summary rfl found⟩

theorem sized_of_measured {width : Callee → UInt32}
    (measured : ∀ (id : SummaryId) summary, index.summaries[id.index]? = some summary
      → summary.Measured (width (.summary id)))
    : index.Sized width := by
  refine ⟨fun summary member => ?_, fun id summary found => (measured id summary found).ranges,
    fun id summary found access inside call listed =>
      ((measured id summary found).offsets access inside call listed).1⟩
  obtain ⟨number, found⟩ := List.mem_iff_getElem?.mp member
  exact (measured ⟨number⟩ summary found).params

theorem Filled.exists_sized (filled : index.Filled) : ∃ width, index.Sized width := by
  obtain ⟨width, measured⟩ :=
    exists_width Summary.Measured fun id summary found => filled.measured found
  exact ⟨width, sized_of_measured measured⟩

theorem Sized.rangesWellFormed {width : Callee → UInt32} (sized : index.Sized width)
    : Module.RangesWellFormed (some index) := by
  intro known same summary member access inside
  cases same
  obtain ⟨number, found⟩ := List.mem_iff_getElem?.mp member
  exact (sized.ranges ⟨number⟩ summary found access inside).wellFormed

end SummaryIndex

namespace Module

variable {unit : Module} {config : Config} {verdict : Verdict}

-----------------------------------------------------------------------------------------
-- Calls out of the module
-----------------------------------------------------------------------------------------

/-- A safe allocation has a size, and is handed out of the module only where something is on record,
which stays inside the allocation from all offsets of the call.
-/
theorem exists_record_of_safe {index : Option SummaryIndex} {id : FunctionId} {alloca : InstId}
    (trusted : RangesWellFormed index)
    (analyzed : (unit.analyze index config).result = .ok verdict)
    (safe : (id, alloca) ∈ verdict.safe)
    : ∃ func usages usage size, unit.function id = .ok func
      ∧ (unit.analyzeFunction id).result = .ok usages
      ∧ usages.allocas.get? alloca = some usage
      ∧ func.AllocaSize unit.pointerWidth alloca size
      ∧ ∀ call ∈ usage.calls, unit.boundFunction call.callee = .ok none
        → ∃ access, unit.recordedAccess? index call.callee call.param = .ok (some access)
          ∧ ∀ distance position, call.offset.Holds distance → access.Holds position
            → 0 ≤ distance + position ∧ distance + position < size := by
  obtain ⟨analysis⟩ := exists_analysis analyzed
  obtain ⟨func, usages, usage, judged, found, listed, tracked, result, isSafe⟩ :=
    analysis.exists_judged safe
  obtain ⟨_, _, rfl, analyzedHere⟩ := exists_input analysis.listed listed
  have shaped := analyzeFunction_shaped analyzedHere
  have wf := (shaped.allocas _ tracked).1
  obtain ⟨size, resolved, range, whole, allocated, _, properWhole, notAll, elements, resolution,
    _, grows, inside, _⟩ :=
    exists_size_of_judged trusted analysis.made (analysis.solved trusted).1 wf
      (analyzeFunction_allocates found analyzedHere _ tracked) result isSafe
  have included := Range.subset_trans grows inside
  have properResolved := (resolveCalls_spec trusted wf resolution).1.range
  have width := properResolved.bits_eq.trans properWhole.bits_eq.symm
  have known : ¬ resolved.range.IsAll := fun all =>
    notAll (properWhole.wellFormed.isAll_of_superset all width.symm included)
  refine ⟨func, usages, usage, size, found, analyzedHere,
    Table.get?_of_mem tracked, allocated, fun call member outside => ?_⟩
  obtain ⟨access, record, holds⟩ :=
    exists_record_of_resolved trusted wf resolution known member outside
  refine ⟨access, record, fun distance position moved held => (elements _).mp ?_⟩
  exact (properResolved.wellFormed.subset_iff_holds properWhole.wellFormed width).mp included _
    (holds distance position moved held)

/-- A safe allocation is handed out of the module only to functions that are on record in the
index. What is on record for the parameter stays inside the allocation. If the record lists no
calls, as is always so after a round of propagation, then this holds for the records at the end
of every chain of calls in the index as it was filled, and no chain gets lost.
-/
theorem analyze_safe_within_chains {index used : SummaryIndex} {id : FunctionId}
    {alloca : InstId} (filled : index.Filled)
    (rounds : ReflTransGen SummaryIndex.Propagates index used)
    (wide : unit.pointerWidth = .w64)
    (analyzed : (unit.analyze (some used) config).result = .ok verdict)
    (safe : (id, alloca) ∈ verdict.safe)
    : ∃ func usages usage size, unit.function id = .ok func
      ∧ (unit.analyzeFunction id).result = .ok usages
      ∧ usages.allocas.get? alloca = some usage
      ∧ func.AllocaSize unit.pointerWidth alloca size
      ∧ ∀ call ∈ usage.calls, unit.boundFunction call.callee = .ok none
        → ∃ guid target record, unit.guidOf call.callee = .ok guid
          ∧ used.boundFunction guid unit.name = .ok (some target)
          ∧ used.access? target call.param = .ok (some record)
          ∧ (∀ distance position, call.offset.Holds distance → record.range.Holds position
            → 0 ≤ distance + position ∧ distance + position < size)
          ∧ (TransGen SummaryIndex.Propagates index used → record.calls = [])
          ∧ (record.calls = []
            → (∀ last access distance shift position,
                index.Reaches target call.param last access.param shift
                → index.OnRecord last access
                → call.offset.Holds distance → access.range.Holds position
                → 0 ≤ distance + (shift + position) ∧ distance + (shift + position) < size)
              ∧ ∀ last param shift, index.Reaches target call.param last param shift
                → ¬ index.Lost last param) := by
  obtain ⟨width, sized⟩ := filled.exists_sized
  have widens := SummaryIndex.widens_of_rounds rounds sized
  have trusted := widens.sized.rangesWellFormed
  obtain ⟨func, usages, usage, size, found, listed, tracked, allocated, outside⟩ :=
    exists_record_of_safe trusted analyzed safe
  refine ⟨func, usages, usage, size, found, listed, tracked, allocated, ?_⟩
  intro call member unbound
  obtain ⟨access, recorded, inside⟩ := outside call member unbound
  obtain ⟨_, _, guid, target, record, same, named, bound, looked, wf, notAll, resized⟩ :=
    recordedAccess?_spec trusted recorded
  cases same
  have narrow : record.range.bits.toNat ≤ unit.pointerWidth.bits.toNat := by
    rw [wide]
    exact wf.valid.2
  have within (distance position : Int) (moved : call.offset.Holds distance)
      (held : record.range.Holds position)
      : 0 ≤ distance + position ∧ distance + position < size :=
    inside distance position moved
      (wf.holds_resizeSigned unit.pointerWidth.valid_bits narrow resized held)
  obtain ⟨onRecord, param⟩ := SummaryIndex.onRecord_of_access? looked
  refine ⟨guid, target, record, named, bound, looked, within,
    fun after => SummaryIndex.complete_of_rounds after sized onRecord, fun complete => ?_⟩
  obtain ⟨_, callable⟩ := SummaryIndex.callable_of_bound
    ((SummaryIndex.boundFunction_eq widens.bound guid unit.name).symm.trans bound)
  have covers := param ▸
    SummaryIndex.coversChains_of_rounds rounds sized callable onRecord complete
  constructor
  · intro last access distance shift position chain recordLast moved held
    exact within distance _ moved ((covers.reached chain recordLast held).resolve_left notAll)
  · intro last lastParam shift chain lost
    exact notAll (covers.lost chain lost)

/-- Hands its parameter to a function of another module, moved by four bytes. -/
def handOn : Function where
  sig := .declared "h" .exported [.ptr] .unit
  values := [.argument .ptr 0, .constant (.i64 4), .result ⟨0⟩ .ptr]
  insts := [.ptrAdd ⟨0⟩ ⟨1⟩, .call ⟨.direct (.function ⟨0⟩), [⟨2⟩], [], .unit⟩, .ret none]
  blockCount := 1
  layout := [⟨⟨0⟩, [⟨0⟩, ⟨1⟩, ⟨2⟩]⟩]

/-- Stores four bytes through its parameter. -/
def writeEnd : Function where
  sig := .declared "ext" .exported [.ptr] .unit
  values := [.argument .ptr 0, .constant (.i32 7)]
  insts := [.store ⟨0⟩ ⟨1⟩, .ret none]
  blockCount := 1
  layout := [⟨⟨0⟩, [⟨0⟩, ⟨1⟩]⟩]

/-- Hands an allocation of eight bytes to a function of another module. -/
def lend : Function where
  sig := .declared "f" .exported [] .unit
  values := [.result ⟨0⟩ .ptr]
  insts := [.alloca (.array .i8 8) none, .call ⟨.direct (.function ⟨0⟩), [⟨0⟩], [], .unit⟩,
    .ret none]
  blockCount := 1
  layout := [⟨⟨0⟩, [⟨0⟩, ⟨1⟩, ⟨2⟩]⟩]

/-- A module of a program in three parts, by its name and functions. -/
def part (name : String) (functions : List Function) : Module :=
  ⟨name, ⟨.x86_64, .unknown, .linux⟩, functions, []⟩

def lender : Module := part "app" [.ofSignature (.declared "h" .external [.ptr] .unit), lend]

def relayer : Module := part "lib" [.ofSignature (.declared "ext" .external [.ptr] .unit), handOn]

def writer : Module := part "far" [writeEnd]

def recording : Config := { recordAccesses := true }

/-- What is on record for the function in the middle. -/
def relayed (range : Range) (calls : List AccessCall) : Summary :=
  ⟨.ofName "h", "lib", .exported, true, true, .function [⟨0, range, calls⟩]⟩

/-- The function in the middle before any propagation. -/
def pending : Summary := relayed ⟨64, 0, 0⟩ [⟨0, .ofName "ext", ⟨64, 4, 5⟩⟩]

def written : Summary :=
  ⟨.ofName "ext", "far", .exported, true, true, .function [⟨0, ⟨64, 0, 4⟩, []⟩]⟩

theorem summarize_relayer (index : SummaryIndex)
    : (relayer.summarize recording index).result = .ok ⟨index.summaries ++ [pending]⟩ := by
  have straight : handOn.IsStraight ⟨⟨0⟩, [⟨0⟩, ⟨1⟩, ⟨2⟩]⟩ := ⟨rfl, rfl, rfl⟩
  have analyzed : (relayer.analyzeFunction ⟨1⟩).result
      = .ok ⟨.empty, .ofList [(0, ⟨⟨64, 0, 0⟩, [⟨.function ⟨0⟩, 0, ⟨64, 4, 5⟩⟩]⟩)], 0⟩ := by
    rw [straight.analyzeFunction rfl]
    decide +kernel
  have recorded : relayer.paramAccesses
      ⟨.empty, .ofList [(0, ⟨⟨64, 0, 0⟩, [⟨.function ⟨0⟩, 0, ⟨64, 4, 5⟩⟩]⟩)], 0⟩
      = .ok pending.accesses := by decide +kernel
  have made : relayer.summaryOf (.function ⟨1⟩) (.function pending.accesses) = .ok pending := by
    decide +kernel
  have skipped : (relayer.collectFunction true ⟨index, []⟩ ⟨0⟩).result = .ok ⟨index, []⟩ := rfl
  have first : (relayer.functionIds.foldlM
      (relayer.collectFunction (relayer.needsAccesses recording)) ⟨index, []⟩).result
      = .ok ⟨⟨index.summaries ++ [pending]⟩, [(.function ⟨1⟩, ⟨index.summaries.length⟩)]⟩ := by
    change (List.foldlM (relayer.collectFunction true) _ [FunctionId.mk 0, ⟨1⟩]).result = _
    rw [List.foldlM_cons, Traced.result_bind, skipped, ok_bind, List.foldlM_cons,
      Traced.result_bind, collectFunction_of_records rfl analyzed recorded made, ok_bind]
    rfl
  exact result_summarize first (settleAliases_nil relayer _)

theorem summarize_writer (index : SummaryIndex)
    : (writer.summarize recording index).result = .ok ⟨index.summaries ++ [written]⟩ := by
  have straight : writeEnd.IsStraight ⟨⟨0⟩, [⟨0⟩, ⟨1⟩]⟩ := ⟨rfl, rfl, rfl⟩
  have analyzed : (writer.analyzeFunction ⟨0⟩).result
      = .ok ⟨.empty, .ofList [(0, ⟨⟨64, 0, 4⟩, []⟩)], 0⟩ := by
    rw [straight.analyzeFunction rfl]
    decide +kernel
  exact summarize_of_records rfl rfl (.cons ⟨rfl, _, _, analyzed, rfl, rfl⟩ .nil) index

theorem propagate_parts
    : ((SummaryIndex.mk [pending, written]).propagate recording).result
      = .ok ⟨[relayed ⟨64, 4, 8⟩ [], written]⟩ := by
  let solver : Solver := ⟨Range.top 64, 20⟩
  let functions (range : Range) (updates : UInt32) : Functions :=
    .ofList [
      (.summary ⟨0⟩, ⟨.empty, .ofList [(0, ⟨range, [⟨.summary ⟨1⟩, 0, ⟨64, 4, 5⟩⟩]⟩)], updates⟩),
      (.summary ⟨1⟩, ⟨.empty, .ofList [(0, ⟨⟨64, 0, 4⟩, []⟩)], 0⟩)]
  have taken : (SummaryIndex.mk [pending, written]).functions = .ok (functions ⟨64, 0, 0⟩ 0) := by
    decide +kernel
  have visited : (solver.visitAll [.summary ⟨0⟩, .summary ⟨1⟩]
      ⟨functions ⟨64, 0, 0⟩ 0, []⟩).result = .ok ⟨functions ⟨64, 4, 8⟩ 1, []⟩ := rfl
  have made : Solver.make SummaryIndex.recordWidth recording = .ok solver := rfl
  have sized : (functions ⟨64, 0, 0⟩ 0).WellFormed 64 :=
    .of_entries (by decide)
  have solved : (solver.run recording.verify (functions ⟨64, 0, 0⟩ 0)).result
      = .ok (functions ⟨64, 4, 8⟩ 1) := by
    rw [Solver.result_run made sized]
    change (solver.visitAll [.summary ⟨0⟩, .summary ⟨1⟩] _).result >>= _ = _
    rw [visited, ok_bind, Solver.result_drain_nil rfl]
    rfl
  rw [SummaryIndex.result_propagate taken made, solved, ok_bind]
  decide +kernel

/-- What the local analysis finds in the lending module. -/
def lenderLocals : List (FunctionId × FunctionUsage Global) :=
  [(⟨1⟩, ⟨.ofList [(⟨0⟩, ⟨⟨64, 0, 0⟩, [⟨.function ⟨0⟩, 0, ⟨64, 0, 1⟩⟩]⟩)], .empty, 0⟩)]

theorem analyzeFunction_lender
    : (lender.analyzeFunction ⟨1⟩).result
      = .ok ⟨.ofList [(⟨0⟩, ⟨⟨64, 0, 0⟩, [⟨.function ⟨0⟩, 0, ⟨64, 0, 1⟩⟩]⟩)], .empty, 0⟩ := by
  have straight : lend.IsStraight ⟨⟨0⟩, [⟨0⟩, ⟨1⟩, ⟨2⟩]⟩ := ⟨rfl, rfl, rfl⟩
  rw [straight.analyzeFunction rfl]
  decide +kernel

/-- The verdict on the lending module comes from the index; the solver has nothing to do. -/
theorem analyze_lender (used : SummaryIndex)
    {concluded : List (FunctionId × FunctionUsage Global × List Judged)}
    (concluding : (lenderLocals.mapM fun entry => (lender.conclude (some used)
      ⟨Range.top 64, 20⟩ (.ofList [(.function ⟨1⟩, ⟨.empty, .empty, 0⟩)]) entry).result)
        = .ok concluded)
    : ∃ total, (lender.analyze (some used) recording).result = .ok
      ⟨.ofList (concluded.map fun answer => (answer.1, answer.2.1)), safeAllocas concluded,
        total⟩ := by
  have listed : lender.analyzeLocally.result = .ok lenderLocals := by
    rw [analyzeLocally, Traced.result_mapM]
    change List.mapM _ [FunctionId.mk 1] = _
    refine mapM_eq_ok_iff.mpr (.cons ?_ .nil)
    rw [Traced.result_bind, analyzeFunction_lender]
    rfl
  have resolved : List.Forall₂
      (fun (entry : FunctionId × FunctionUsage Global) (answer : Callee × FunctionUsage Callee) =>
        answer.1 = .function entry.1
          ∧ (lender.resolveParams (some used) entry.2).result = .ok answer.2)
      lenderLocals [(.function ⟨1⟩, ⟨.empty, .empty, 0⟩)] :=
    .cons ⟨rfl, rfl⟩ .nil
  have made : Solver.make lender.pointerWidth.bits recording = .ok ⟨Range.top 64, 20⟩ := rfl
  have ran : ((Solver.mk (Range.top 64) 20).run recording.verify
      (.ofList [(.function ⟨1⟩, ⟨.empty, .empty, 0⟩)])).result
      = .ok (.ofList [(.function ⟨1⟩, ⟨.empty, .empty, 0⟩)]) :=
    Solver.run_of_visitAll recording.verify rfl
  exact result_analyze (rfl : recording.print = false) listed resolved made ran concluding

/-- The allocation is safe when the index makes it so. -/
theorem exists_verdict_lender (used : SummaryIndex)
    (judged : (lenderLocals.mapM fun entry => (lender.conclude (some used) ⟨Range.top 64, 20⟩
        (.ofList [(.function ⟨1⟩, ⟨.empty, .empty, 0⟩)]) entry).result)
      >>= (fun concluded => pure (safeAllocas concluded)) = .ok [(⟨1⟩, ⟨0⟩)])
    : ∃ verdict, (lender.analyze (some used) recording).result = .ok verdict
      ∧ verdict.safe = [(⟨1⟩, ⟨0⟩)] := by
  obtain ⟨concluded, concluding, judged⟩ := exists_of_bind_eq_ok judged
  obtain ⟨total, analyzed⟩ := analyze_lender used concluding
  exact ⟨_, analyzed, Except.ok.inj judged⟩

/-- Before propagation, pending calls of a record are passed over: the allocation is found safe,
although the function that it is lent to hands it to one of which nothing is known.
-/
theorem exists_safe_lost_lender
    : ∃ (index : SummaryIndex) (verdict : Verdict) (usages : FunctionUsage Global)
        (usage : Usage Global) (call : Forward Global) (guid : Guid) (target : SummaryId)
        (record : ParamAccess),
      index.Filled
      ∧ lender.pointerWidth = .w64
      ∧ (lender.analyze (some index) recording).result = .ok verdict
      ∧ (⟨1⟩, ⟨0⟩) ∈ verdict.safe
      ∧ (lender.analyzeFunction ⟨1⟩).result = .ok usages
      ∧ usages.allocas.get? ⟨0⟩ = some usage
      ∧ call ∈ usage.calls
      ∧ lender.boundFunction call.callee = .ok none
      ∧ lender.guidOf call.callee = .ok guid
      ∧ index.boundFunction guid lender.name = .ok (some target)
      ∧ index.access? target call.param = .ok (some record)
      ∧ index.Lost target call.param := by
  obtain ⟨verdict, analyzed, safe⟩ :=
    exists_verdict_lender ⟨[pending]⟩ (by decide +kernel)
  have lost : (SummaryIndex.mk [pending]).Lost ⟨0⟩ 0 := by
    have record : ParamAccess.mk 0 ⟨64, 0, 0⟩ [⟨0, .ofName "ext", ⟨64, 4, 5⟩⟩]
        ∈ pending.accesses := List.mem_singleton.mpr rfl
    exact .unbound rfl record (List.mem_singleton.mpr rfl) (by decide +kernel)
  exact ⟨⟨[pending]⟩, verdict, _, _, _, .ofName "h", ⟨0⟩, _, .added .empty (summarize_relayer _),
    rfl, analyzed, safe ▸ List.mem_singleton.mpr rfl, analyzeFunction_lender, rfl,
    List.mem_singleton.mpr rfl, by decide +kernel, by decide +kernel, by decide +kernel, rfl, lost⟩

/-- After propagation, the last byte that is written through the lent allocation is its own. -/
theorem analyze_safe_within_chains_lender
    : SummaryIndex.Filled ⟨[pending, written]⟩
      ∧ (SummaryIndex.mk [pending, written]).Propagates ⟨[relayed ⟨64, 4, 8⟩ [], written]⟩
      ∧ lender.pointerWidth = .w64
      ∧ (∃ verdict, (lender.analyze (some ⟨[relayed ⟨64, 4, 8⟩ [], written]⟩) recording).result
          = .ok verdict
        ∧ (⟨1⟩, ⟨0⟩) ∈ verdict.safe)
      ∧ (SummaryIndex.mk [pending, written]).Reaches ⟨0⟩ 0 ⟨1⟩ 0 4
      ∧ ¬ (SummaryIndex.mk [pending, written]).Lost ⟨1⟩ 0
      ∧ ∃ size, lend.AllocaSize .w64 ⟨0⟩ size ∧ 0 + ((4 + 0) + 3) < size := by
  have filled : SummaryIndex.Filled ⟨[pending, written]⟩ :=
    .added (.added .empty (summarize_relayer _)) (summarize_writer _)
  have propagates : (SummaryIndex.mk [pending, written]).Propagates
      ⟨[relayed ⟨64, 4, 8⟩ [], written]⟩ :=
    ⟨recording, propagate_parts⟩
  obtain ⟨verdict, analyzed, same⟩ :=
    exists_verdict_lender ⟨[relayed ⟨64, 4, 8⟩ [], written]⟩ (by decide +kernel)
  have safe : (⟨1⟩, ⟨0⟩) ∈ verdict.safe := same ▸ List.mem_singleton.mpr rfl
  have reaches : (SummaryIndex.mk [pending, written]).Reaches ⟨0⟩ 0 ⟨1⟩ 0 (4 + 0) := by
    have record : ParamAccess.mk 0 ⟨64, 0, 0⟩ [⟨0, .ofName "ext", ⟨64, 4, 5⟩⟩]
        ∈ pending.accesses := List.mem_singleton.mpr rfl
    exact .call rfl record (List.mem_singleton.mpr rfl) (by decide +kernel)
      (show (Range.mk 64 4 5).Holds 4 by decide) (.here ⟨1⟩ 0)
  obtain ⟨func, usages, usage, size, found, listed, tracked, allocated, outside⟩ :=
    analyze_safe_within_chains filled (.single propagates) rfl analyzed safe
  cases analyzeFunction_lender.symm.trans listed
  cases tracked
  cases found
  obtain ⟨guid, target, record, named, bound, _, _, complete, covers⟩ :=
    outside _ (List.mem_singleton.mpr rfl) (by decide +kernel)
  cases (show lender.guidOf (.function ⟨0⟩) = .ok (.ofName "h") by decide +kernel).symm.trans named
  cases (show (SummaryIndex.mk [relayed ⟨64, 4, 8⟩ [], written]).boundFunction (.ofName "h") "app"
    = .ok (some ⟨0⟩) by decide +kernel).symm.trans bound
  obtain ⟨within, kept⟩ := covers (complete (.single propagates))
  refine ⟨filled, propagates, rfl, ⟨verdict, analyzed, safe⟩, reaches, kept _ _ _ reaches, size,
    allocated, ?_⟩
  exact (within ⟨1⟩ ⟨0, ⟨64, 0, 4⟩, []⟩ 0 _ 3 reaches ⟨written, rfl, List.mem_singleton.mpr rfl⟩
    (by decide) (by decide)).2

end Module

end StackBounds
