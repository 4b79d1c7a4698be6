import StackBounds.Proofs.Callees
import StackBounds.Proofs.Forwarding
import StackBounds.Proofs.Safety
import StackBounds.Proofs.Solver.Widths

/-! Programs of modules for different targets. Every module records the accesses of its functions
at the width of its own pointers, and a propagation sees what is unknown at the record width. So a
propagation over modules with narrow pointers can meet ranges of two widths; and nothing else keeps
it from an answer, besides a counter that runs full.
-/

namespace StackBounds

/-- Adds the summaries of modules to an index, one module after the other. -/
def Module.summarizeAll (units : List Module) (config : Config) (index : SummaryIndex)
    : Traced SummaryIndex :=
  units.foldlM (fun index unit => unit.summarize config index) index

namespace SummaryIndex

-----------------------------------------------------------------------------------------
-- The records of a program
-----------------------------------------------------------------------------------------

/-- The records of every summary have the width of the pointers of its module. -/
def HasWidthsOf (index : SummaryIndex) (units : List Module) : Prop :=
  ∀ summary ∈ index.summaries, ∃ unit ∈ units, summary.unit = unit.name
    ∧ ∀ access ∈ summary.accesses, access.range.OfWidth unit.pointerWidth.bits
      ∧ ∀ call ∈ access.calls, call.offset.OfWidth unit.pointerWidth.bits

/-- Every function with a body has a summary, with the records of its local analysis. -/
def HasRecordsOf (index : SummaryIndex) (units : List Module) : Prop :=
  ∀ unit ∈ units, ∀ id, unit.isDeclaration (.function id) = .ok false
    → ∃ usages, (unit.analyzeFunction id).result = .ok usages
      ∧ ∃ summary ∈ index.summaries, unit.Describes (.function id) summary
        ∧ unit.paramAccesses usages = .ok summary.accesses

/-- What the modules that were added leave in the index. -/
structure Collected (index : SummaryIndex) (units : List Module) : Prop where
  measured : ∀ (id : SummaryId) summary, index.summaries[id.index]? = some summary
    → ∃ unit ∈ units, summary.unit = unit.name ∧ summary.Measured unit.pointerWidth.bits
  aliases : index.AliasesExist
  records : index.HasRecordsOf units

variable {index : SummaryIndex} {units : List Module}

theorem collected_empty : SummaryIndex.empty.Collected [] where
  measured _ _ found := by simp [SummaryIndex.empty] at found
  aliases _ member := by cases member
  records _ member := by cases member

theorem Collected.hasWidthsOf (collected : index.Collected units) : index.HasWidthsOf units := by
  intro summary member
  obtain ⟨number, found⟩ := List.mem_iff_getElem?.mp member
  obtain ⟨unit, inside, owner, measured⟩ := collected.measured ⟨number⟩ summary found
  exact ⟨unit, inside, owner, fun access listed => ⟨measured.ranges access listed,
    fun call passed => (measured.offsets access listed call passed).1⟩⟩

/-- One more module. -/
theorem Collected.add {next : SummaryIndex} {unit : Module} {config : Config}
    (collected : index.Collected units) (recording : config.recordAccesses = true)
    (summarized : (unit.summarize config index).result = .ok next)
    : next.Collected (units ++ [unit]) := by
  obtain ⟨collection, collects, rfl, all⟩ := Module.summarize_spec summarized
  have needed : unit.needsAccesses config = true := by
    rw [Module.needsAccesses, recording, Bool.true_or]
  rw [needed] at collects
  refine ⟨fun id summary found => ?_, collects.aliasesExist_of collected.aliases, ?_⟩
  · rcases collects.old_or_summarizes found with old | ⟨_, _, summarizes⟩
    · obtain ⟨owner, inside, measured⟩ := collected.measured id summary old
      exact ⟨owner, List.mem_append_left _ inside, measured⟩
    · exact ⟨unit, List.mem_append_right _ (List.mem_singleton.mpr rfl),
        summarizes.describes.owner, summarizes.measured⟩
  · intro owner inside id defined
    rcases List.mem_append.mp inside with earlier | last
    · obtain ⟨usages, analyzed, summary, member, described, recorded⟩ :=
        collected.records owner earlier id defined
      obtain ⟨number, found⟩ := List.mem_iff_getElem?.mp member
      have kept := collects.kept number (List.getElem?_eq_some_iff.mp found).1
      exact ⟨usages, analyzed, summary, List.mem_of_getElem? (kept.trans found), described,
        recorded⟩
    · cases List.mem_singleton.mp last
      have listed : id ∈ unit.functionIds := by
        obtain ⟨_, found, _⟩ := exists_of_bind_eq_ok defined
        simpa [Module.globals] using Module.mem_globals_of_function found
      obtain ⟨⟨_, number⟩, entry, rfl⟩ := List.mem_map.mp (all id listed defined)
      obtain ⟨_, summary, found, summarizes⟩ := collects.made _ _ entry
      obtain ⟨usages, analyzed, recorded⟩ := summarizes.exists_usages
      exact ⟨usages, analyzed, summary, List.mem_of_getElem? found, summarizes.describes, recorded⟩

/-- The modules of a program fill an index; by induction on those that are still to be added. -/
theorem Collected.addAll {config : Config} (recording : config.recordAccesses = true)
    {rest : List Module} (composed : ∀ unit ∈ rest, unit.Composed)
    (analyzed : ∀ unit ∈ rest, ∀ id, unit.isDeclaration (.function id) = .ok false
      → ∃ usages, (unit.analyzeFunction id).result = .ok usages)
    (collected : index.Collected units)
    : ∃ final, (Module.summarizeAll rest config index).result = .ok final
      ∧ final.Collected (units ++ rest) := by
  induction rest generalizing index units with
  | nil => exact ⟨index, rfl, (List.append_nil units).symm ▸ collected⟩
  | cons unit rest ih =>
      have own := (composed unit List.mem_cons_self).callsOwn
      obtain ⟨next, summarized⟩ :=
        own.exists_summarized (analyzed unit List.mem_cons_self) config index
      obtain ⟨final, folded, done⟩ := ih
        (fun other member => composed other (List.mem_cons_of_mem _ member))
        (fun other member => analyzed other (List.mem_cons_of_mem _ member))
        (collected.add recording summarized)
      refine ⟨final, ?_, List.append_cons units unit rest ▸ done⟩
      rw [Module.summarizeAll, List.foldlM_cons, Traced.result_bind, summarized, ok_bind]
      exact folded

-----------------------------------------------------------------------------------------
-- Calls that a propagation follows
-----------------------------------------------------------------------------------------

/-- A propagation follows a recorded call to a function. It does so where all calls of the record
are bound; else nothing is known about the parameter at all.
-/
def Follows (index : SummaryIndex) (id : SummaryId) (access : ParamAccess) (call : AccessCall)
    (target : SummaryId)
    : Prop :=
  ∃ summary, index.Callable id summary ∧ access ∈ summary.accesses ∧ call ∈ access.calls
    ∧ (∀ other ∈ access.calls, ∃ bound,
      index.boundFunction other.callee summary.unit = .ok (some bound))
    ∧ index.boundFunction call.callee summary.unit = .ok (some target)

/-- In functions that a propagation passes through, the range for a parameter is full: it was so on
record, a call of its record is not bound, the calls make it so, or the function was counted past
the limit.
-/
def Fills (index : SummaryIndex) (config : Config) (id : SummaryId) (param : UInt32) : Prop :=
  ∃ functions solver passed usage, index.functions = .ok functions
    ∧ Solver.make recordWidth config = .ok solver ∧ solver.Passes functions passed
    ∧ passed.param? (.summary id) param = some usage ∧ usage.range.IsAll

/-- What is accessed through a parameter is unknown: it is not on record, or becomes full. -/
def LosesTrack (index : SummaryIndex) (config : Config) (id : SummaryId) (param : UInt32) : Prop :=
  (∀ access, index.OnRecord id access → access.param ≠ param) ∨ index.Fills config id param

/-- A call is followed to a record of another width; or from a record of another width than the
record width to a parameter about which nothing is known.
-/
def JoinsNarrow (index : SummaryIndex) (config : Config) : Prop :=
  ∃ id access call target, index.Follows id access call target
    ∧ ((∃ other, index.OnRecord target other ∧ other.param = call.param
        ∧ other.range.bits ≠ access.range.bits)
      ∨ (access.range.bits ≠ recordWidth ∧ index.LosesTrack config target call.param))

/-- What is found after a propagation is seen at the width of every record that leads to it. -/
def MeetsWidths (index propagated : SummaryIndex) : Prop :=
  ∀ id access call target, index.Follows id access call target
    → ∃ answer, propagated.access? target call.param = .ok answer
      ∧ Solver.seenWidth recordWidth (answer.map fun found => found.range) = access.range.bits

/-- Records of one width meet only where nothing is known, and not at the record width. -/
theorem JoinsNarrow.exists_losesTrack {bits : UInt32} {config : Config}
    (joins : index.JoinsNarrow config)
    (width : ∀ id access, index.OnRecord id access → access.range.bits = bits)
    : bits ≠ recordWidth ∧ ∃ id access call target, index.Follows id access call target
      ∧ index.LosesTrack config target call.param := by
  obtain ⟨id, access, call, target, follows, narrow⟩ := joins
  have own : access.range.bits = bits := by
    obtain ⟨summary, callable, inside, _⟩ := follows
    exact width id access ⟨summary, callable.found, inside⟩
  rcases narrow with ⟨other, record, _, differ⟩ | ⟨differ, loses⟩
  · exact absurd ((width target other record).trans own.symm) differ
  · exact ⟨own ▸ differ, id, access, call, target, follows, loses⟩

/-- The iterations that are allowed and the records of a function are more than a counter holds. -/
def FillsCounter (index : SummaryIndex) (config : Config) : Prop :=
  ∃ summary ∈ index.summaries,
    UInt32.size ≤ config.maxIterations.toNat + 1 + summary.accesses.length

section Following

variable {functions : Functions} (taken : index.functions = .ok functions)
  (unique : ∀ summary ∈ index.summaries, (summary.accesses.map (·.param)).Nodup)

include taken unique

/-- The solver is handed the calls that are followed. -/
theorem Follows.exists_forward {id target : SummaryId} {access : ParamAccess} {call : AccessCall}
    (follows : index.Follows id access call target)
    : ∃ usage, functions.param? (.summary id) access.param = some usage
      ∧ usage.range = access.range
      ∧ ⟨.summary target, call.param, call.offset⟩ ∈ usage.calls := by
  obtain ⟨summary, callable, inside, member, bounds, bound⟩ := follows
  obtain ⟨usage, found, translated⟩ := exists_param?_of_record taken unique callable inside
  rcases usageOf_cases translated with ⟨_, _, other, listed, unbound⟩ | ⟨same, related⟩
  · obtain ⟨_, boundOther⟩ := bounds other listed
    cases unbound.symm.trans boundOther
  · obtain ⟨_, kept, _, _, boundAgain, rfl⟩ := exists_answer related member
    cases bound.symm.trans boundAgain
    exact ⟨usage, found, same, kept⟩

/-- The solver is handed no other calls. -/
theorem exists_follows {func : Callee} {param : UInt32} {usage : Usage Callee}
    {kept : Forward Callee} (found : functions.param? func param = some usage)
    (member : kept ∈ usage.calls)
    : ∃ id access call target, func = .summary id ∧ index.OnRecord id access
      ∧ index.Follows id access call target
      ∧ kept = ⟨.summary target, call.param, call.offset⟩ := by
  obtain ⟨id, summary, access, key, callable, inside, _, translated⟩ :=
    exists_record_of_param? taken unique found
  rcases usageOf_cases translated with ⟨_, none, _⟩ | ⟨_, related⟩
  · rw [none] at member
    cases member
  · obtain ⟨call, listed, _, target, bound, same⟩ := exists_input related member
    refine ⟨id, access, call, target, key, ⟨summary, callable.found, inside⟩,
      ⟨summary, callable, inside, listed, fun other passed => ?_, bound⟩, same⟩
    obtain ⟨_, _, _, boundOther, found, _⟩ := exists_answer related passed
    exact ⟨boundOther, found⟩

/-- Where there is no room for all counters, a function has too many records. -/
theorem fillsCounter_of_not_within {config : Config} {solver : Solver}
    (made : Solver.make recordWidth config = .ok solver) (full : ¬ solver.AllWithin functions)
    : index.FillsCounter config := by
  by_contra room
  refine full fun func info found => ?_
  obtain ⟨_, summary, _, foundSummary, _, translated⟩ :=
    exists_summary_of_functions taken (Table.mem_of_get? found)
  have member := List.mem_of_getElem? foundSummary
  obtain ⟨unchanged, size⟩ := functionUsage_size (unique summary member) translated
  refine ⟨by simp [unchanged], ?_⟩
  rw [size, Solver.limit_of_make made]
  exact Nat.lt_of_not_le fun large => room ⟨summary, member, large⟩

omit unique

/-- Where a call joins widths, a call is followed that does so. -/
theorem joinsNarrow_of_joins {width : Callee → UInt32} {config : Config} {solver : Solver}
    {passed : Functions} (sized : index.Sized width)
    (made : Solver.make recordWidth config = .ok solver)
    (passes : solver.Passes functions passed) (joins : passed.Joins recordWidth)
    : index.JoinsNarrow config := by
  obtain ⟨func, param, grown, kept, found, member, differ⟩ := joins
  obtain ⟨sizedPassed, grows⟩ := passes.grows made (represents_of_sized taken sized).sized
  obtain ⟨usage, foundBefore, growth⟩ := grows.exists_param? found
  obtain ⟨id, access, call, target, rfl, record, follows, rfl⟩ :=
    exists_follows taken sized.params foundBefore (growth.calls ▸ member)
  refine ⟨id, access, call, target, follows, ?_⟩
  rw [(sizedPassed.usages _ _ _ found).range.bits_eq, ← (sized.ofWidth record).bits_eq] at differ
  cases foundTarget : passed.param? (.summary target) call.param with
  | none =>
      rw [foundTarget] at differ
      refine Or.inr ⟨Ne.symm differ, Or.inl ?_⟩
      rintro other ⟨summary, foundSummary, inside⟩ same
      obtain ⟨_, _, _, _, _, bound⟩ := follows
      obtain ⟨_, callable⟩ := callable_of_bound bound
      cases foundSummary.symm.trans callable.found
      obtain ⟨_, foundOther, _⟩ := exists_param?_of_record taken sized.params callable inside
      obtain ⟨_, foundGrown, _⟩ := grows.param?_some foundOther
      cases foundTarget.symm.trans (same ▸ foundGrown)
  | some seen =>
      rw [foundTarget, Option.map_some, Solver.seenWidth] at differ
      by_cases all : seen.range.IsAll
      · rw [if_pos all] at differ
        exact Or.inr ⟨Ne.symm differ,
          Or.inr ⟨functions, solver, passed, seen, taken, made, passes, foundTarget, all⟩⟩
      · rw [if_neg all] at differ
        obtain ⟨_, foundStart, _⟩ := grows.exists_param? foundTarget
        obtain ⟨_, summary, other, key, callable, inside, same, _⟩ :=
          exists_record_of_param? taken sized.params foundStart
        cases key
        have recordOther : index.OnRecord target other := ⟨summary, callable.found, inside⟩
        refine Or.inl ⟨other, recordOther, same, ?_⟩
        rwa [(sized.ofWidth recordOther).bits_eq,
          ← (sizedPassed.usages _ _ _ foundTarget).range.bits_eq]

/-- What is on record about a function without calls stays as it is. -/
theorem not_losesTrack_of_callless {width : Callee → UInt32} (sized : index.Sized width)
    {id : SummaryId} {summary : Summary} (callable : index.Callable id summary)
    (callless : ∀ access ∈ summary.accesses, access.calls = []) {access : ParamAccess}
    (inside : access ∈ summary.accesses) (known : ¬ access.range.IsAll) (config : Config)
    : ¬ index.LosesTrack config id access.param := by
  rintro (missing | ⟨others, solver, passed, usage, again, made, passes, found, all⟩)
  · exact missing access ⟨summary, callable.found, inside⟩ rfl
  cases taken.symm.trans again
  have none : Solver.Callless functions (.summary id) := by
    intro param usage found
    by_contra some
    obtain ⟨kept, member⟩ := List.exists_mem_of_ne_nil _ some
    obtain ⟨_, record, call, _, same, _, ⟨other, called, listed, passed, _⟩, _⟩ :=
      exists_follows taken sized.params found member
    cases same
    cases callable.found.symm.trans called.found
    rw [callless record listed] at passed
    cases passed
  rw [Solver.Passes.param?_eq made (represents_of_sized taken sized).sized none passes] at found
  obtain ⟨start, foundStart, translated⟩ :=
    exists_param?_of_record taken sized.params callable inside
  cases found.symm.trans foundStart
  rcases usageOf_cases translated with ⟨_, _, call, listed, _⟩ | ⟨same, _⟩
  · rw [callless access inside] at listed
    cases listed
  · exact known (same ▸ all)

end Following

-----------------------------------------------------------------------------------------
-- Propagations
-----------------------------------------------------------------------------------------

/-- An answer meets the widths of all records with calls that were followed. -/
theorem Sized.meetsWidths {width : Callee → UInt32} {config : Config} {propagated : SummaryIndex}
    (sized : index.Sized width) (answered : (index.propagate config).result = .ok propagated)
    : index.MeetsWidths propagated := by
  obtain ⟨functions, solver, final, taken, made, ran, stored⟩ := exists_propagation answered
  have represents := represents_of_sized taken sized
  obtain ⟨chain, absorbed⟩ := Solver.run_answer made represents.sized ran
  obtain ⟨sizedFinal, grows⟩ := Solver.sized_of_chain made represents.sized chain
  obtain ⟨_, storing, records⟩ := store_spec
    ((Table.Related.keys_eq grows).symm ▸ represents.keys)
  cases stored.symm.trans storing
  intro id access call target follows
  obtain ⟨usage, found, same, kept⟩ := follows.exists_forward taken sized.params
  obtain ⟨grown, foundGrown, growth⟩ := grows.param?_some found
  have keptGrown := growth.calls.symm ▸ kept
  obtain ⟨_, accessed, sameBits, _⟩ := absorbed _ _ grown foundGrown _ keptGrown
  obtain ⟨_, _, _, _, _, bound⟩ := follows
  obtain ⟨_, callable⟩ := callable_of_bound bound
  refine ⟨_, records target call.param (List.getElem?_eq_some_iff.mp callable.found).1, ?_⟩
  have width := (sizedFinal.usages _ _ _ foundGrown).range.bits_eq.trans
    (represents.sized.usages _ _ _ found).range.bits_eq.symm
  rw [← same, ← width, ← sameBits, Option.map_map,
    Solver.access_bits made sizedFinal foundGrown keptGrown accessed]
  rfl

/-- How a propagation over records of several widths ends. -/
theorem Sized.propagate_ends {width : Callee → UInt32} {functions : Functions}
    (sized : index.Sized width) (taken : index.functions = .ok functions) (config : Config)
    : (∃ propagated, (index.propagate config).result = .ok propagated)
      ∨ (∃ left right, left ≠ right ∧ index.JoinsNarrow config
        ∧ (index.propagate config).result = .error (.widthMismatch left right))
      ∨ (index.FillsCounter config
        ∧ (index.propagate config).result = .error .counterOverflow) := by
  obtain ⟨solver, made⟩ : ∃ solver, Solver.make recordWidth config = .ok solver := ⟨_, rfl⟩
  have represents := represents_of_sized taken sized
  have ends := Solver.run_ends made config.verify represents.sized
  rw [result_propagate taken made]
  cases ran : (solver.run config.verify functions).result with
  | ok final =>
      rw [ran] at ends
      obtain ⟨reached⟩ := ends
      obtain ⟨stored, storing, _⟩ := store_accesses
        ((Table.Related.keys_eq reached.grows).symm ▸ represents.keys)
      exact Or.inl ⟨stored, by rw [ok_bind, storing]⟩
  | error fault =>
      rw [ran] at ends
      cases ends with
      | mismatch differ passes joins =>
          exact Or.inr (Or.inl
            ⟨_, _, differ, joinsNarrow_of_joins taken sized made passes joins, rfl⟩)
      | overflow full =>
          exact Or.inr (Or.inr ⟨fillsCounter_of_not_within taken sized.params made full, rfl⟩)

namespace Collected

variable (collected : index.Collected units)

include collected

/-- Every summary has the width of a module, which owns it. -/
theorem exists_sized
    : ∃ width, index.Sized width
      ∧ ∀ (id : SummaryId) summary, index.summaries[id.index]? = some summary
        → ∃ unit ∈ units, summary.unit = unit.name
          ∧ width (.summary id) = unit.pointerWidth.bits := by
  obtain ⟨width, owned⟩ := exists_width
    (fun summary bits => summary.Measured bits
      ∧ ∃ unit ∈ units, summary.unit = unit.name ∧ bits = unit.pointerWidth.bits)
    fun id summary found => by
      obtain ⟨unit, inside, owner, measured⟩ := collected.measured id summary found
      exact ⟨_, measured, unit, inside, owner, rfl⟩
  exact ⟨width, sized_of_measured fun id summary found => (owned id summary found).1,
    fun id summary found => (owned id summary found).2⟩

theorem exists_functions : ∃ functions, index.functions = .ok functions := by
  have measured (summary : Summary) (member : summary ∈ index.summaries)
      : ∃ bits, summary.Measured bits := by
    obtain ⟨number, found⟩ := List.mem_iff_getElem?.mp member
    obtain ⟨unit, _, _, measured⟩ := collected.measured ⟨number⟩ summary found
    exact ⟨_, measured⟩
  refine functions_ok collected.aliases (fun summary member access inside => ?_)
    fun summary member access inside call listed => ?_
  · obtain ⟨_, measured⟩ := measured summary member
    exact (measured.ranges access inside).wellFormed
  · obtain ⟨_, measured⟩ := measured summary member
    exact (measured.offsets access inside call listed).2

/-- Records keep the widths of their modules. -/
theorem hasWidthsOf_of_propagates {propagated : SummaryIndex}
    (propagates : index.Propagates propagated)
    : propagated.HasWidthsOf units := by
  obtain ⟨width, sized, owned⟩ := collected.exists_sized
  have round := propagates.round sized
  intro summary member
  obtain ⟨number, found⟩ := List.mem_iff_getElem?.mp member
  have bound : number < index.summaries.length :=
    length_eq_of_clearAccesses round.bound ▸ (List.getElem?_eq_some_iff.mp found).1
  have foundBefore := List.getElem?_eq_getElem bound
  have same : cleared summary = cleared index.summaries[number] := by
    have numbered := congrArg (fun index => index.summaries[number]?) round.bound
    simpa [clearAccesses_eq, found, foundBefore] using numbered
  obtain ⟨unit, inside, owner, bits⟩ := owned ⟨number⟩ _ foundBefore
  refine ⟨unit, inside, ?_, fun access listed => ?_⟩
  · obtain ⟨_, ownerAfter, _⟩ := cleared_spec summary
    obtain ⟨_, ownerBefore, _⟩ := cleared_spec index.summaries[number]
    rw [← ownerAfter, same, ownerBefore, owner]
  · rw [← bits]
    exact ⟨round.sized.ranges ⟨number⟩ summary found access listed,
      round.sized.offsets ⟨number⟩ summary found access listed⟩

/-- Records of modules of one pointer width have that width. -/
theorem width_of_onRecord {width : PointerWidth} (one : ∀ unit ∈ units, unit.pointerWidth = width)
    (id : SummaryId) (access : ParamAccess) (record : index.OnRecord id access)
    : access.range.bits = width.bits := by
  obtain ⟨summary, found, inside⟩ := record
  obtain ⟨unit, member, _, measured⟩ := collected.measured id summary found
  rw [(measured.ranges access inside).bits_eq, one unit member]

/-- Modules with wide pointers join no other widths. -/
theorem not_joinsNarrow (wide : ∀ unit ∈ units, unit.pointerWidth = .w64) (config : Config)
    : ¬ index.JoinsNarrow config :=
  fun joins => (joins.exists_losesTrack (collected.width_of_onRecord wide)).1 rfl

end Collected

end SummaryIndex

namespace Module

/-- A program of modules that were made by builders, for any targets, can be summarised. The
records of every function have the width of the pointers of its module, before and after a
propagation. The propagation has an answer, in which everything is seen at the width of the records
that lead to it; unless a call is followed between records of different widths, or from a narrow
record to a parameter about which nothing is known, or a counter can run full. So wide modules join
no widths, and modules of one width join them only where nothing is known.
-/
theorem summarizeAll_propagates_unless_joinsNarrow {units : List Module} {config : Config}
    (recording : config.recordAccesses = true) (composed : ∀ unit ∈ units, unit.Composed)
    (analyzed : ∀ unit ∈ units, ∀ id, unit.isDeclaration (.function id) = .ok false
      → ∃ usages, (unit.analyzeFunction id).result = .ok usages)
    : ∃ index, (summarizeAll units config .empty).result = .ok index
      ∧ index.HasRecordsOf units
      ∧ index.HasWidthsOf units
      ∧ (∀ settings, (∀ unit ∈ units, unit.pointerWidth = .w64) → ¬ index.JoinsNarrow settings)
      ∧ (∀ settings width, (∀ unit ∈ units, unit.pointerWidth = width)
        → index.JoinsNarrow settings
        → ∃ id access call target, index.Follows id access call target
          ∧ index.LosesTrack settings target call.param)
      ∧ ∀ settings,
        (∃ propagated, (index.propagate settings).result = .ok propagated
          ∧ propagated.HasWidthsOf units ∧ index.MeetsWidths propagated)
        ∨ (∃ left right, left ≠ right ∧ index.JoinsNarrow settings
          ∧ (index.propagate settings).result = .error (.widthMismatch left right))
        ∨ (index.FillsCounter settings
          ∧ (index.propagate settings).result = .error .counterOverflow) := by
  obtain ⟨index, summarized, collected⟩ :=
    SummaryIndex.collected_empty.addAll recording composed analyzed
  rw [List.nil_append] at collected
  obtain ⟨width, sized, _⟩ := collected.exists_sized
  obtain ⟨functions, taken⟩ := collected.exists_functions
  refine ⟨index, summarized, collected.records, collected.hasWidthsOf,
    fun settings wide => collected.not_joinsNarrow wide settings,
    fun settings width one joins =>
      (joins.exists_losesTrack (collected.width_of_onRecord one)).2, fun settings => ?_⟩
  refine (sized.propagate_ends taken settings).imp_left ?_
  rintro ⟨propagated, answered⟩
  exact ⟨propagated, answered, collected.hasWidthsOf_of_propagates ⟨settings, answered⟩,
    sized.meetsWidths answered⟩

/-- Returns its parameter, so that nothing is known about it. -/
def giveBack : Function where
  sig := .declared "g" .exported [.ptr] .unit
  values := [.argument .ptr 0]
  insts := [.ret (some ⟨0⟩)]
  blockCount := 1
  layout := [⟨⟨0⟩, [⟨0⟩]⟩]

/-- Reads four bytes through its parameter, and hands it on. -/
def peek : Function where
  sig := .declared "f" .exported [.ptr] .unit
  values := [.argument .ptr 0, .result ⟨0⟩ .i32]
  insts := [.load ⟨0⟩ .i32, .call ⟨.direct (.function ⟨0⟩), [⟨0⟩], [], .unit⟩, .ret none]
  blockCount := 1
  layout := [⟨⟨0⟩, [⟨0⟩, ⟨1⟩, ⟨2⟩]⟩]

/-- The module of both functions, for an instruction set. -/
def peeker (architecture : Architecture) : Module :=
  ⟨"m", ⟨architecture, .unknown, .linux⟩, [giveBack, peek], []⟩

def peeking : List Module.Command :=
  [.declareFunction giveBack.sig, .declareFunction peek.sig,
    .session ⟨0⟩ [.appendBlock, .selectBlock ⟨0⟩, .append (.ret (some ⟨0⟩)), .finish],
    .session ⟨1⟩ [.appendBlock, .selectBlock ⟨0⟩, .append (.load ⟨0⟩ .i32),
      .call (.function ⟨0⟩) [⟨0⟩] [], .append (.ret none), .finish]]

theorem peeker_composed (architecture : Architecture) : (peeker architecture).Composed :=
  ⟨"m", (peeker architecture).target, peeking, rfl, by cases architecture <;> decide +kernel⟩

/-- The records of the module have the width of its pointers. -/
def peeked (bits : UInt32) : Summary :=
  ⟨.ofName "f", "m", .exported, true, true,
    .function [⟨0, ⟨bits, 0, 4⟩, [⟨0, .ofName "g", ⟨bits, 0, 1⟩⟩]⟩]⟩

def givenBack : Summary := ⟨.ofName "g", "m", .exported, true, true, .function []⟩

theorem analyzeFunction_giveBack (architecture : Architecture)
    : ((peeker architecture).analyzeFunction ⟨0⟩).result
      = .ok ⟨.empty, .ofList [(0, ⟨Range.top architecture.pointerWidth.bits, []⟩)], 0⟩ := by
  have straight : giveBack.IsStraight ⟨⟨0⟩, [⟨0⟩]⟩ := ⟨rfl, rfl, rfl⟩
  rw [straight.analyzeFunction rfl]
  cases architecture <;> decide +kernel

theorem analyzeFunction_peek (architecture : Architecture)
    : ((peeker architecture).analyzeFunction ⟨1⟩).result
      = .ok ⟨.empty, .ofList [(0, ⟨⟨architecture.pointerWidth.bits, 0, 4⟩,
        [⟨.function ⟨0⟩, 0, ⟨architecture.pointerWidth.bits, 0, 1⟩⟩]⟩)], 0⟩ := by
  have straight : peek.IsStraight ⟨⟨0⟩, [⟨0⟩, ⟨1⟩, ⟨2⟩]⟩ := ⟨rfl, rfl, rfl⟩
  rw [straight.analyzeFunction rfl]
  cases architecture <;> decide +kernel

theorem peeker_records (architecture : Architecture)
    : List.Forall₂ (peeker architecture).RecordsAs (peeker architecture).functionIds
        [givenBack, peeked architecture.pointerWidth.bits] := by
  refine .cons ⟨rfl, _, _, analyzeFunction_giveBack architecture, ?_, rfl⟩
    (.cons ⟨rfl, _, _, analyzeFunction_peek architecture, ?_, rfl⟩ .nil)
  · cases architecture <;> rfl
  · cases architecture <;> rfl

/-- With narrow pointers the function that reads is recorded at their width, and a propagation sees
what the other one accesses at the record width.
-/
theorem exists_composed_mismatch_peeker
    : (peeker .riscv32).Composed
      ∧ (∀ id, (peeker .riscv32).isDeclaration (.function id) = .ok false
        → ∃ usages, ((peeker .riscv32).analyzeFunction id).result = .ok usages)
      ∧ ∃ index, (summarizeAll [peeker .riscv32] recording .empty).result = .ok index
        ∧ (∃ summary ∈ index.summaries, ∃ access ∈ summary.accesses, access.range.bits = 32)
        ∧ (index.propagate {}).result = .error (.widthMismatch 32 64) := by
  have summarized : (summarizeAll [peeker .riscv32] recording .empty).result
      = .ok ⟨[givenBack, peeked 32]⟩ := by
    rw [summarizeAll, List.foldlM_cons, Traced.result_bind,
      summarize_of_records rfl rfl (peeker_records .riscv32)]
    rfl
  let solver : Solver := ⟨Range.top 64, 20⟩
  let functions : Functions := .ofList [(.summary ⟨1⟩,
    ⟨.empty, .ofList [(0, ⟨⟨32, 0, 4⟩, [⟨.summary ⟨0⟩, 0, ⟨32, 0, 1⟩⟩]⟩)], 0⟩)]
  have taken : (SummaryIndex.mk [givenBack, peeked 32]).functions = .ok functions := by
    decide +kernel
  have visited : (solver.visitAll functions.keys ⟨functions, []⟩).result
      = .error (.widthMismatch 32 64) := rfl
  have made : Solver.make SummaryIndex.recordWidth {} = .ok solver := rfl
  refine ⟨peeker_composed .riscv32, exists_usages_of_records (peeker_records .riscv32), _,
    summarized, ⟨peeked 32, by simp, _, List.mem_singleton.mpr rfl, rfl⟩, ?_⟩
  rw [SummaryIndex.result_propagate taken made, Solver.run, Traced.result_bind, visited]
  rfl

/-- A module with narrow pointers: one function stores, and the other hands its parameter to it. -/
def narrowPair : Module := ⟨"far", ⟨.riscv32, .unknown, .linux⟩, [writeEnd, handOn], []⟩

def narrowWritten : Summary :=
  ⟨.ofName "ext", "far", .exported, true, true, .function [⟨0, ⟨32, 0, 4⟩, []⟩]⟩

def narrowHanded : Summary :=
  ⟨.ofName "h", "far", .exported, true, true,
    .function [⟨0, ⟨32, 0, 0⟩, [⟨0, .ofName "ext", ⟨32, 4, 5⟩⟩]⟩]⟩

def narrowPairing : List Module.Command :=
  [.declareFunction writeEnd.sig, .declareFunction handOn.sig,
    .session ⟨0⟩ [.appendBlock, .selectBlock ⟨0⟩, .constant (.i32 7), .append (.store ⟨0⟩ ⟨1⟩),
      .append (.ret none), .finish],
    .session ⟨1⟩ [.appendBlock, .selectBlock ⟨0⟩, .constant (.i64 4), .append (.ptrAdd ⟨0⟩ ⟨1⟩),
      .call (.function ⟨0⟩) [⟨2⟩] [], .append (.ret none), .finish]]

theorem narrowPair_composed : narrowPair.Composed :=
  ⟨"far", narrowPair.target, narrowPairing, rfl, by decide +kernel⟩

theorem narrowPair_records
    : List.Forall₂ narrowPair.RecordsAs narrowPair.functionIds [narrowWritten, narrowHanded] := by
  have writes : (narrowPair.analyzeFunction ⟨0⟩).result
      = .ok ⟨.empty, .ofList [(0, ⟨⟨32, 0, 4⟩, []⟩)], 0⟩ := by
    have straight : writeEnd.IsStraight ⟨⟨0⟩, [⟨0⟩, ⟨1⟩]⟩ := ⟨rfl, rfl, rfl⟩
    rw [straight.analyzeFunction rfl]
    decide +kernel
  have hands : (narrowPair.analyzeFunction ⟨1⟩).result
      = .ok ⟨.empty, .ofList [(0, ⟨⟨32, 0, 0⟩, [⟨.function ⟨0⟩, 0, ⟨32, 4, 5⟩⟩]⟩)], 0⟩ := by
    have straight : handOn.IsStraight ⟨⟨0⟩, [⟨0⟩, ⟨1⟩, ⟨2⟩]⟩ := ⟨rfl, rfl, rfl⟩
    rw [straight.analyzeFunction rfl]
    decide +kernel
  exact .cons ⟨rfl, _, _, writes, rfl, rfl⟩ (.cons ⟨rfl, _, _, hands, rfl, rfl⟩ .nil)

/-- A program for two widths. -/
def mixed : List Module := [narrowPair, peeker .x86_64]

def mixedIndex : SummaryIndex := ⟨[narrowWritten, narrowHanded, givenBack, peeked 64]⟩

theorem summarizeAll_mixed : (summarizeAll mixed recording .empty).result = .ok mixedIndex := by
  rw [summarizeAll, mixed, List.foldlM_cons, Traced.result_bind,
    summarize_of_records rfl rfl narrowPair_records, ok_bind, List.foldlM_cons, Traced.result_bind,
    summarize_of_records rfl rfl (peeker_records .x86_64)]
  rfl

/-- One call is followed between narrow records, of which the second stays as it is; and one from a
wide record to a function without records.
-/
theorem not_joinsNarrow_mixedIndex (collected : mixedIndex.Collected mixed) (config : Config)
    : ¬ mixedIndex.JoinsNarrow config := by
  obtain ⟨functions, taken⟩ := collected.exists_functions
  obtain ⟨width, sized, _⟩ := collected.exists_sized
  rintro ⟨⟨number⟩, access, call, target, ⟨summary, callable, inside, listed, _, bound⟩, narrow⟩
  obtain _ | _ | _ | _ | _ := number <;> cases callable.found
  · cases List.mem_singleton.mp inside
    cases listed
  · cases List.mem_singleton.mp inside
    cases List.mem_singleton.mp listed
    have leads : mixedIndex.boundFunction (.ofName "ext") "far" = .ok (some ⟨0⟩) := by
      decide +kernel
    cases leads.symm.trans bound
    rcases narrow with ⟨_, ⟨_, found, recorded⟩, _, differ⟩ | ⟨_, loses⟩
    · cases found
      cases List.mem_singleton.mp recorded
      exact differ rfl
    · have written : mixedIndex.Callable ⟨0⟩ narrowWritten := ⟨rfl, rfl, rfl, rfl⟩
      exact SummaryIndex.not_losesTrack_of_callless taken sized written (by decide)
        (List.mem_singleton.mpr rfl) (by decide) config loses
  · cases inside
  · cases List.mem_singleton.mp inside
    cases List.mem_singleton.mp listed
    have leads : mixedIndex.boundFunction (.ofName "g") "m" = .ok (some ⟨2⟩) := by decide +kernel
    cases leads.symm.trans bound
    rcases narrow with ⟨_, ⟨_, found, recorded⟩, _⟩ | ⟨differ, _⟩
    · cases found
      cases recorded
    · exact differ rfl

/-- Witness: narrow modules do no harm when what their calls lead to is on record at their width. -/
theorem summarizeAll_propagates_unless_joinsNarrow_mixed
    : recording.recordAccesses = true
      ∧ (∀ unit ∈ mixed, unit.Composed)
      ∧ (∀ unit ∈ mixed, ∀ id, unit.isDeclaration (.function id) = .ok false
        → ∃ usages, (unit.analyzeFunction id).result = .ok usages)
      ∧ (summarizeAll mixed recording .empty).result = .ok mixedIndex
      ∧ mixedIndex.HasWidthsOf mixed
      ∧ ∃ propagated, (mixedIndex.propagate {}).result = .ok propagated
        ∧ propagated.HasWidthsOf mixed := by
  have records : recording.recordAccesses = true := rfl
  have composed : ∀ unit ∈ mixed, unit.Composed := by
    intro unit member
    rcases List.mem_cons.mp member with rfl | last
    · exact narrowPair_composed
    · cases List.mem_singleton.mp last
      exact peeker_composed .x86_64
  have analyzed : ∀ unit ∈ mixed, ∀ id, unit.isDeclaration (.function id) = .ok false
      → ∃ usages, (unit.analyzeFunction id).result = .ok usages := by
    intro unit member id defined
    rcases List.mem_cons.mp member with rfl | last
    · exact exists_usages_of_records narrowPair_records id defined
    · cases List.mem_singleton.mp last
      exact exists_usages_of_records (peeker_records .x86_64) id defined
  obtain ⟨_, summarizedAgain, collected⟩ :=
    SummaryIndex.collected_empty.addAll records composed analyzed
  cases summarizeAll_mixed.symm.trans summarizedAgain
  obtain ⟨index, summarized, _, widths, _, _, ends⟩ :=
    summarizeAll_propagates_unless_joinsNarrow records composed analyzed
  cases summarizeAll_mixed.symm.trans summarized
  refine ⟨records, composed, analyzed, summarizeAll_mixed, widths, ?_⟩
  rcases ends {} with ⟨propagated, answered, propagatedWidths, _⟩ | ⟨_, _, _, joins, _⟩ | ⟨fills, _⟩
  · exact ⟨propagated, answered, propagatedWidths⟩
  · exact absurd joins (not_joinsNarrow_mixedIndex collected {})
  · obtain ⟨summary, member, full⟩ := fills
    simp only [mixedIndex, List.mem_cons, List.not_mem_nil, or_false] at member
    rcases member with rfl | rfl | rfl | rfl <;> exact absurd full (by decide)

end Module

end StackBounds
