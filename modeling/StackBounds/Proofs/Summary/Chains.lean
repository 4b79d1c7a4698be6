import StackBounds.Proofs.Summary.Translation

/-! Propagation covers chains of calls. Whatever the functions along a chain access, moved by the
offsets on the way, is recorded for the parameter at the head of the chain.
-/

namespace StackBounds.SummaryIndex

/-- An address in a parameter of the first function reaches a parameter of the second one through
recorded calls, moved by the sum of one offset of each call.
-/
inductive Reaches (index : SummaryIndex)
    : SummaryId → UInt32 → SummaryId → UInt32 → Int → Prop
  | here (id : SummaryId) (param : UInt32) : index.Reaches id param id param 0
  | call {id summary access call target last lastParam shift rest}
    (found : index.summaries[id.index]? = some summary)
    (record : access ∈ summary.accesses)
    (recorded : call ∈ access.calls)
    (bound : index.boundFunction call.callee summary.unit = .ok (some target))
    (offset : call.offset.Holds shift)
    (later : index.Reaches target call.param last lastParam rest)
    : index.Reaches id access.param last lastParam (shift + rest)

/-- Nothing is known about a parameter: it has no record, or is handed to a symbol that is bound
to no function.
-/
inductive Lost (index : SummaryIndex) : SummaryId → UInt32 → Prop
  | unrecorded {id summary param}
    (found : index.summaries[id.index]? = some summary)
    (absent : ∀ access ∈ summary.accesses, access.param ≠ param)
    : index.Lost id param
  | unbound {id summary access call}
    (found : index.summaries[id.index]? = some summary)
    (record : access ∈ summary.accesses)
    (recorded : call ∈ access.calls)
    (unbound : index.boundFunction call.callee summary.unit = .ok none)
    : index.Lost id access.param

section Covering

variable {index : SummaryIndex} {width : Callee → UInt32} {functions final : Functions}
  (represents : index.Represents width functions) (sized : final.Sized width)
  (grows : functions.Grows final)

include represents sized grows

omit sized in
/-- What is solved for a parameter comes from its record. -/
theorem exists_record_of_final {id : SummaryId} {param : UInt32} {usage : Usage Callee}
    (found : final.param? (.summary id) param = some usage)
    : ∃ summary access, index.Callable id summary ∧ access ∈ summary.accesses
      ∧ access.param = param := by
  obtain ⟨start, foundStart, _⟩ := grows.exists_param? found
  obtain ⟨info, foundInfo, _⟩ := Option.bind_eq_some_iff.mp foundStart
  obtain ⟨_, summary, key, callable⟩ := represents.keys _ (Table.mem_keys_of_get? foundInfo)
  cases key
  by_contra none
  rw [represents.missing id summary param callable.found
    fun access inside same => none ⟨summary, access, callable, inside, same⟩] at foundStart
  cases foundStart

/-- A record keeps what it says through a run. -/
theorem translates_final {id : SummaryId} {summary : Summary} {access : ParamAccess}
    (callable : index.Callable id summary) (record : access ∈ summary.accesses)
    {usage : Usage Callee} (found : final.param? (.summary id) access.param = some usage)
    : index.Translates (width (.summary id)) summary.unit access usage := by
  obtain ⟨start, foundStart, meets⟩ := represents.recorded id summary access callable record
  obtain ⟨_, foundGrown, growsUsage⟩ := grows.param?_some foundStart
  cases found.symm.trans foundGrown
  have before := meets.wellFormed.range
  have after := sized.usages _ _ _ found
  have full (all : start.range.IsAll) : usage.range.IsAll :=
    after.range.wellFormed.isAll_of_superset all (after.range.bits_eq.trans before.bits_eq.symm)
      growsUsage.range
  refine ⟨after, Range.subset_trans meets.range growsUsage.range, ?_, ?_⟩
  · intro call recorded unbound
    exact full (meets.unbound call recorded unbound)
  · intro call recorded target bound
    rcases meets.bound call recorded target bound with all | member
    · exact Or.inl (full all)
    · exact Or.inr (growsUsage.calls ▸ member)

variable {config : Config} {solver : Solver}
  (made : Solver.make recordWidth config = .ok solver) (absorbed : solver.Absorbed final)

include made absorbed

/-- One call of a chain: the callee is callable, and what its parameter allows is allowed before
the call, unless everything is.
-/
theorem allows_of_call {id target : SummaryId} {summary : Summary} {access : ParamAccess}
    {call : AccessCall} (callable : index.Callable id summary)
    (record : access ∈ summary.accesses) (recorded : call ∈ access.calls)
    (bound : index.boundFunction call.callee summary.unit = .ok (some target))
    {usage : Usage Callee} (found : final.param? (.summary id) access.param = some usage)
    : usage.range.IsAll
      ∨ ∃ targetSummary targetUsage, index.Callable target targetSummary
        ∧ final.param? (.summary target) call.param = some targetUsage
        ∧ (targetUsage.range.IsAll → usage.range.IsAll)
        ∧ ∀ shift position, call.offset.Holds shift → targetUsage.range.Allows position
          → usage.range.Allows (shift + position) := by
  have meets := translates_final represents sized grows callable record found
  rcases meets.bound call recorded target bound with all | member
  · exact Or.inl all
  obtain ⟨targetSummary, callableTarget⟩ := callable_of_bound bound
  have proper := sized.usages _ _ _ found
  have wf := proper.range.wellFormed
  have absorbs := absorbed _ _ _ found _ member
  cases foundTarget : final.param? (.summary target) call.param with
  | none => exact Or.inl (absorbs.isAll_of_missing wf made foundTarget)
  | some targetUsage =>
      have wfTarget := (sized.usages _ _ _ foundTarget).range.wellFormed
      refine Or.inr ⟨targetSummary, targetUsage, callableTarget, rfl, ?_, ?_⟩
      · intro all
        exact absorbs.isAll_of_callee wf made foundTarget wfTarget all
      · intro shift position offset allowed
        exact absorbs.allows_of_callee wf made foundTarget wfTarget (proper.offset_range member)
          allowed offset

/-- The accesses at the end of a chain are allowed at its head; by induction on the chain. -/
theorem allows_of_reaches {id last : SummaryId} {param lastParam : UInt32} {shift : Int}
    (reaches : index.Reaches id param last lastParam shift) {summary lastSummary : Summary}
    (callable : index.Callable id summary)
    (foundLast : index.summaries[last.index]? = some lastSummary) {access : ParamAccess}
    (record : access ∈ lastSummary.accesses) (same : access.param = lastParam)
    (range : access.range.OfWidth (width (.summary last))) {position : Int}
    (held : access.range.Holds position) {usage : Usage Callee}
    (found : final.param? (.summary id) param = some usage)
    : usage.range.Allows (shift + position) := by
  induction reaches generalizing summary usage with
  | here id param =>
      subst same
      cases callable.found.symm.trans foundLast
      have meets := translates_final represents sized grows callable record found
      have proper := (sized.usages _ _ _ found).range
      rw [Int.zero_add]
      exact Or.inr ((range.wellFormed.subset_iff_holds proper.wellFormed
        (range.bits_eq.trans proper.bits_eq.symm)).mp meets.range position held)
  | call foundSummary recordFirst recorded bound offset _ ih =>
      cases callable.found.symm.trans foundSummary
      rcases allows_of_call represents sized grows made absorbed callable recordFirst recorded
        bound found with all | ⟨_, _, callableTarget, foundTarget, _, moves⟩
      · exact Or.inl all
      · rw [Int.add_assoc]
        exact moves _ _ offset (ih callableTarget foundLast same range foundTarget)

/-- A chain that gets lost makes everything accessible at its head; by induction on the chain. -/
theorem isAll_of_reaches_lost {id last : SummaryId} {param lastParam : UInt32} {shift : Int}
    (reaches : index.Reaches id param last lastParam shift) (lost : index.Lost last lastParam)
    {summary : Summary} (callable : index.Callable id summary) {usage : Usage Callee}
    (found : final.param? (.summary id) param = some usage)
    : usage.range.IsAll := by
  induction reaches generalizing summary usage with
  | here id param =>
      cases lost with
      | unrecorded foundSummary absent =>
          have missing := represents.missing _ _ _ foundSummary absent
          rw [grows.param?_none missing] at found
          cases found
      | unbound foundSummary record recorded unbound =>
          cases callable.found.symm.trans foundSummary
          exact (translates_final represents sized grows callable record found).unbound _ recorded
            unbound
  | call foundSummary recordFirst recorded bound _ _ ih =>
      cases callable.found.symm.trans foundSummary
      rcases allows_of_call represents sized grows made absorbed callable recordFirst recorded
        bound found with all | ⟨_, _, callableTarget, foundTarget, full, _⟩
      · exact all
      · exact full (ih lost callableTarget foundTarget)

end Covering

-----------------------------------------------------------------------------------------
-- The propagated index
-----------------------------------------------------------------------------------------

theorem result_propagate {index : SummaryIndex} {config : Config} {functions : Functions}
    {solver : Solver} (taken : index.functions = .ok functions)
    (made : Solver.make recordWidth config = .ok solver)
    : (index.propagate config).result
      = (solver.run config.verify functions).result >>= index.store := by
  simp only [propagate, Traced.result_bind, Traced.result_liftM, taken, made, ok_bind]
  cases (solver.run config.verify functions).result with
  | error fault => rfl
  | ok solved =>
      simp only [ok_bind, Traced.result_emit, Traced.result_pure]
      cases index.store solved <;> rfl

/-- The stages of a propagation. -/
theorem exists_propagation {index propagated : SummaryIndex} {config : Config}
    (answered : (index.propagate config).result = .ok propagated)
    : ∃ functions solver final, index.functions = .ok functions
      ∧ Solver.make recordWidth config = .ok solver
      ∧ (solver.run config.verify functions).result = .ok final
      ∧ index.store final = .ok propagated := by
  simp only [propagate, Traced.result_bind, Traced.result_liftM, Traced.result_emit,
    Traced.result_pure, ok_bind] at answered
  obtain ⟨functions, taken, answered⟩ := exists_of_bind_eq_ok answered
  obtain ⟨solver, made, answered⟩ := exists_of_bind_eq_ok answered
  obtain ⟨final, ran, answered⟩ := exists_of_bind_eq_ok answered
  obtain ⟨stored, storing, answered⟩ := exists_of_bind_eq_ok answered
  cases answered
  exact ⟨functions, solver, final, taken, made, ran, storing⟩

theorem functions_of_propagate {index propagated : SummaryIndex} {config : Config}
    (answered : (index.propagate config).result = .ok propagated)
    : ∃ functions, index.functions = .ok functions := by
  obtain ⟨functions, _, _, taken, _⟩ := exists_propagation answered
  exact ⟨functions, taken⟩

/-- A propagation stops at a full counter, or stores functions that grew until they settled. -/
theorem propagate_spec {index : SummaryIndex} {config : Config} {functions : Functions}
    {solver : Solver} (represents : index.Represents (fun _ => recordWidth) functions)
    (taken : index.functions = .ok functions)
    (made : Solver.make recordWidth config = .ok solver)
    : ((index.propagate config).result = .error .counterOverflow ∧ solver.Overflows functions)
      ∨ ∃ final stored, final.Sized (fun _ => recordWidth) ∧ functions.Grows final
        ∧ solver.Absorbed final
        ∧ (index.propagate config).result = .ok stored
        ∧ ∀ id param usage, final.param? (.summary id) param = some usage
          → stored.access? id param = .ok (some ⟨param, usage.range, []⟩) := by
  rw [result_propagate taken made]
  rcases Solver.run_spec made represents.wellFormed
    with ⟨failed, overflows⟩ | ⟨final, result, chain, settled⟩
  · rw [failed]
    exact Or.inl ⟨rfl, overflows⟩
  · obtain ⟨wf, grows⟩ := Solver.sized_of_chain made represents.wellFormed chain
    have keys := Table.Related.keys_eq grows
    obtain ⟨stored, storing, records⟩ := store_spec (keys.symm ▸ represents.keys)
    refine Or.inr ⟨final, stored, wf, grows, settled.absorbed made wf,
      by rw [result, ok_bind, storing], ?_⟩
    intro id param usage found
    obtain ⟨info, foundInfo, _⟩ := Option.bind_eq_some_iff.mp found
    obtain ⟨_, summary, same, callable⟩ :=
      represents.keys (.summary id) (keys ▸ Table.mem_keys_of_get? foundInfo)
    cases same
    rw [records id param (List.getElem?_eq_some_iff.mp callable.found).1, found, Option.map_some]

/-- Propagation is sound for chains of calls of every length. Where aliases lead to summaries, it
has an answer unless a counter runs full. In its answer every record of a live function that is
not preemptable is there again, without calls, and (1) holds what any record at the end of a chain
holds, moved by one offset of each call, or is full; (2) is full when a chain leads to a place
about which nothing is recorded.
-/
theorem propagate_covers_chains {index : SummaryIndex} {config : Config}
    (recorded : index.Recorded)
    : (index.AliasesExist → (∃ propagated, (index.propagate config).result = .ok propagated)
        ∨ ((index.propagate config).result = .error .counterOverflow
          ∧ ∃ functions solver, index.functions = .ok functions
            ∧ Solver.make recordWidth config = .ok solver ∧ solver.Overflows functions))
      ∧ ∀ propagated, (index.propagate config).result = .ok propagated
        → ∀ id summary access, index.Callable id summary → access ∈ summary.accesses
          → ∃ solved, propagated.access? id access.param = .ok (some solved)
            ∧ solved.calls = []
            ∧ (∀ last lastSummary lastAccess shift position,
              index.Reaches id access.param last lastAccess.param shift
              → index.summaries[last.index]? = some lastSummary
              → lastAccess ∈ lastSummary.accesses
              → lastAccess.range.Holds position
              → solved.range.IsAll ∨ solved.range.Holds (shift + position))
            ∧ ∀ last lastParam shift, index.Reaches id access.param last lastParam shift
              → index.Lost last lastParam → solved.range.IsAll := by
  obtain ⟨solver, made⟩ : ∃ solver, Solver.make recordWidth config = .ok solver :=
    ⟨⟨Range.top recordWidth, config.maxIterations⟩, rfl⟩
  constructor
  · intro aliases
    obtain ⟨functions, taken⟩ := recorded.exists_functions aliases
    have represents := functions_represents taken recorded
    rcases propagate_spec represents taken made
      with ⟨failed, overflows⟩ | ⟨_, stored, _, _, _, result, _⟩
    · exact Or.inr ⟨failed, functions, solver, taken, made, overflows⟩
    · exact Or.inl ⟨stored, result⟩
  · intro propagated answered id summary access callable record
    obtain ⟨functions, taken⟩ := functions_of_propagate answered
    have represents := functions_represents taken recorded
    rcases propagate_spec represents taken made
      with ⟨failed, _⟩ | ⟨final, stored, wf, grows, settled, result, records⟩
    · cases answered.symm.trans failed
    cases answered.symm.trans result
    obtain ⟨start, foundStart, _⟩ := represents.recorded id summary access callable record
    obtain ⟨usage, found, _⟩ := grows.param?_some foundStart
    refine ⟨_, records id access.param usage found, rfl, ?_, ?_⟩
    · intro last lastSummary lastAccess shift position reaches foundLast recordLast held
      have range := recorded.ranges lastSummary (List.mem_of_getElem? foundLast) lastAccess
        recordLast
      exact allows_of_reaches represents wf grows made settled reaches callable foundLast
        recordLast rfl range held found
    · intro last lastParam shift reaches lost
      exact isAll_of_reaches_lost represents wf grows made settled reaches lost callable found

/-- A function that hands its parameter to an alias of a function in another module. -/
def linked (range : Range) (calls : List AccessCall) : SummaryIndex :=
  ⟨[⟨⟨1⟩, "first", .external, true, true, .function [⟨0, range, calls⟩]⟩,
    ⟨⟨2⟩, "second", .external, true, true, .aliased ⟨2⟩⟩,
    ⟨⟨3⟩, "second", .internal, true, true, .function [⟨0, ⟨64, 0, 8⟩, []⟩]⟩]⟩

/-- The call of the linked modules. -/
def linkedCall : AccessCall := ⟨0, ⟨2⟩, ⟨64, 4, 5⟩⟩

theorem propagate_linked
    : ((linked ⟨64, 0, 4⟩ [linkedCall]).propagate {}).result = .ok (linked ⟨64, 0, 12⟩ []) := by
  let solver : Solver := ⟨Range.top 64, 20⟩
  let functions (range : Range) (updates : UInt32) : Functions :=
    .ofList [
      (.summary ⟨0⟩, ⟨.empty, .ofList [(0, ⟨range, [⟨.summary ⟨2⟩, 0, ⟨64, 4, 5⟩⟩]⟩)], updates⟩),
      (.summary ⟨2⟩, ⟨.empty, .ofList [(0, ⟨⟨64, 0, 8⟩, []⟩)], 0⟩)]
  have taken : (linked ⟨64, 0, 4⟩ [linkedCall]).functions = .ok (functions ⟨64, 0, 4⟩ 0) := by
    decide +kernel
  have visited : (solver.visitAll [.summary ⟨0⟩, .summary ⟨2⟩]
      ⟨functions ⟨64, 0, 4⟩ 0, []⟩).result = .ok ⟨functions ⟨64, 0, 12⟩ 1, []⟩ := rfl
  have again : (solver.visitAll [.summary ⟨0⟩, .summary ⟨2⟩]
      ⟨functions ⟨64, 0, 12⟩ 1, []⟩).result = .ok ⟨functions ⟨64, 0, 12⟩ 1, []⟩ := rfl
  have solved : (solver.run true (functions ⟨64, 0, 4⟩ 0)).result
      = .ok (functions ⟨64, 0, 12⟩ 1) := by
    simp only [Solver.run, Traced.result_bind, ↓reduceIte]
    change (solver.visitAll [.summary ⟨0⟩, .summary ⟨2⟩] _).result >>= _ = _
    rw [visited, ok_bind, Solver.result_drain_nil rfl, ok_bind]
    change (solver.visitAll [.summary ⟨0⟩, .summary ⟨2⟩] _).result >>= _ = _
    rw [again]
    rfl
  have stored : (linked ⟨64, 0, 4⟩ [linkedCall]).store (functions ⟨64, 0, 12⟩ 1)
      = .ok (linked ⟨64, 0, 12⟩ []) := by
    decide +kernel
  rw [result_propagate taken (show Solver.make recordWidth {} = .ok solver from rfl)]
  change (solver.run true _).result >>= _ = _
  rw [solved, ok_bind, stored]

theorem propagate_covers_chains_linked
    : (linked ⟨64, 0, 4⟩ [linkedCall]).Recorded
      ∧ (linked ⟨64, 0, 4⟩ [linkedCall]).Reaches ⟨0⟩ 0 ⟨2⟩ 0 4
      ∧ ∃ solved, (linked ⟨64, 0, 12⟩ []).access? ⟨0⟩ 0 = .ok (some solved)
        ∧ solved.calls = []
        ∧ (solved.range.IsAll ∨ solved.range.Holds (4 + 7)) := by
  have recorded : (linked ⟨64, 0, 4⟩ [linkedCall]).Recorded :=
    ⟨by decide, by decide, by decide, by decide⟩
  have reaches : (linked ⟨64, 0, 4⟩ [linkedCall]).Reaches ⟨0⟩ 0 ⟨2⟩ 0 4 := by
    have record : ParamAccess.mk 0 ⟨64, 0, 4⟩ [linkedCall]
        ∈ (linked ⟨64, 0, 4⟩ [linkedCall]).summaries[0].accesses := by decide
    exact .call rfl record (List.mem_singleton.mpr rfl) (by decide +kernel)
      (show linkedCall.offset.Holds 4 by decide) (.here ⟨2⟩ 0)
  obtain ⟨_, sound⟩ := propagate_covers_chains recorded
  obtain ⟨solved, found, calls, covers, _⟩ := sound _ propagate_linked ⟨0⟩ _ _
    ⟨rfl, rfl, rfl, rfl⟩ (List.mem_singleton.mpr rfl)
  refine ⟨recorded, reaches, solved, found, calls, ?_⟩
  exact covers ⟨2⟩ _ ⟨0, ⟨64, 0, 8⟩, []⟩ 4 7 reaches rfl (List.mem_singleton.mpr rfl) (by decide)

end StackBounds.SummaryIndex
