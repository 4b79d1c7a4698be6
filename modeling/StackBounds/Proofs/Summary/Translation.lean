import Mathlib.Data.List.Nodup
import StackBounds.Proofs.Computations
import StackBounds.Proofs.Solver.FixedPoint
import StackBounds.Proofs.Summary.Binding
import StackBounds.Summary.Propagate

/-! Records and solver functions. The records of an index become functions for the solver, and
solved functions become records again; both ways are described by what look-ups find.
-/

namespace StackBounds.SummaryIndex

/-- The records denote sets of the record width, every call has an offset, and no parameter has two
records in one function.
-/
structure Recorded (index : SummaryIndex) : Prop where
  params : ∀ summary ∈ index.summaries, (summary.accesses.map (·.param)).Nodup
  ranges : ∀ summary ∈ index.summaries, ∀ access ∈ summary.accesses,
    access.range.OfWidth recordWidth
  offsets : ∀ summary ∈ index.summaries, ∀ access ∈ summary.accesses, ∀ call ∈ access.calls,
    call.offset.OfWidth recordWidth
  moved : ∀ summary ∈ index.summaries, ∀ access ∈ summary.accesses, ∀ call ∈ access.calls,
    ¬ call.offset.IsNone

/-- The records of each function denote sets of the width of the function, and no parameter has two
records in one function.
-/
structure Sized (index : SummaryIndex) (width : Callee → UInt32) : Prop where
  params : ∀ summary ∈ index.summaries, (summary.accesses.map (·.param)).Nodup
  ranges : ∀ (id : SummaryId) summary, index.summaries[id.index]? = some summary
    → ∀ access ∈ summary.accesses, access.range.OfWidth (width (.summary id))
  offsets : ∀ (id : SummaryId) summary, index.summaries[id.index]? = some summary
    → ∀ access ∈ summary.accesses, ∀ call ∈ access.calls,
      call.offset.OfWidth (width (.summary id))

theorem Recorded.sized {index : SummaryIndex} (recorded : index.Recorded)
    : index.Sized fun _ => recordWidth :=
  ⟨recorded.params, fun _ summary found => recorded.ranges summary (List.mem_of_getElem? found),
    fun _ summary found => recorded.offsets summary (List.mem_of_getElem? found)⟩

/-- How a record is handed to the solver: a call that is not bound makes everything accessible,
and the bound ones are kept as long as that does not happen.
-/
structure Translates (index : SummaryIndex) (bits : UInt32) (unit : String) (access : ParamAccess)
    (usage : Usage Callee)
    : Prop where
  wellFormed : usage.WellFormed bits
  range : access.range ⊆ usage.range
  unbound : ∀ call ∈ access.calls, index.boundFunction call.callee unit = .ok none
    → usage.range.IsAll
  bound : ∀ call ∈ access.calls, ∀ target,
    index.boundFunction call.callee unit = .ok (some target)
    → usage.range.IsAll ∨ ⟨.summary target, call.param, call.offset⟩ ∈ usage.calls

/-- The functions hold the records of the callable functions, and nothing else. -/
structure Represents (index : SummaryIndex) (width : Callee → UInt32) (functions : Functions)
    : Prop where
  sized : functions.Sized width
  keys : ∀ callee ∈ functions.keys, ∃ id summary, callee = .summary id ∧ index.Callable id summary
  recorded : ∀ id summary access, index.Callable id summary → access ∈ summary.accesses
    → ∃ usage, functions.param? (.summary id) access.param = some usage
      ∧ index.Translates (width (.summary id)) summary.unit access usage
  missing : ∀ id summary param, index.summaries[id.index]? = some summary
    → (∀ access ∈ summary.accesses, access.param ≠ param)
    → functions.param? (.summary id) param = none

theorem Represents.wellFormed {index : SummaryIndex} {bits : UInt32} {functions : Functions}
    (represents : index.Represents (fun _ => bits) functions)
    : functions.WellFormed bits :=
  represents.sized

theorem valid_recordWidth : Word.Valid recordWidth := by decide

variable {index : SummaryIndex}

-----------------------------------------------------------------------------------------
-- From records to usages
-----------------------------------------------------------------------------------------

theorem forward_of_bound {unit : String} {call : AccessCall} {target : Option SummaryId}
    (bound : index.boundFunction call.callee unit = .ok target)
    : index.forward unit call
      = Forward.make (target.elim .unresolved .summary) call.param call.offset := by
  rw [forward, bound, ok_bind]
  cases target <;> rfl

theorem forward_eq_ok_iff {unit : String} {call : AccessCall} {answer : Forward Callee}
    : index.forward unit call = .ok answer
      ↔ ¬ call.offset.IsNone ∧ ∃ target, index.boundFunction call.callee unit = .ok target
        ∧ answer = ⟨target.elim .unresolved .summary, call.param, call.offset⟩ := by
  rw [← Range.isEmpty_iff]
  constructor
  · intro result
    obtain ⟨target, bound, _⟩ := exists_of_bind_eq_ok result
    rw [forward_of_bound bound, Forward.make] at result
    split at result
    · cases result
    · rename_i some
      cases result
      exact ⟨some, target, bound, rfl⟩
  · rintro ⟨some, target, bound, rfl⟩
    rw [forward_of_bound bound, Forward.make, if_neg some, pure_eq_ok]

/-- What the solver is handed for a record: nothing is known when a call is not bound, and else
the range stays and every call is handed on.
-/
theorem usageOf_cases {access : ParamAccess} {unit : String} {usage : Usage Callee}
    (result : index.usageOf unit access = .ok usage)
    : (Range.full access.range.bits = .ok usage.range ∧ usage.calls = []
        ∧ ∃ call ∈ access.calls, index.boundFunction call.callee unit = .ok none)
      ∨ (usage.range = access.range
        ∧ List.Forall₂ (fun call kept => ¬ call.offset.IsNone ∧ ∃ target,
            index.boundFunction call.callee unit = .ok (some target)
            ∧ kept = ⟨.summary target, call.param, call.offset⟩) access.calls usage.calls) := by
  obtain ⟨calls, mapped, collapsed⟩ := exists_of_bind_eq_ok result
  have related := (mapM_eq_ok_iff.mp mapped).imp fun _ _ step => forward_eq_ok_iff.mp step
  rw [Usage.collapse] at collapsed
  split at collapsed
  · rename_i unresolved
    obtain ⟨forgotten, forgetting, collapsed⟩ := exists_of_bind_eq_ok collapsed
    obtain ⟨full, filled, same⟩ := exists_of_bind_eq_ok forgetting
    cases same
    cases collapsed
    obtain ⟨kept, member, lost⟩ := List.any_eq_true.mp unresolved
    obtain ⟨call, inside, _, target, bound, rfl⟩ := exists_input related member
    cases target with
    | none => exact Or.inl ⟨filled, rfl, call, inside, bound⟩
    | some target => cases lost
  · rename_i known
    cases collapsed
    have resolved : ∀ kept ∈ calls, kept.callee ≠ .unresolved := by
      intro kept member lost
      exact known (List.any_eq_true.mpr ⟨kept, member, beq_iff_eq.mpr lost⟩)
    have both := ((List.forall₂_and_left _ _).mpr ⟨resolved, related.flip⟩).flip
    refine Or.inr ⟨rfl, both.imp ?_⟩
    rintro call _ ⟨resolved, some, target, bound, rfl⟩
    cases target with
    | none => exact absurd rfl resolved
    | some target => exact ⟨some, target, bound, rfl⟩

theorem usageOf_translates {access : ParamAccess} {unit : String} {usage : Usage Callee}
    {bits : UInt32} (range : access.range.OfWidth bits)
    (offsets : ∀ call ∈ access.calls, call.offset.OfWidth bits)
    (result : index.usageOf unit access = .ok usage)
    : index.Translates bits unit access usage := by
  rcases usageOf_cases result with ⟨filled, none, _⟩ | ⟨same, related⟩
  · -- The record collapses: everything may be accessed, and no call is left.
    have valid : Word.Valid bits := range.bits_eq ▸ range.wellFormed.valid
    have all := Range.isAll_top valid
    rw [range.bits_eq, Range.full_eq valid, Except.ok.injEq] at filled
    refine ⟨⟨filled ▸ Range.ofWidth_top valid, by simp [none], by simp [none]⟩, ?_,
      fun _ _ _ => filled ▸ all, fun _ _ _ _ => Or.inl (filled ▸ all)⟩
    exact Range.subset_of_isAll (filled ▸ all) (filled ▸ range.bits_eq)
  · refine ⟨⟨same ▸ range, fun kept member => ?_, fun kept member => ?_⟩,
      same ▸ Range.subset_refl _, fun call member unbound => ?_, fun call member target bound => ?_⟩
    · obtain ⟨call, inside, _, _, _, rfl⟩ := exists_input related member
      exact offsets call inside
    · obtain ⟨call, inside, some, _, _, rfl⟩ := exists_input related member
      exact some
    · obtain ⟨_, _, _, _, bound, _⟩ := exists_answer related member
      cases unbound.symm.trans bound
    · obtain ⟨_, kept, _, _, bound', rfl⟩ := exists_answer related member
      cases bound.symm.trans bound'
      exact Or.inr kept

/-- The range that the solver is handed for a straight record is straight. -/
theorem usageOf_straight {access : ParamAccess} {unit : String} {usage : Usage Callee}
    (wf : access.range.WellFormed) (straight : access.range.Straight)
    (result : index.usageOf unit access = .ok usage)
    : usage.range.Straight := by
  rcases usageOf_cases result with ⟨filled, _⟩ | ⟨same, _⟩
  · rw [Range.full_eq wf.valid, Except.ok.injEq] at filled
    exact filled ▸ Range.straight_top wf.valid
  · exact same ▸ straight

theorem usageOf_ok (aliases : index.AliasesExist) {access : ParamAccess}
    (range : access.range.WellFormed)
    (moved : ∀ call ∈ access.calls, ¬ call.offset.IsNone) (unit : String)
    : ∃ usage, index.usageOf unit access = .ok usage := by
  obtain ⟨calls, mapped⟩ : ∃ calls, access.calls.mapM (index.forward unit) = .ok calls := by
    refine exists_mapM_eq_ok fun call member => ?_
    obtain ⟨target, bound⟩ := boundFunction_ok aliases call.callee unit
    exact ⟨_, forward_eq_ok_iff.mpr ⟨moved call member, target, bound, rfl⟩⟩
  rw [usageOf, mapped, ok_bind, Usage.collapse, Usage.forget, Range.full_eq range.valid]
  split
  · exact ⟨_, rfl⟩
  · exact ⟨_, rfl⟩

/-- A function is handed over with a table of the usages of its records. -/
theorem exists_entries_of_functionUsage {summary : Summary} {info : FunctionUsage Callee}
    (unique : (summary.accesses.map (·.param)).Nodup)
    (result : index.functionUsage summary = .ok info)
    : ∃ entries, info = { FunctionUsage.empty with params := Table.ofList entries }
      ∧ (entries.map (·.1)).Nodup
      ∧ List.Forall₂ (fun access entry => entry.1 = access.param
        ∧ index.usageOf summary.unit access = .ok entry.2) summary.accesses entries := by
  obtain ⟨entries, mapped, same⟩ := exists_of_bind_eq_ok result
  cases same
  have related : List.Forall₂ (fun access entry => entry.1 = access.param
      ∧ index.usageOf summary.unit access = .ok entry.2) summary.accesses entries := by
    refine (mapM_eq_ok_iff.mp mapped).imp fun access entry step => ?_
    obtain ⟨usage, translated, same⟩ := exists_of_bind_eq_ok step
    cases same
    exact ⟨rfl, translated⟩
  have distinct : (entries.map (·.1)).Nodup := by
    rw [map_eq_map_of_forall₂ (fun _ _ step => step.1) related]
    exact unique
  exact ⟨entries, rfl, distinct, related⟩

/-- A function has as many parameters as records, and none has been widened. -/
theorem functionUsage_size {summary : Summary} {info : FunctionUsage Callee}
    (unique : (summary.accesses.map (·.param)).Nodup)
    (result : index.functionUsage summary = .ok info)
    : info.updates = 0 ∧ info.params.size = summary.accesses.length := by
  obtain ⟨entries, rfl, distinct, related⟩ := exists_entries_of_functionUsage unique result
  exact ⟨rfl, (Table.ofList_perm distinct).length_eq.trans related.length_eq.symm⟩

/-- The table of a function finds the usages of its records, and no others. -/
theorem functionUsage_lookup {summary : Summary} {info : FunctionUsage Callee}
    (unique : (summary.accesses.map (·.param)).Nodup)
    (result : index.functionUsage summary = .ok info)
    : (∀ access ∈ summary.accesses, ∃ usage, info.params.get? access.param = some usage
        ∧ index.usageOf summary.unit access = .ok usage)
      ∧ ∀ param usage, info.params.get? param = some usage
        → ∃ access ∈ summary.accesses, access.param = param
          ∧ index.usageOf summary.unit access = .ok usage := by
  obtain ⟨entries, rfl, distinct, related⟩ := exists_entries_of_functionUsage unique result
  constructor
  · intro access inside
    obtain ⟨⟨param, usage⟩, insideEntry, same, translated⟩ := exists_answer related inside
    cases same
    exact ⟨usage, (Table.get?_ofList distinct).mpr insideEntry, translated⟩
  · intro param usage found
    obtain ⟨access, inside, same, translated⟩ :=
      exists_input related ((Table.get?_ofList distinct).mp found)
    exact ⟨access, inside, same.symm, translated⟩

theorem functionUsage_ok (aliases : index.AliasesExist) {summary : Summary}
    (ranges : ∀ access ∈ summary.accesses, access.range.WellFormed)
    (moved : ∀ access ∈ summary.accesses, ∀ call ∈ access.calls, ¬ call.offset.IsNone)
    : ∃ info, index.functionUsage summary = .ok info := by
  obtain ⟨params, mapped⟩ : ∃ params, (summary.accesses.mapM fun access => do
      pure (access.param, ← index.usageOf summary.unit access)) = .ok params := by
    refine exists_mapM_eq_ok fun access inside => ?_
    obtain ⟨usage, result⟩ :=
      usageOf_ok aliases (ranges access inside) (moved access inside) summary.unit
    exact ⟨(access.param, usage), by rw [result, ok_bind, pure_eq_ok]⟩
  exact ⟨_, by rw [functionUsage, mapped, ok_bind, pure_eq_ok]⟩

theorem callable_of_isPropagated {id : SummaryId} {summary : Summary}
    (found : index.summaries[id.index]? = some summary)
    (propagated : isPropagated summary = true)
    : index.Callable id summary := by
  simp only [isPropagated, Bool.and_eq_true, Bool.not_eq_true'] at propagated
  obtain ⟨⟨live, dsoLocal⟩, records⟩ := propagated
  refine ⟨found, live, dsoLocal, ?_⟩
  cases kind : summary.kind with
  | function accesses => rfl
  | aliased aliasee => simp [Summary.accesses, kind] at records
  | object => simp [Summary.accesses, kind] at records

theorem isPropagated_of_callable {id : SummaryId} {summary : Summary} {access : ParamAccess}
    (callable : index.Callable id summary) (inside : access ∈ summary.accesses)
    : isPropagated summary = true := by
  have records : summary.accesses.isEmpty = false := by
    rw [List.isEmpty_eq_false_iff]
    exact List.ne_nil_of_mem inside
  simp [isPropagated, callable.live, callable.dsoLocal, records]

/-- The numbered summaries that the solver looks at. -/
theorem mem_propagated {summary : Summary} {number : Nat}
    : (summary, number) ∈ index.summaries.zipIdx.filter (fun (summary, _) => isPropagated summary)
      ↔ index.summaries[number]? = some summary ∧ isPropagated summary = true := by
  rw [List.mem_filter, List.mem_zipIdx_iff_getElem?]

section Functions

variable {functions : Functions} (result : index.functions = .ok functions)

include result

/-- The functions that the solver takes are the translated summaries, in order. -/
theorem functions_translate
    : List.Forall₂ (fun source entry => entry.1 = .summary ⟨source.2⟩
        ∧ index.functionUsage source.1 = .ok entry.2)
      (index.summaries.zipIdx.filter fun (summary, _) => isPropagated summary)
      functions.entries := by
  obtain ⟨entries, mapped, same⟩ := exists_of_bind_eq_ok result
  cases same
  have translated : List.Forall₂ (fun source entry => entry.1 = .summary ⟨source.2⟩
        ∧ index.functionUsage source.1 = .ok entry.2)
      (index.summaries.zipIdx.filter fun (summary, _) => isPropagated summary) entries := by
    refine (mapM_eq_ok_iff.mp mapped).imp fun source entry step => ?_
    obtain ⟨info, translated, same⟩ := exists_of_bind_eq_ok step
    cases same
    exact ⟨rfl, translated⟩
  -- The summaries are numbered in ascending order, and a table keeps the order of its keys.
  have ascending : (entries.map (·.1)).Pairwise
      fun first second => compare first second = .lt := by
    rw [map_eq_map_of_forall₂ (fun _ _ step => step.1) translated]
    refine List.pairwise_map.mpr (List.Pairwise.filter _ ?_)
    exact (pairwise_zipIdx _).imp fun before => Nat.compare_eq_lt.mpr before
  rw [Table.entries_ofList ascending]
  exact translated

theorem exists_summary_of_functions {callee : Callee} {info : FunctionUsage Callee}
    (inside : (callee, info) ∈ functions.entries)
    : ∃ id summary, callee = .summary id ∧ index.summaries[id.index]? = some summary
      ∧ isPropagated summary = true ∧ index.functionUsage summary = .ok info := by
  obtain ⟨⟨summary, number⟩, source, key, translated⟩ :=
    exists_input (functions_translate result) inside
  obtain ⟨found, propagated⟩ := mem_propagated.mp source
  exact ⟨⟨number⟩, summary, key, found, propagated, translated⟩

theorem exists_get?_functions {id : SummaryId} {summary : Summary}
    (found : index.summaries[id.index]? = some summary)
    (propagated : isPropagated summary = true)
    : ∃ info, functions.get? (.summary id) = some info
      ∧ index.functionUsage summary = .ok info := by
  obtain ⟨⟨_, info⟩, entry, key, translated⟩ := exists_answer (functions_translate result)
    (mem_propagated.mpr ⟨found, propagated⟩)
  cases key
  exact ⟨info, Table.get?_of_mem entry, translated⟩

section Lookup

variable (unique : ∀ summary ∈ index.summaries, (summary.accesses.map (·.param)).Nodup)

include unique

/-- What the solver takes for a parameter comes from its record. -/
theorem exists_record_of_param? {func : Callee} {param : UInt32} {usage : Usage Callee}
    (found : functions.param? func param = some usage)
    : ∃ id summary access, func = .summary id ∧ index.Callable id summary
      ∧ access ∈ summary.accesses ∧ access.param = param
      ∧ index.usageOf summary.unit access = .ok usage := by
  obtain ⟨info, foundInfo, foundUsage⟩ := Option.bind_eq_some_iff.mp found
  obtain ⟨id, summary, key, foundSummary, propagated, translated⟩ :=
    exists_summary_of_functions result (Table.mem_of_get? foundInfo)
  obtain ⟨_, lookup⟩ :=
    functionUsage_lookup (unique summary (List.mem_of_getElem? foundSummary)) translated
  obtain ⟨access, inside, same, taken⟩ := lookup param usage foundUsage
  exact ⟨id, summary, access, key, callable_of_isPropagated foundSummary propagated, inside, same,
    taken⟩

/-- Every record of a callable function is taken. -/
theorem exists_param?_of_record {id : SummaryId} {summary : Summary} {access : ParamAccess}
    (callable : index.Callable id summary) (inside : access ∈ summary.accesses)
    : ∃ usage, functions.param? (.summary id) access.param = some usage
      ∧ index.usageOf summary.unit access = .ok usage := by
  obtain ⟨info, foundInfo, translated⟩ :=
    exists_get?_functions result callable.found (isPropagated_of_callable callable inside)
  obtain ⟨lookup, _⟩ :=
    functionUsage_lookup (unique summary (List.mem_of_getElem? callable.found)) translated
  obtain ⟨usage, found, taken⟩ := lookup access inside
  exact ⟨usage, by rw [Functions.param?, foundInfo, Option.bind_some, found], taken⟩

end Lookup

/-- The functions that the solver takes represent the index. -/
theorem represents_of_sized {width : Callee → UInt32} (sized : index.Sized width)
    : index.Represents width functions := by
  have unique := sized.params
  have translates {id : SummaryId} {summary : Summary} {access : ParamAccess}
      {usage : Usage Callee} (callable : index.Callable id summary)
      (inside : access ∈ summary.accesses) (taken : index.usageOf summary.unit access = .ok usage)
      : index.Translates (width (.summary id)) summary.unit access usage :=
    usageOf_translates (sized.ranges id summary callable.found access inside)
      (sized.offsets id summary callable.found access inside) taken
  refine ⟨⟨?_⟩, ?_, ?_, ?_⟩
  · intro func param usage found
    obtain ⟨_, _, _, rfl, callable, inside, _, taken⟩ :=
      exists_record_of_param? result unique found
    exact (translates callable inside taken).wellFormed
  · intro callee member
    obtain ⟨⟨_, info⟩, inside, rfl⟩ := List.mem_map.mp member
    obtain ⟨id, summary, key, found, propagated, _⟩ := exists_summary_of_functions result inside
    exact ⟨id, summary, key, callable_of_isPropagated found propagated⟩
  · intro id summary access callable inside
    obtain ⟨usage, found, taken⟩ := exists_param?_of_record result unique callable inside
    exact ⟨usage, found, translates callable inside taken⟩
  · intro id summary param foundSummary absent
    cases found : functions.param? (.summary id) param with
    | none => rfl
    | some usage =>
        obtain ⟨_, _, access, key, callable, inside, same, _⟩ :=
          exists_record_of_param? result unique found
        cases key
        cases foundSummary.symm.trans callable.found
        exact absurd same (absent access inside)

theorem functions_represents (recorded : index.Recorded)
    : index.Represents (fun _ => recordWidth) functions :=
  represents_of_sized result recorded.sized

end Functions

theorem functions_ok (aliases : index.AliasesExist)
    (ranges : ∀ summary ∈ index.summaries, ∀ access ∈ summary.accesses, access.range.WellFormed)
    (moved : ∀ summary ∈ index.summaries, ∀ access ∈ summary.accesses, ∀ call ∈ access.calls,
      ¬ call.offset.IsNone)
    : ∃ functions, index.functions = .ok functions := by
  obtain ⟨entries, mapped⟩ : ∃ entries,
      ((index.summaries.zipIdx.filter fun (summary, _) => isPropagated summary).mapM
        fun (summary, id) => do
          pure (Callee.summary ⟨id⟩, ← index.functionUsage summary)) = .ok entries := by
    refine exists_mapM_eq_ok fun ⟨summary, number⟩ inside => ?_
    have member := List.mem_of_getElem? (mem_propagated.mp inside).1
    obtain ⟨info, result⟩ := functionUsage_ok aliases (ranges summary member) (moved summary member)
    exact ⟨(.summary ⟨number⟩, info), by simp only [result, ok_bind, pure_eq_ok]⟩
  exact ⟨.ofList entries, by rw [functions, mapped, ok_bind, pure_eq_ok]⟩

theorem Recorded.exists_functions (recorded : index.Recorded) (aliases : index.AliasesExist)
    : ∃ functions, index.functions = .ok functions :=
  functions_ok aliases
    (fun summary member access inside => (recorded.ranges summary member access inside).wellFormed)
    recorded.moved

-----------------------------------------------------------------------------------------
-- From usages to records
-----------------------------------------------------------------------------------------

theorem find?_solvedAccesses (info : FunctionUsage Callee) (param : UInt32)
    : (solvedAccesses info).find? (fun access => access.param == param)
      = (info.params.get? param).map fun usage => ⟨param, usage.range, []⟩ := by
  simp only [solvedAccesses, Table.get?]
  induction info.params.entries with
  | nil => rfl
  | cons entry rest ih =>
      by_cases same : entry.1 = param
      · simp [same]
      · simpa [same] using ih

/-- Storing one function. -/
def storeEntry (index : SummaryIndex) (entry : Callee × FunctionUsage Callee)
    : Except Fault SummaryIndex :=
  match entry.1 with
  | .summary id => index.setAccesses id (solvedAccesses entry.2)
  | _ => pure index

/-- Storing functions with different numbers sets their records, and no others. -/
theorem foldlM_storeEntry (entries : List (Callee × FunctionUsage Callee)) (index : SummaryIndex)
    (distinct : (entries.map (·.1)).Nodup)
    (functions : ∀ entry ∈ entries, ∃ id summary, entry.1 = .summary id
      ∧ index.summaries[id.index]? = some summary ∧ summary.kind.isFunction = true)
    : ∃ stored, entries.foldlM storeEntry index = .ok stored
        ∧ (∀ id, .summary id ∉ entries.map (·.1)
          → stored.summaries[id.index]? = index.summaries[id.index]?)
        ∧ ∀ id info summary, (.summary id, info) ∈ entries
          → index.summaries[id.index]? = some summary
          → stored.summaries[id.index]?
            = some { summary with kind := .function (solvedAccesses info) } := by
  induction entries generalizing index with
  | nil => exact ⟨index, rfl, fun _ _ => rfl, fun _ _ _ member => by cases member⟩
  | cons entry rest ih =>
      obtain ⟨callee, info⟩ := entry
      rw [List.map_cons, List.nodup_cons] at distinct
      obtain ⟨id, summary, same, found, isFunction⟩ := functions _ List.mem_cons_self
      cases same
      let updated : Summary := { summary with kind := .function (solvedAccesses info) }
      let next : SummaryIndex := ⟨index.summaries.set id.index updated⟩
      have here : next.summaries[id.index]? = some updated := by
        obtain ⟨bound, _⟩ := List.getElem?_eq_some_iff.mp found
        exact List.getElem?_set_self bound
      have elsewhere (other : SummaryId) (differ : other ≠ id)
          : next.summaries[other.index]? = index.summaries[other.index]? :=
        List.getElem?_set_ne fun equal =>
          differ (by cases other; cases id; exact congrArg _ equal.symm)
      have stored : storeEntry index (.summary id, info) = .ok next := by
        simp only [storeEntry, setAccesses, summary_eq_ok_iff.mpr found, ok_bind, isFunction,
          ↓reduceIte, pure_eq_ok, next, updated]
      have others (entry : Callee × FunctionUsage Callee) (member : entry ∈ rest)
          (number : SummaryId) (key : entry.1 = .summary number)
          : number ≠ id := by
        rintro rfl
        exact distinct.1 (List.mem_map.mpr ⟨entry, member, key⟩)
      obtain ⟨last, result, unchanged, changed⟩ := ih next distinct.2
        fun entry member => by
          obtain ⟨number, other, key, foundOther, function⟩ :=
            functions entry (List.mem_cons_of_mem _ member)
          exact ⟨number, other, key, (elsewhere number (others entry member number key)).trans
            foundOther, function⟩
      refine ⟨last, by rw [List.foldlM_cons, stored, ok_bind, result], ?_, ?_⟩
      · intro number absent
        rw [List.map_cons, List.mem_cons, not_or] at absent
        rw [unchanged number absent.2, elsewhere number fun equal => absent.1 (by rw [equal])]
      · intro number info' summary' member foundSummary
        rcases List.mem_cons.mp member with first | later
        · cases first
          cases found.symm.trans foundSummary
          rw [unchanged id distinct.1, here]
        · have differ := others _ later number rfl
          exact changed number info' summary' later ((elsewhere number differ).trans foundSummary)

/-- Setting records changes nothing but records. -/
theorem clearAccesses_setAccesses {id : SummaryId} {accesses : List ParamAccess}
    {next : SummaryIndex} (result : index.setAccesses id accesses = .ok next)
    : next.clearAccesses = index.clearAccesses := by
  obtain ⟨summary, found, result⟩ := exists_of_bind_eq_ok result
  split at result
  · rename_i function
    cases result
    have unchanged : cleared { summary with kind := .function accesses } = cleared summary :=
      (if_pos function).symm
    have mapped : (index.summaries.map cleared)[id.index]? = some (cleared summary) := by
      rw [List.getElem?_map, summary_eq_ok_iff.mp found, Option.map_some]
    obtain ⟨bound, same⟩ := List.getElem?_eq_some_iff.mp mapped
    rw [clearAccesses_eq, clearAccesses_eq, List.map_set, unchanged, ← same, List.set_getElem_self]
  · cases result
    rfl

theorem clearAccesses_store {functions : Functions} {stored : SummaryIndex}
    (result : index.store functions = .ok stored)
    : stored.clearAccesses = index.clearAccesses := by
  have keeps (entries : List (Callee × FunctionUsage Callee)) (start : SummaryIndex)
      (result : entries.foldlM storeEntry start = .ok stored)
      : stored.clearAccesses = start.clearAccesses := by
    induction entries generalizing start with
    | nil =>
        cases result
        rfl
    | cons entry rest ih =>
        obtain ⟨next, first, remaining⟩ := exists_of_bind_eq_ok result
        rw [ih next remaining]
        obtain ⟨callee, info⟩ := entry
        cases callee with
        | summary id => exact clearAccesses_setAccesses first
        | function id =>
            cases first
            rfl
        | unresolved =>
            cases first
            rfl
  rw [keeps functions.entries index.clearAccesses result, clearAccesses_eq, clearAccesses_eq,
    List.map_map]
  exact congrArg _ (List.map_congr_left fun summary _ => cleared_cleared summary)

/-- Stored functions become the records of their summaries, and no other summary has any. -/
theorem store_accesses {functions : Functions}
    (callable : ∀ callee ∈ functions.keys, ∃ id summary, callee = .summary id
      ∧ index.Callable id summary)
    : ∃ stored, index.store functions = .ok stored
        ∧ ∀ id, id.index < index.summaries.length
          → ∃ summary, stored.summaries[id.index]? = some summary
            ∧ summary.accesses
              = ((functions.get? (.summary id)).map solvedAccesses).getD [] := by
  have emptied {id : SummaryId} {summary : Summary}
      (found : index.summaries[id.index]? = some summary)
      : index.clearAccesses.summaries[id.index]? = some (cleared summary) := by
    rw [clearAccesses_eq, List.getElem?_map, found, Option.map_some]
  have ready : ∀ entry ∈ functions.entries, ∃ id summary, entry.1 = .summary id
      ∧ index.clearAccesses.summaries[id.index]? = some summary
      ∧ summary.kind.isFunction = true := by
    intro entry member
    obtain ⟨id, summary, key, callable⟩ :=
      callable entry.1 (List.mem_map.mpr ⟨entry, member, rfl⟩)
    obtain ⟨_, _, _, _, _, function, _⟩ := cleared_spec summary
    exact ⟨id, _, key, emptied callable.found, function.trans callable.function⟩
  obtain ⟨stored, result, unchanged, changed⟩ :=
    foldlM_storeEntry functions.entries index.clearAccesses functions.keys_nodup ready
  refine ⟨stored, result, fun id bound => ?_⟩
  cases foundInfo : functions.get? (.summary id) with
  | none =>
      have absent : .summary id ∉ functions.entries.map (·.1) := by
        intro member
        obtain ⟨⟨_, info⟩, inside, rfl⟩ := List.mem_map.mp member
        rw [Table.get?_of_mem inside] at foundInfo
        cases foundInfo
      obtain ⟨_, _, _, _, _, _, none⟩ := cleared_spec index.summaries[id.index]
      exact ⟨_, (unchanged id absent).trans (emptied (List.getElem?_eq_getElem bound)), none⟩
  | some info =>
      have member := Table.mem_of_get? foundInfo
      obtain ⟨_, summary, key, foundSummary, _⟩ := ready _ member
      cases key
      exact ⟨_, changed id info summary member foundSummary, rfl⟩

/-- Stored functions are found by their records, and no others. -/
theorem store_spec {functions : Functions}
    (callable : ∀ callee ∈ functions.keys, ∃ id summary, callee = .summary id
      ∧ index.Callable id summary)
    : ∃ stored, index.store functions = .ok stored
        ∧ ∀ id param, id.index < index.summaries.length
          → stored.access? id param
            = .ok ((functions.param? (.summary id) param).map fun usage =>
              ⟨param, usage.range, []⟩) := by
  obtain ⟨stored, result, records⟩ := store_accesses callable
  refine ⟨stored, result, fun id param bound => ?_⟩
  obtain ⟨summary, found, accesses⟩ := records id bound
  rw [access?, summary_eq_ok_iff.mpr found, ok_bind, pure_eq_ok, accesses, Functions.param?]
  cases functions.get? (.summary id) with
  | none => rfl
  | some info => rw [Option.map_some, Option.getD_some, find?_solvedAccesses, Option.bind_some]

end StackBounds.SummaryIndex
