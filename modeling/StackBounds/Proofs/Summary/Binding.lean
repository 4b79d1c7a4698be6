import StackBounds.Summary.Propagate

/-! Calls between summarised symbols. In an index whose aliases lead to summaries, every call has
an answer, and the function it is bound to is live and not preemptable. The records of an index
make no difference to what its calls are bound to.
-/

namespace StackBounds.SummaryIndex

variable {index : SummaryIndex}

/-- Every alias leads to a summary of the index. -/
def AliasesExist (index : SummaryIndex) : Prop :=
  ∀ summary ∈ index.summaries, ∀ aliasee, summary.kind = .aliased aliasee
    → aliasee.index < index.summaries.length

/-- The summary of a function that calls can be bound to. -/
structure Callable (index : SummaryIndex) (id : SummaryId) (summary : Summary) : Prop where
  found : index.summaries[id.index]? = some summary
  live : summary.live = true
  dsoLocal : summary.dsoLocal = true
  function : summary.kind.isFunction = true

theorem summary_eq_ok_iff {id : SummaryId} {summary : Summary}
    : index.summary id = .ok summary ↔ index.summaries[id.index]? = some summary := by
  unfold SummaryIndex.summary
  cases index.summaries[id.index]? with
  | none => simp
  | some other => simp

theorem exists_summary {id : SummaryId} (bound : id.index < index.summaries.length)
    : ∃ summary, index.summary id = .ok summary ∧ summary ∈ index.summaries :=
  ⟨index.summaries[id.index], summary_eq_ok_iff.mpr (List.getElem?_eq_getElem bound),
    List.getElem_mem bound⟩

theorem mem_summariesOf {guid : Guid} {id : SummaryId}
    : id ∈ index.summariesOf guid
      ↔ ∃ summary, index.summaries[id.index]? = some summary ∧ summary.guid = guid := by
  rw [summariesOf, List.mem_filterMap]
  constructor
  · rintro ⟨⟨summary, number⟩, inside, same⟩
    simp only at same
    split at same
    · rename_i equal
      cases same
      exact ⟨summary, List.mem_zipIdx_iff_getElem?.mp inside, equal⟩
    · cases same
  · rintro ⟨summary, found, equal⟩
    exact ⟨(summary, id.index), List.mem_zipIdx_iff_getElem?.mpr found, by simp [equal]⟩

theorem summariesOf_nodup (index : SummaryIndex) (guid : Guid)
    : (index.summariesOf guid).Nodup := by
  have numbers : (index.summaries.zipIdx.map (·.2)).Nodup := by
    rw [List.zipIdx_map_snd]
    exact List.nodup_range'
  refine List.pairwise_filterMap.mpr ((List.pairwise_map.mp numbers).imp ?_)
  intro first second differ id found other foundOther same
  simp only [Option.ite_none_right_eq_some, Option.some.injEq] at found foundOther
  rw [← found.2, ← foundOther.2] at same
  exact differ (SummaryId.mk.inj same)

section Following

variable (aliases : index.AliasesExist)

include aliases

theorem baseFrom_spec (fresh : List SummaryId) {id : SummaryId}
    (bound : id.index < index.summaries.length)
    : ∃ answer, index.baseFrom fresh id = .ok answer
        ∧ ∀ base, answer = some base → base.index < index.summaries.length := by
  induction size : fresh.length using Nat.strongRecOn generalizing fresh id with
  | ind _ ih =>
      obtain ⟨summary, found, member⟩ := exists_summary bound
      rw [baseFrom, found, ok_bind]
      cases kind : summary.kind with
      | aliased aliasee =>
          by_cases inside : id ∈ fresh
          · simp only [inside, ↓reduceDIte]
            exact ih _ (size ▸ length_erase_lt inside) (fresh.erase id)
              (aliases summary member aliasee kind) rfl
          · exact ⟨none, by simp [inside], fun base h => by cases h⟩
      | function accesses =>
          exact ⟨some id, rfl, fun base h => by cases h; exact bound⟩
      | object => exact ⟨some id, rfl, fun base h => by cases h; exact bound⟩

theorem namesFunction_ok {id : SummaryId} (bound : id.index < index.summaries.length)
    : ∃ answer, index.namesFunction id = .ok answer := by
  obtain ⟨base, found, inside⟩ := baseFrom_spec aliases index.ids bound
  rw [namesFunction, found, ok_bind]
  cases base with
  | none => exact ⟨false, rfl⟩
  | some base =>
      obtain ⟨summary, foundSummary, _⟩ := exists_summary (inside base rfl)
      exact ⟨summary.kind.isFunction, by simp only [foundSummary, ok_bind, pure_eq_ok]⟩

theorem resolveFrom_ok (fresh : List SummaryId) {id : SummaryId}
    (bound : id.index < index.summaries.length)
    : ∃ answer, index.resolveFrom fresh id = .ok answer := by
  induction size : fresh.length using Nat.strongRecOn generalizing fresh id with
  | ind _ ih =>
      obtain ⟨summary, found, member⟩ := exists_summary bound
      rw [resolveFrom, found, ok_bind]
      split
      · rename_i inside
        split
        · split
          · exact ⟨some id, rfl⟩
          · rename_i aliasee kind
            exact ih _ (size ▸ length_erase_lt inside) (fresh.erase id)
              (aliases summary member aliasee kind) rfl
          · exact ⟨none, rfl⟩
        · exact ⟨none, rfl⟩
      · exact ⟨none, rfl⟩

theorem chooseCallee_spec (unit : String) (candidates : List SummaryId)
    (bounds : ∀ id ∈ candidates, id.index < index.summaries.length) {chosen : Option SummaryId}
    (chosenBound : ∀ id, chosen = some id → id.index < index.summaries.length)
    : ∃ answer, index.chooseCallee unit chosen candidates = .ok answer
        ∧ ∀ id, answer = some id → id.index < index.summaries.length := by
  induction candidates generalizing chosen with
  | nil => exact ⟨chosen, rfl, chosenBound⟩
  | cons candidate rest ih =>
      have bound := bounds candidate List.mem_cons_self
      have later : ∀ id ∈ rest, id.index < index.summaries.length := fun id member =>
        bounds id (List.mem_cons_of_mem _ member)
      have pick : ∀ id, some candidate = some id → id.index < index.summaries.length := by
        intro id h
        cases h
        exact bound
      obtain ⟨summary, found, _⟩ := exists_summary bound
      obtain ⟨names, foundNames⟩ := namesFunction_ok aliases bound
      rw [chooseCallee, found, ok_bind]
      split
      · exact ih later chosenBound
      rw [foundNames, ok_bind]
      split
      · exact ih later chosenBound
      split
      · split
        · exact ⟨some candidate, rfl, pick⟩
        · exact ih later chosenBound
      split
      · exact ⟨none, rfl, fun id h => by cases h⟩
      · exact ih later pick

/-- Every call has an answer. -/
theorem boundFunction_ok (guid : Guid) (unit : String)
    : ∃ answer, index.boundFunction guid unit = .ok answer := by
  have bounds : ∀ id ∈ index.summariesOf guid, id.index < index.summaries.length := by
    intro id member
    obtain ⟨_, found, _⟩ := mem_summariesOf.mp member
    exact (List.getElem?_eq_some_iff.mp found).1
  have start : ∀ id, (none : Option SummaryId) = some id → id.index < index.summaries.length :=
    fun id h => by cases h
  obtain ⟨chosen, found, chosenBound⟩ :=
    chooseCallee_spec aliases unit (index.summariesOf guid) bounds start
  rw [boundFunction, findCallee, found, ok_bind]
  cases chosen with
  | none => exact ⟨none, rfl⟩
  | some id => exact resolveFrom_ok aliases index.ids (chosenBound id rfl)

end Following

/-- A chain of aliases that resolves ends at a callable function. -/
theorem callable_of_resolveFrom (fresh : List SummaryId) {id target : SummaryId}
    (resolved : index.resolveFrom fresh id = .ok (some target))
    : ∃ summary, index.Callable target summary := by
  induction size : fresh.length using Nat.strongRecOn generalizing fresh id with
  | ind _ ih =>
      rw [resolveFrom] at resolved
      obtain ⟨summary, found, resolved⟩ := exists_of_bind_eq_ok resolved
      split at resolved
      · rename_i inside
        split at resolved
        · rename_i usable
          rw [Bool.and_eq_true] at usable
          split at resolved
          · rename_i accesses kind
            cases resolved
            exact ⟨summary, summary_eq_ok_iff.mp found, usable.1, usable.2, by rw [kind]; rfl⟩
          · exact ih _ (size ▸ length_erase_lt inside) (fresh.erase id) resolved rfl
          · cases resolved
        · cases resolved
      · cases resolved

/-- A call is bound to callable functions only. -/
theorem callable_of_bound {guid : Guid} {unit : String} {target : SummaryId}
    (bound : index.boundFunction guid unit = .ok (some target))
    : ∃ summary, index.Callable target summary := by
  obtain ⟨chosen, _, resolved⟩ := exists_of_bind_eq_ok bound
  cases chosen with
  | none => cases resolved
  | some id => exact callable_of_resolveFrom index.ids resolved

-----------------------------------------------------------------------------------------
-- Candidates
-----------------------------------------------------------------------------------------

/-- What a call links against is one of the candidates. -/
theorem mem_of_chooseCallee {unit : String} {candidates : List SummaryId}
    {found : Option SummaryId} {chosen : SummaryId}
    (result : index.chooseCallee unit found candidates = .ok (some chosen))
    : found = some chosen ∨ chosen ∈ candidates := by
  induction candidates generalizing found with
  | nil =>
      cases result
      exact Or.inl rfl
  | cons candidate rest ih =>
      have later {before : Option SummaryId}
          (result : index.chooseCallee unit before rest = .ok (some chosen))
          : before = some chosen ∨ chosen ∈ candidate :: rest :=
        (ih result).imp_right (List.mem_cons_of_mem _)
      rw [chooseCallee] at result
      obtain ⟨summary, _, result⟩ := exists_of_bind_eq_ok result
      split at result
      · exact later result
      obtain ⟨names, _, result⟩ := exists_of_bind_eq_ok result
      split at result
      · exact later result
      split at result
      · split at result
        · cases result
          exact Or.inr List.mem_cons_self
        · exact later result
      split at result
      · cases result
      · rcases later result with same | member
        · cases same
          exact Or.inr List.mem_cons_self
        · exact Or.inr member

/-- A call is bound to what one of the summaries of its identifier resolves to. -/
theorem exists_candidate {guid : Guid} {unit : String} {target : SummaryId}
    (bound : index.boundFunction guid unit = .ok (some target))
    : ∃ id summary, index.summaries[id.index]? = some summary ∧ summary.guid = guid
      ∧ index.resolveFrom index.ids id = .ok (some target) := by
  obtain ⟨chosen, choosing, resolved⟩ := exists_of_bind_eq_ok bound
  cases chosen with
  | none => cases resolved
  | some id =>
      rcases mem_of_chooseCallee choosing with nothing | member
      · cases nothing
      · obtain ⟨summary, found, same⟩ := mem_summariesOf.mp member
        exact ⟨id, summary, found, same, resolved⟩

-----------------------------------------------------------------------------------------
-- The index without records
-----------------------------------------------------------------------------------------

/-- The summary without records. -/
def cleared (summary : Summary) : Summary :=
  if summary.kind.isFunction then { summary with kind := .function [] } else summary

theorem clearAccesses_eq (index : SummaryIndex)
    : index.clearAccesses = ⟨index.summaries.map cleared⟩ := rfl

theorem cleared_spec (summary : Summary)
    : (cleared summary).guid = summary.guid ∧ (cleared summary).unit = summary.unit
      ∧ (cleared summary).linkage = summary.linkage ∧ (cleared summary).live = summary.live
      ∧ (cleared summary).dsoLocal = summary.dsoLocal
      ∧ (cleared summary).kind.isFunction = summary.kind.isFunction
      ∧ (cleared summary).accesses = [] := by
  obtain ⟨guid, unit, linkage, live, dsoLocal, kind⟩ := summary
  cases kind <;> exact ⟨rfl, rfl, rfl, rfl, rfl, rfl, rfl⟩

theorem cleared_cleared (summary : Summary) : cleared (cleared summary) = cleared summary := by
  obtain ⟨guid, unit, linkage, live, dsoLocal, kind⟩ := summary
  cases kind <;> rfl

theorem summary_clearAccesses (index : SummaryIndex) (id : SummaryId)
    : index.clearAccesses.summary id = cleared <$> index.summary id := by
  rw [summary, summary, clearAccesses_eq, List.getElem?_map]
  cases index.summaries[id.index]? <;> rfl

theorem ids_clearAccesses (index : SummaryIndex) : index.clearAccesses.ids = index.ids := by
  rw [ids, ids, clearAccesses_eq, List.length_map]

theorem baseFrom_clearAccesses (index : SummaryIndex) (fresh : List SummaryId) (id : SummaryId)
    : index.clearAccesses.baseFrom fresh id = index.baseFrom fresh id := by
  induction size : fresh.length using Nat.strongRecOn generalizing fresh id with
  | ind _ ih =>
      rw [baseFrom, baseFrom, summary_clearAccesses]
      cases index.summary id with
      | error fault => rfl
      | ok summary =>
          obtain ⟨guid, unit, linkage, live, dsoLocal, kind⟩ := summary
          cases kind with
          | aliased aliasee =>
              by_cases inside : id ∈ fresh
              · have again := ih _ (size ▸ length_erase_lt inside) (fresh.erase id) aliasee rfl
                simpa [cleared, SummaryKind.isFunction, inside] using again
              · simp [cleared, SummaryKind.isFunction, inside]
          | function accesses => rfl
          | object => rfl

theorem resolveFrom_clearAccesses (index : SummaryIndex) (fresh : List SummaryId)
    (id : SummaryId)
    : index.clearAccesses.resolveFrom fresh id = index.resolveFrom fresh id := by
  induction size : fresh.length using Nat.strongRecOn generalizing fresh id with
  | ind _ ih =>
      rw [resolveFrom, resolveFrom, summary_clearAccesses]
      cases index.summary id with
      | error fault => rfl
      | ok summary =>
          obtain ⟨guid, unit, linkage, live, dsoLocal, kind⟩ := summary
          by_cases inside : id ∈ fresh
          · cases kind with
            | aliased aliasee =>
                have again := ih _ (size ▸ length_erase_lt inside) (fresh.erase id) aliasee rfl
                simp [cleared, SummaryKind.isFunction, inside, again]
            | function accesses => simp [cleared, SummaryKind.isFunction, inside]
            | object => simp [cleared, SummaryKind.isFunction, inside]
          · cases kind <;> simp [cleared, SummaryKind.isFunction, inside]

theorem namesFunction_clearAccesses (index : SummaryIndex) (id : SummaryId)
    : index.clearAccesses.namesFunction id = index.namesFunction id := by
  rw [namesFunction, namesFunction, ids_clearAccesses, baseFrom_clearAccesses]
  cases index.baseFrom index.ids id with
  | error fault => rfl
  | ok base =>
      cases base with
      | none => rfl
      | some base =>
          simp only [ok_bind, summary_clearAccesses]
          cases index.summary base with
          | error fault => rfl
          | ok summary => simp only [map_ok, ok_bind, (cleared_spec summary).2.2.2.2.2.1]

theorem summariesOf_clearAccesses (index : SummaryIndex) (guid : Guid)
    : index.clearAccesses.summariesOf guid = index.summariesOf guid := by
  rw [summariesOf, summariesOf, clearAccesses_eq, List.zipIdx_map, List.filterMap_map]
  refine congrArg (fun step => List.filterMap step _) (funext fun entry => ?_)
  simp only [Function.comp_apply, Prod.map_fst, Prod.map_snd, id_eq,
    (cleared_spec entry.1).1]

theorem chooseCallee_clearAccesses (index : SummaryIndex) (unit : String)
    (found : Option SummaryId) (candidates : List SummaryId)
    : index.clearAccesses.chooseCallee unit found candidates
      = index.chooseCallee unit found candidates := by
  induction candidates generalizing found with
  | nil => rfl
  | cons candidate rest ih =>
      rw [chooseCallee, chooseCallee, summary_clearAccesses, namesFunction_clearAccesses]
      cases index.summary candidate with
      | error fault => rfl
      | ok summary =>
          obtain ⟨_, owner, linkage, live, _⟩ := cleared_spec summary
          simp only [map_ok, ok_bind, owner, linkage, live, ih]

/-- Calls are bound alike in the index without records. -/
theorem boundFunction_clearAccesses (index : SummaryIndex) (guid : Guid) (unit : String)
    : index.clearAccesses.boundFunction guid unit = index.boundFunction guid unit := by
  rw [boundFunction, boundFunction, findCallee, findCallee, summariesOf_clearAccesses,
    chooseCallee_clearAccesses]
  refine congrArg _ (funext fun chosen => ?_)
  cases chosen with
  | none => rfl
  | some id => simp only [resolve, ids_clearAccesses, resolveFrom_clearAccesses]

end StackBounds.SummaryIndex
