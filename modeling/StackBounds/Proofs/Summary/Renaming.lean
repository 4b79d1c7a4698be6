import Mathlib.Logic.Equiv.Defs
import StackBounds.Proofs.Solver.Unforced
import StackBounds.Proofs.Summary.Following
import StackBounds.Proofs.Summary.Linking
import StackBounds.Proofs.Summary.Rounds

/-! Renumbered summaries. Two indices that hold the same summaries under other numbers bind calls
alike, and propagations over them that force nothing record the same accesses.
-/

namespace StackBounds

/-- A kind whose aliasee has got another number. -/
def SummaryKind.renamed (rename : SummaryId → SummaryId) : SummaryKind → SummaryKind
  | .aliased aliasee => .aliased (rename aliasee)
  | kind => kind

/-- A summary whose aliasee has got another number. -/
def Summary.renamed (rename : SummaryId → SummaryId) (summary : Summary) : Summary :=
  { summary with kind := summary.kind.renamed rename }

/-- A callee under its other number. -/
def Callee.renamed (rename : SummaryId → SummaryId) : Callee → Callee
  | .summary id => .summary (rename id)
  | callee => callee

/-- The parameters of a function with other names for the callees. -/
def FunctionUsage.renamed (rename : Callee → Callee) (info : FunctionUsage Callee)
    : FunctionUsage Callee :=
  { info with params := info.params.mapWithKey fun _ usage => usage.renamed rename }

variable {rename : SummaryId ≃ SummaryId}

theorem Summary.kind_renamed (summary : Summary)
    : (summary.renamed rename).kind = summary.kind.renamed rename :=
  rfl

theorem Summary.accesses_renamed (summary : Summary)
    : (summary.renamed rename).accesses = summary.accesses := by
  obtain ⟨guid, unit, linkage, live, dsoLocal, kind⟩ := summary
  cases kind <;> rfl

theorem Summary.renamed_symm (summary : Summary)
    : (summary.renamed rename).renamed rename.symm = summary := by
  obtain ⟨guid, unit, linkage, live, dsoLocal, kind⟩ := summary
  cases kind with
  | aliased aliasee =>
      simp only [Summary.renamed, SummaryKind.renamed, Equiv.symm_apply_apply]
  | function accesses => rfl
  | object => rfl

theorem Callee.renamed_symm (callee : Callee)
    : (callee.renamed rename).renamed rename.symm = callee := by
  cases callee with
  | summary id => simp only [Callee.renamed, Equiv.symm_apply_apply]
  | function id => rfl
  | unresolved => rfl

/-- Other numbers make no callee known or unknown. -/
theorem Usage.collapse_renamed {usage answer : Usage Callee}
    (collapsed : usage.collapse = .ok answer)
    : (usage.renamed (Callee.renamed rename)).collapse
      = .ok (answer.renamed (Callee.renamed rename)) := by
  have same : (usage.renamed (Callee.renamed rename)).hasUnresolved = usage.hasUnresolved := by
    simp only [Usage.hasUnresolved, Usage.renamed, List.any_map]
    refine congrArg (fun test => usage.calls.any test) (funext fun call => ?_)
    cases known : call.callee <;> simp [Callee.renamed, known]
  rw [Usage.collapse] at collapsed ⊢
  rw [same]
  split at collapsed
  · rename_i unresolved
    obtain ⟨forgotten, forgetting, done⟩ := exists_of_bind_eq_ok collapsed
    obtain ⟨full, filled, made⟩ := exists_of_bind_eq_ok forgetting
    cases made
    cases done
    simp only [unresolved, ↓reduceIte, Usage.forget, Usage.renamed, filled, ok_bind, pure_eq_ok,
      List.map_nil]
  · rename_i resolved
    cases collapsed
    rw [if_neg resolved, pure_eq_ok]

namespace SummaryIndex

/-- An index holds the summaries of another one, under other numbers. -/
def Renames (index : SummaryIndex) (rename : SummaryId ≃ SummaryId) (other : SummaryIndex) : Prop :=
  ∀ id, other.summaries[(rename id).index]?
    = (index.summaries[id.index]?).map (·.renamed rename)

/-- The indices answer every query for a callee alike, up to the numbers. -/
def BindsAlike (index : SummaryIndex) (rename : SummaryId ≃ SummaryId) (other : SummaryIndex)
    : Prop :=
  ∀ guid unit,
    (∃ callee, index.findCallee guid unit = .ok callee
      ∧ other.findCallee guid unit = .ok (callee.map rename))
    ∧ ∃ target, index.boundFunction guid unit = .ok target
      ∧ other.boundFunction guid unit = .ok (target.map rename)

/-- Summaries are of reachable code, aliases lead to earlier ones, and a local definition shares its
identifier with no other.
-/
structure Linkable (index : SummaryIndex) : Prop where
  descends : index.Descends 0
  live : ∀ summary ∈ index.summaries, summary.live = true
  code : ∀ summary ∈ index.summaries, summary.kind ≠ .object
  shared : ∀ (id second : SummaryId) summary other, index.summaries[id.index]? = some summary
    → index.summaries[second.index]? = some other → summary.guid = other.guid → id ≠ second
    → summary.linkage.isLocal = false

variable {index other : SummaryIndex} {guid : Guid} {unit : String} {id : SummaryId}
  {summary : Summary}

theorem Renames.found (renames : index.Renames rename other)
    (present : index.summaries[id.index]? = some summary)
    : other.summaries[(rename id).index]? = some (summary.renamed rename) := by
  rw [renames, present, Option.map_some]

theorem Renames.symm (renames : index.Renames rename other) : other.Renames rename.symm index := by
  intro id
  have forth := renames (rename.symm id)
  rw [Equiv.apply_symm_apply] at forth
  rw [forth, Option.map_map]
  cases index.summaries[(rename.symm id).index]? with
  | none => rfl
  | some summary => rw [Option.map_some, Function.comp_apply, Summary.renamed_symm]

theorem BindsAlike.symm (alike : index.BindsAlike rename other)
    : other.BindsAlike rename.symm index := by
  have back (id : Option SummaryId) : (id.map rename).map rename.symm = id := by
    rw [Option.map_map, Equiv.symm_comp_self, Option.map_id_fun, id_eq]
  intro guid unit
  obtain ⟨⟨callee, chosen, chosenOther⟩, target, bound, boundOther⟩ := alike guid unit
  exact ⟨⟨_, chosenOther, by rw [back, chosen]⟩, _, boundOther, by rw [back, bound]⟩

theorem findCallee_eq {used : SummaryIndex} (same : used.clearAccesses = index.clearAccesses)
    (guid : Guid) (unit : String)
    : used.findCallee guid unit = index.findCallee guid unit := by
  rw [findCallee, findCallee, ← summariesOf_clearAccesses, ← chooseCallee_clearAccesses, same,
    summariesOf_clearAccesses, chooseCallee_clearAccesses]

/-- Records make no difference to queries. -/
theorem BindsAlike.of_clearAccesses {used otherUsed : SummaryIndex}
    (alike : index.BindsAlike rename other) (same : used.clearAccesses = index.clearAccesses)
    (sameOther : otherUsed.clearAccesses = other.clearAccesses)
    : used.BindsAlike rename otherUsed := by
  intro guid unit
  rw [findCallee_eq same, findCallee_eq sameOther, boundFunction_eq same,
    boundFunction_eq sameOther]
  exact alike guid unit

-----------------------------------------------------------------------------------------
-- Queries
-----------------------------------------------------------------------------------------

theorem summariesOf_renamed (renames : index.Renames rename other) (guid : Guid)
    : (other.summariesOf guid).Perm ((index.summariesOf guid).map rename) := by
  refine (List.perm_ext_iff_of_nodup (summariesOf_nodup other guid)
    ((summariesOf_nodup index guid).map rename.injective)).mpr fun id => ?_
  rw [List.mem_map, mem_summariesOf]
  constructor
  · intro found
    obtain ⟨summary, present, same⟩ := found
    refine ⟨rename.symm id, mem_summariesOf.mpr ?_, Equiv.apply_symm_apply rename id⟩
    exact ⟨_, renames.symm.found present, same⟩
  · intro found
    obtain ⟨before, member, rfl⟩ := found
    obtain ⟨summary, present, same⟩ := mem_summariesOf.mp member
    exact ⟨_, renames.found present, same⟩

section Linkable

variable (linkable : index.Linkable)

include linkable

/-- How one candidate decides among those of an identifier. -/
theorem chooseCallee_cons (present : index.summaries[id.index]? = some summary)
    (chosen : Option SummaryId) (rest : List SummaryId)
    : index.chooseCallee unit chosen (id :: rest)
      = if summary.linkage.isLocal then
          if summary.unit = unit then pure (some id) else index.chooseCallee unit chosen rest
        else if chosen.isSome then pure none
        else index.chooseCallee unit (some id) rest := by
  have live := linkable.live summary (List.mem_of_getElem? present)
  have names := namesFunction_eq linkable.descends linkable.code (Nat.zero_le _)
    (List.getElem?_eq_some_iff.mp present).1
  simp only [chooseCallee, summary_eq_ok_iff.mpr present, ok_bind, live, names, Bool.not_true,
    Bool.false_eq_true, ↓reduceIte]

/-- A single definition is chosen, unless it is local to another module. -/
theorem findCallee_of_single (candidates : index.summariesOf guid = [id])
    (present : index.summaries[id.index]? = some summary)
    : index.findCallee guid unit
      = .ok (if summary.linkage.isLocal ∧ summary.unit ≠ unit then none else some id) := by
  rw [findCallee, candidates, chooseCallee_cons linkable present, chooseCallee, chooseCallee]
  by_cases hidden : summary.linkage.isLocal <;> by_cases own : summary.unit = unit <;>
    simp [hidden, own]

/-- Several definitions of an identifier compete. -/
theorem findCallee_of_several {first second : SummaryId} {rest : List SummaryId}
    (candidates : index.summariesOf guid = first :: second :: rest)
    : index.findCallee guid unit = .ok none := by
  have listed (id : SummaryId) (member : id ∈ first :: second :: rest)
      : ∃ summary, index.summaries[id.index]? = some summary ∧ summary.guid = guid :=
    mem_summariesOf.mp (candidates ▸ member)
  obtain ⟨summary, present, named⟩ := listed first (by simp)
  obtain ⟨other, presentOther, namedOther⟩ := listed second (by simp)
  have differ : first ≠ second := by
    have distinct := summariesOf_nodup index guid
    rw [candidates, List.nodup_cons] at distinct
    exact fun same => distinct.1 (same ▸ List.mem_cons_self)
  have shared := linkable.shared first second summary other present presentOther
    (named.trans namedOther.symm) differ
  have sharedOther := linkable.shared second first other summary presentOther present
    (namedOther.trans named.symm) differ.symm
  simp [findCallee, candidates, chooseCallee_cons linkable present, shared,
    chooseCallee_cons linkable presentOther, sharedOther]

variable (linkableOther : other.Linkable) (renames : index.Renames rename other)

include linkableOther renames

/-- Only a single definition of an identifier can be chosen, so their order makes no difference. -/
theorem findCallee_renamed (guid : Guid) (unit : String)
    : ∃ callee, index.findCallee guid unit = .ok callee
      ∧ other.findCallee guid unit = .ok (callee.map rename)
      ∧ ∀ id, callee = some id → ∃ summary, index.summaries[id.index]? = some summary := by
  have perm := summariesOf_renamed renames guid
  rcases candidates : index.summariesOf guid with _ | ⟨first, _ | ⟨second, rest⟩⟩
  · rw [candidates, List.map_nil, List.perm_nil] at perm
    exact ⟨none, by rw [findCallee, candidates]; rfl, by rw [findCallee, perm]; rfl, by simp⟩
  · rw [candidates, List.map_singleton, List.perm_singleton] at perm
    have member : first ∈ index.summariesOf guid := candidates ▸ List.mem_cons_self
    obtain ⟨summary, present, _⟩ := mem_summariesOf.mp member
    refine ⟨_, findCallee_of_single linkable candidates present, ?_, ?_⟩
    · rw [findCallee_of_single linkableOther perm (renames.found present), apply_ite (Option.map _)]
      rfl
    · intro id chosen
      split at chosen
      · cases chosen
      · cases chosen
        exact ⟨summary, present⟩
  · rw [candidates] at perm
    refine ⟨none, findCallee_of_several linkable candidates, ?_, by simp⟩
    rcases others : other.summariesOf guid with _ | ⟨head, _ | ⟨next, tail⟩⟩
    · simp [others] at perm
    · simp [others] at perm
    · exact findCallee_of_several linkableOther others

/-- Chains of aliases are followed alike; by induction on the number. -/
theorem resolve_renamed (present : index.summaries[id.index]? = some summary)
    : ∃ target, index.resolve id = .ok target
      ∧ other.resolve (rename id) = .ok (target.map rename) := by
  induction number : id.index using Nat.strongRecOn generalizing id summary with
  | ind _ ih =>
      rw [resolve_eq linkable.descends (Nat.zero_le _) present,
        resolve_eq linkableOther.descends (Nat.zero_le _) (renames.found present)]
      by_cases usable : (summary.live && summary.dsoLocal) = true
      · have usableOther
            : ((summary.renamed rename).live && (summary.renamed rename).dsoLocal) = true := usable
        rw [if_pos usable, if_pos usableOther, Summary.kind_renamed]
        cases kind : summary.kind with
        | function accesses => exact ⟨some id, rfl, rfl⟩
        | object => exact ⟨none, rfl, rfl⟩
        | aliased aliasee =>
            have below := (linkable.descends id summary aliasee (Nat.zero_le _) present kind).2
            have bound := Nat.lt_trans below (List.getElem?_eq_some_iff.mp present).1
            exact ih aliasee.index (number ▸ below) (List.getElem?_eq_getElem bound) rfl
      · exact ⟨none, if_neg usable, if_neg usable⟩

theorem bindsAlike_of_renames : index.BindsAlike rename other := by
  intro guid unit
  obtain ⟨callee, chosen, chosenOther, inside⟩ :=
    findCallee_renamed linkable linkableOther renames guid unit
  refine ⟨⟨callee, chosen, chosenOther⟩, ?_⟩
  rw [boundFunction, boundFunction, chosen, chosenOther, ok_bind, ok_bind]
  cases callee with
  | none => exact ⟨none, rfl, rfl⟩
  | some id =>
      obtain ⟨summary, present⟩ := inside id rfl
      exact resolve_renamed linkable linkableOther renames present

end Linkable

-----------------------------------------------------------------------------------------
-- What the solver is handed
-----------------------------------------------------------------------------------------

section Translation

variable (alike : index.BindsAlike rename other)

include alike

theorem forward_renamed {call : AccessCall} {answer : Forward Callee}
    (result : index.forward unit call = .ok answer)
    : other.forward unit call = .ok { answer with callee := answer.callee.renamed rename } := by
  obtain ⟨moved, target, bound, rfl⟩ := forward_eq_ok_iff.mp result
  obtain ⟨_, _, boundAgain, boundOther⟩ := alike call.callee unit
  cases bound.symm.trans boundAgain
  refine forward_eq_ok_iff.mpr ⟨moved, _, boundOther, ?_⟩
  cases target <;> rfl

theorem usageOf_renamed {access : ParamAccess} {usage : Usage Callee}
    (result : index.usageOf unit access = .ok usage)
    : other.usageOf unit access = .ok (usage.renamed (Callee.renamed rename)) := by
  obtain ⟨calls, mapped, collapsed⟩ := exists_of_bind_eq_ok result
  have mappedOther : access.calls.mapM (other.forward unit)
      = .ok (calls.map fun call => { call with callee := call.callee.renamed rename }) := by
    rw [mapM_eq_ok_iff, List.forall₂_map_right_iff]
    exact (mapM_eq_ok_iff.mp mapped).imp fun _ _ => forward_renamed alike
  rw [usageOf, mappedOther, ok_bind]
  exact Usage.collapse_renamed collapsed

theorem functionUsage_renamed {info : FunctionUsage Callee}
    (result : index.functionUsage summary = .ok info)
    : other.functionUsage (summary.renamed rename)
      = .ok (info.renamed (Callee.renamed rename)) := by
  obtain ⟨entries, mapped, made⟩ := exists_of_bind_eq_ok result
  cases made
  have mappedOther : (summary.accesses.mapM fun access => do
        pure (access.param, ← other.usageOf summary.unit access))
      = .ok (entries.map fun entry => (entry.1, entry.2.renamed (Callee.renamed rename))) := by
    rw [mapM_eq_ok_iff, List.forall₂_map_right_iff]
    refine (mapM_eq_ok_iff.mp mapped).imp fun access entry step => ?_
    obtain ⟨usage, translated, same⟩ := exists_of_bind_eq_ok step
    cases same
    rw [usageOf_renamed alike translated, ok_bind, pure_eq_ok]
  rw [functionUsage, Summary.accesses_renamed]
  change (summary.accesses.mapM fun access => do
    pure (access.param, ← other.usageOf summary.unit access)) >>= _ = _
  rw [mappedOther, ok_bind, pure_eq_ok, Table.ofList_map]
  rfl

variable {functions otherFunctions : Functions} (renames : index.Renames rename other)
  (taken : index.functions = .ok functions) (takenOther : other.functions = .ok otherFunctions)

include renames taken takenOther

/-- The solver takes the same functions, under other numbers. -/
theorem get?_functions_renamed (id : SummaryId)
    : otherFunctions.get? (.summary (rename id))
      = (functions.get? (.summary id)).map (·.renamed (Callee.renamed rename)) := by
  cases found : functions.get? (.summary id) with
  | some info =>
      obtain ⟨_, summary, key, present, propagated, translated⟩ :=
        exists_summary_of_functions taken (Table.mem_of_get? found)
      cases key
      have propagatedOther : isPropagated (summary.renamed rename) = true := by
        rw [isPropagated, Summary.accesses_renamed]
        exact propagated
      obtain ⟨_, foundOther, translatedOther⟩ :=
        exists_get?_functions takenOther (renames.found present) propagatedOther
      cases (functionUsage_renamed alike translated).symm.trans translatedOther
      rw [foundOther, Option.map_some]
  | none =>
      rw [Option.map_none, Option.eq_none_iff_forall_ne_some]
      intro info foundOther
      obtain ⟨_, summary, key, present, propagated, _⟩ :=
        exists_summary_of_functions takenOther (Table.mem_of_get? foundOther)
      cases key
      have before := renames.symm.found present
      rw [Equiv.symm_apply_apply] at before
      have propagatedBefore : isPropagated (summary.renamed rename.symm) = true := by
        rw [isPropagated, Summary.accesses_renamed]
        exact propagated
      obtain ⟨_, foundBefore, _⟩ := exists_get?_functions taken before propagatedBefore
      cases found.symm.trans foundBefore

theorem functions_renamed : functions.Renames (Callee.renamed rename) otherFunctions := by
  have missing {index : SummaryIndex} {functions : Functions}
      (taken : index.functions = .ok functions) (func : Callee) (param : UInt32)
      (other : ∀ id, func ≠ .summary id)
      : functions.param? func param = none := by
    rw [Functions.param?, Option.bind_eq_none_iff]
    intro info found
    obtain ⟨id, _, key, _⟩ := exists_summary_of_functions taken (Table.mem_of_get? found)
    exact absurd key (other id)
  intro func param
  cases func with
  | summary id =>
      rw [Callee.renamed, Functions.param?, Functions.param?,
        get?_functions_renamed alike renames taken takenOther]
      cases functions.get? (.summary id) with
      | none => rfl
      | some info => exact Table.get?_mapWithKey _ info.params param
  | function id =>
      change otherFunctions.param? (.function id) param = _
      rw [missing taken (.function id) param (by simp),
        missing takenOther (.function id) param (by simp), Option.map_none]
  | unresolved =>
      change otherFunctions.param? .unresolved param = _
      rw [missing taken .unresolved param (by simp), missing takenOther .unresolved param (by simp),
        Option.map_none]

end Translation

-----------------------------------------------------------------------------------------
-- What is recorded
-----------------------------------------------------------------------------------------

theorem cleared_renamed (summary : Summary)
    : cleared (summary.renamed rename) = (cleared summary).renamed rename := by
  obtain ⟨guid, unit, linkage, live, dsoLocal, kind⟩ := summary
  cases kind <;> rfl

theorem eq_of_cleared {first second : Summary} (same : cleared first = cleared second)
    (accesses : first.accesses = second.accesses)
    : first = second := by
  obtain ⟨guid, unit, linkage, live, dsoLocal, kind⟩ := first
  obtain ⟨otherGuid, otherUnit, otherLinkage, otherLive, otherDsoLocal, otherKind⟩ := second
  cases kind <;> cases otherKind <;>
    simp_all [cleared, SummaryKind.isFunction, Summary.accesses]

/-- Functions with the same ranges for the same parameters are recorded alike. -/
theorem solvedAccesses_congr {first second : FunctionUsage Callee}
    (keys : second.params.keys = first.params.keys)
    (ranges : ∀ param, (second.params.get? param).map (·.range)
      = (first.params.get? param).map (·.range))
    : solvedAccesses second = solvedAccesses first := by
  have listed (info : FunctionUsage Callee)
      : solvedAccesses info = info.params.keys.filterMap fun param =>
        ((info.params.get? param).map (·.range)).map fun range => ⟨param, range, []⟩ := by
    rw [Table.keys, List.filterMap_map, solvedAccesses, ← List.filterMap_eq_map]
    refine List.filterMap_congr fun entry member => ?_
    rw [Function.comp_apply, Function.comp_apply, Table.get?_of_mem member]
    rfl
  rw [listed first, listed second, keys]
  exact List.filterMap_congr fun param _ => by rw [ranges]

/-- What is stored of a run: the summaries stay, with the solved accesses as their records. -/
theorem exists_stored {functions final : Functions} {width : Callee → UInt32}
    {propagated : SummaryIndex} (represents : index.Represents width functions)
    (grows : functions.Grows final)
    (stored : index.store final = .ok propagated)
    (present : index.summaries[id.index]? = some summary)
    : ∃ after, propagated.summaries[id.index]? = some after ∧ cleared after = cleared summary
      ∧ after.accesses = ((final.get? (.summary id)).map solvedAccesses).getD [] := by
  obtain ⟨_, storing, accesses⟩ :=
    store_accesses ((Table.Related.keys_eq grows).symm ▸ represents.keys)
  cases stored.symm.trans storing
  obtain ⟨after, found, recorded⟩ := accesses id (List.getElem?_eq_some_iff.mp present).1
  refine ⟨after, found, ?_, recorded⟩
  have same := congrArg (fun index => index.summaries[id.index]?) (clearAccesses_store stored)
  simpa only [clearAccesses_eq, List.getElem?_map, found, present, Option.map_some,
    Option.some.injEq] using same

theorem unforced_run {config : Config} {functions final : Functions} {solver : Solver}
    (taken : index.functions = .ok functions) (made : Solver.make recordWidth config = .ok solver)
    (ran : (solver.run config.verify functions).result = .ok final)
    (unforced : Unforced (index.propagate config).events)
    : Unforced (solver.run config.verify functions).events := by
  rw [propagate, Traced.events_bind _ taken, Traced.events_bind _ made, Traced.events_bind _ ran,
    unforced_append, unforced_append, unforced_append] at unforced
  exact unforced.2.2.1

section Propagation

variable (renames : index.Renames rename other) (alike : index.BindsAlike rename other)
  (measured : ∀ summary ∈ index.summaries, summary.Measured recordWidth)
  (measuredOther : ∀ summary ∈ other.summaries, summary.Measured recordWidth)

include renames alike measured measuredOther

/-- Runs that force nothing end in functions that are recorded alike. Witness: both end in the least
solution, and the parameters of a function keep their order.
-/
theorem solvedAccesses_renamed {config : Config} {solver : Solver}
    {functions final otherFunctions otherFinal : Functions}
    (made : Solver.make recordWidth config = .ok solver)
    (taken : index.functions = .ok functions) (takenOther : other.functions = .ok otherFunctions)
    (chain : Relation.ReflTransGen solver.Gentle functions final)
    (settled : solver.Settled final)
    (chainOther : Relation.ReflTransGen solver.Gentle otherFunctions otherFinal)
    (settledOther : solver.Settled otherFinal) (id : SummaryId)
    : (otherFinal.get? (.summary (rename id))).map solvedAccesses
      = (final.get? (.summary id)).map solvedAccesses := by
  have wf := (functions_represents taken (recorded_of_measured measured)).wellFormed
  have wfOther := (functions_represents takenOther (recorded_of_measured measuredOther)).wellFormed
  obtain ⟨wfFinal, grows⟩ := Solver.gentleChain_grows made wf chain
  obtain ⟨_, growsOther⟩ := Solver.gentleChain_grows made wfOther chainOther
  have ranges (param : UInt32) := Solver.ranges_eq_of_renamed made wf wfOther
    (functions_renamed alike renames taken takenOther)
    (functions_renamed alike.symm renames.symm takenOther taken) Callee.renamed_symm
    (straightRanges_of_measured measured taken) chain settled chainOther settledOther
    (.summary id) param
  have start := get?_functions_renamed alike renames taken takenOther id
  cases found : functions.get? (.summary id) with
  | none =>
      rw [found, Option.map_none] at start
      rw [Table.Related.get?_none grows found, Table.Related.get?_none growsOther start,
        Option.map_none]
  | some info =>
      rw [found, Option.map_some] at start
      obtain ⟨grown, foundGrown, growsInfo⟩ := Table.Related.get?_some grows found
      obtain ⟨otherGrown, foundOther, growsOtherInfo⟩ := Table.Related.get?_some growsOther start
      have keys : otherGrown.params.keys = grown.params.keys := by
        rw [growsInfo.params.keys_eq, growsOtherInfo.params.keys_eq]
        exact Table.keys_mapWithKey _ _
      rw [foundGrown, foundOther, Option.map_some, Option.map_some]
      refine congrArg some (solvedAccesses_congr keys ?_)
      intro param
      have same := ranges param
      rwa [Callee.renamed, Functions.param?, Functions.param?, foundGrown, foundOther,
        Option.bind_some, Option.bind_some] at same

/-- Propagations that force nothing leave the same summaries, records included. -/
theorem Renames.of_propagate {config : Config} {propagated otherPropagated : SummaryIndex}
    (answered : (index.propagate config).result = .ok propagated)
    (answeredOther : (other.propagate config).result = .ok otherPropagated)
    (unforced : Unforced (index.propagate config).events)
    (unforcedOther : Unforced (other.propagate config).events)
    : propagated.Renames rename otherPropagated := by
  obtain ⟨functions, solver, final, taken, made, ran, stored⟩ := exists_propagation answered
  obtain ⟨otherFunctions, _, otherFinal, takenOther, madeOther, ranOther, storedOther⟩ :=
    exists_propagation answeredOther
  cases made.symm.trans madeOther
  have represents := functions_represents taken (recorded_of_measured measured)
  have representsOther := functions_represents takenOther (recorded_of_measured measuredOther)
  obtain ⟨chain, settled⟩ := Solver.gentleChain_of_unforced made represents.wellFormed ran
    (unforced_run taken made ran unforced)
  obtain ⟨chainOther, settledOther⟩ := Solver.gentleChain_of_unforced made
    representsOther.wellFormed ranOther (unforced_run takenOther made ranOther unforcedOther)
  obtain ⟨wf, grows⟩ := Solver.gentleChain_grows made represents.wellFormed chain
  obtain ⟨wfOther, growsOther⟩ :=
    Solver.gentleChain_grows made representsOther.wellFormed chainOther
  intro id
  cases present : index.summaries[id.index]? with
  | none =>
      have absent := renames id
      rw [present, Option.map_none, List.getElem?_eq_none_iff,
        ← length_eq_of_clearAccesses (clearAccesses_store storedOther)] at absent
      rw [List.getElem?_eq_none_iff, ← length_eq_of_clearAccesses (clearAccesses_store stored)]
        at present
      rw [List.getElem?_eq_none absent, List.getElem?_eq_none present, Option.map_none]
  | some summary =>
      obtain ⟨after, found, same, recorded⟩ :=
        exists_stored represents grows stored present
      obtain ⟨otherAfter, foundOther, sameOther, recordedOther⟩ :=
        exists_stored representsOther growsOther storedOther (renames.found present)
      rw [found, foundOther, Option.map_some]
      refine congrArg some (eq_of_cleared ?_ ?_)
      · rw [sameOther, cleared_renamed, cleared_renamed, same]
      · rw [recordedOther, Summary.accesses_renamed, recorded,
          solvedAccesses_renamed renames alike measured measuredOther made taken takenOther chain
            settled chainOther settledOther]

end Propagation

end SummaryIndex

end StackBounds
