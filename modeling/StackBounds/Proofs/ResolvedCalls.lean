import StackBounds.Proofs.Range.Hull
import StackBounds.Proofs.Resolving
import StackBounds.Proofs.Summary.Collecting

/-! Resolved calls, all of them accounted for. In a module that names its own symbols, resolving the
calls of a usage has an answer, which is exact: a call of a function of the module stays, what is on
record joins the range, and one call without either makes the usage unknown.
-/

namespace StackBounds

open Word (residue signed)

/-- An element, taken to another width and read as a signed number there. -/
theorem Range.holds_signed_of_mem {bits : UInt32} {range : Range} {value : Int}
    (proper : range.OfWidth bits) (member : residue bits value ∈ range)
    : range.Holds (signed bits (residue bits value)) := by
  have valid : Word.Valid bits := proper.bits_eq ▸ proper.wellFormed.valid
  have bound := Word.residue_lt bits value
  rw [Holds, proper.bits_eq]
  exact ⟨valid.fits_signed bound, by rwa [valid.residue_signed bound]⟩

namespace Module

variable {unit : Module} {index : Option SummaryIndex}

-----------------------------------------------------------------------------------------
-- What is found for a call
-----------------------------------------------------------------------------------------

/-- The index has a record for a call that says something about it: of the function that the symbol
links against and resolves to, for the same parameter.
-/
inductive FindsRecord (unit : Module) (index : Option SummaryIndex) (call : Forward Global)
    (record : ParamAccess)
    : Prop
  | intro {known : SummaryIndex} {guid : Guid} {chosen target : SummaryId}
    (indexed : index = some known) (named : unit.guidOf call.callee = .ok guid)
    (linked : known.findCallee guid unit.name = .ok (some chosen))
    (resolved : known.resolve chosen = .ok (some target))
    (listed : known.access? target call.param = .ok (some record))
    (known : ¬ record.range.IsAll)

/-- The call runs a function of the module, or the index says what it does. -/
def IsAccounted (unit : Module) (index : Option SummaryIndex) (call : Forward Global) : Prop :=
  (∃ func, unit.boundFunction call.callee = .ok (some func))
  ∨ ∃ record, unit.FindsRecord index call record

/-- What resolving the calls of a usage relies on. The usage is well formed, as the records are, and
every symbol and every summary that is named is there.
-/
structure CanResolve (unit : Module) (index : Option SummaryIndex) (usage : Usage Global)
    : Prop where
  proper : usage.WellFormed unit.pointerWidth.bits
  straight : usage.range.Straight
  symbols : ∀ call ∈ usage.calls, call.callee ∈ unit.globals
  aliases : ∀ link ∈ unit.aliases, link.aliasee ∈ unit.globals
  records : RangesWellFormed index
  summaries : ∀ known, index = some known → known.AliasesExist

theorem exists_isBoundHere {symbol : Global} (member : symbol ∈ unit.globals)
    : ∃ here, unit.isBoundHere symbol = .ok here := by
  obtain ⟨_, linkage, dsoLocal, _, linked, placed⟩ := attributes_of_mem member
  have exists_declared : ∃ declared, unit.isDeclaration symbol = .ok declared := by
    cases symbol with
    | function id =>
        obtain ⟨func, found, _⟩ := exists_of_bind_eq_ok linked
        exact ⟨_, by rw [isDeclaration, found]; rfl⟩
    | aliased id => exact ⟨false, rfl⟩
  obtain ⟨declared, isDeclared⟩ := exists_declared
  exact ⟨_, by rw [isBoundHere, isDeclared, linked, placed]; rfl⟩

/-- A chain of aliases within the module can be followed; by induction on the steps. -/
theorem exists_boundFunctionWithin (aliases : ∀ link ∈ unit.aliases, link.aliasee ∈ unit.globals)
    {symbol : Global} (member : symbol ∈ unit.globals) (steps : Nat)
    : ∃ target, unit.boundFunctionWithin steps symbol = .ok target := by
  induction steps generalizing symbol with
  | zero => exact ⟨none, rfl⟩
  | succ steps ih =>
      obtain ⟨here, bound⟩ := exists_isBoundHere member
      cases symbol with
      | function id => cases here <;> exact ⟨_, by rw [boundFunctionWithin, bound]; rfl⟩
      | aliased id =>
          obtain ⟨_, _, _, named, _⟩ := attributes_of_mem member
          obtain ⟨link, found, _⟩ := exists_of_bind_eq_ok named
          obtain ⟨target, later⟩ :=
            ih (aliases link (List.mem_of_getElem? (aliasAt_eq_ok_iff.mp found)))
          rw [boundFunctionWithin, bound, ok_bind, found, ok_bind, later]
          cases here
          · exact ⟨none, rfl⟩
          · exact ⟨target, rfl⟩

theorem FindsRecord.wellFormed {call : Forward Global} {record : ParamAccess}
    (finds : unit.FindsRecord index call record) (records : RangesWellFormed index)
    : record.range.WellFormed := by
  obtain ⟨indexed, _, _, _, listed, _⟩ := finds
  obtain ⟨summary, found, listed⟩ := exists_of_bind_eq_ok listed
  exact records _ indexed summary (List.mem_of_getElem? (SummaryIndex.summary_eq_ok_iff.mp found))
    record (List.mem_of_find?_eq_some (Except.ok.inj listed))

/-- What the index answers for a call is the range of the record that it finds, at the pointer
width.
-/
theorem recordedAccess?_eq_some_iff (records : RangesWellFormed index) {call : Forward Global}
    {access : Range}
    : unit.recordedAccess? index call.callee call.param = .ok (some access)
      ↔ ∃ record, unit.FindsRecord index call record
        ∧ record.range.resizeSigned unit.pointerWidth.bits = .ok access := by
  constructor
  · intro result
    obtain ⟨_, known, guid, target, record, indexed, named, bound, listed, _, some, resized⟩ :=
      recordedAccess?_spec records result
    obtain ⟨chosen, linked, resolved⟩ := exists_of_bind_eq_ok bound
    cases chosen with
    | none => cases resolved
    | some chosen => exact ⟨record, .intro indexed named linked resolved listed some, resized⟩
  · rintro ⟨record, finds, resized⟩
    have wf := finds.wellFormed records
    obtain ⟨rfl, named, linked, resolved, listed, some⟩ := finds
    simp only [recordedAccess?, recordedAccess, named, SummaryIndex.boundFunction, linked, resolved,
      listed, wf.isFull_eq, ok_bind, some, decide_false, resized]
    rfl

theorem exists_recordedAccess? (records : RangesWellFormed index)
    (summaries : ∀ known, index = some known → known.AliasesExist) {callee : Global}
    (member : callee ∈ unit.globals) (param : UInt32)
    : ∃ access?, unit.recordedAccess? index callee param = .ok access? := by
  cases index with
  | none => exact ⟨none, rfl⟩
  | some known =>
      obtain ⟨guid, named⟩ := exists_guid member
      obtain ⟨target, bound⟩ := SummaryIndex.boundFunction_ok (summaries known rfl) guid unit.name
      rw [recordedAccess?, recordedAccess, named, ok_bind, bound, ok_bind]
      cases target with
      | none => exact ⟨none, rfl⟩
      | some target =>
          obtain ⟨summary, callable⟩ := SummaryIndex.callable_of_bound bound
          have found := SummaryIndex.summary_eq_ok_iff.mpr callable.found
          simp only [SummaryIndex.access?, found, ok_bind, pure_eq_ok]
          cases listed : summary.accesses.find? fun access => access.param == param with
          | none => exact ⟨none, rfl⟩
          | some record =>
              have wf := records known rfl summary (List.mem_of_getElem? callable.found) record
                (List.mem_of_find?_eq_some listed)
              obtain ⟨resized, resizing, _⟩ :=
                Range.resizeSigned_spec wf unit.pointerWidth.valid_bits
              simp only [wf.isFull_eq, ok_bind, resizing]
              split
              · exact ⟨none, rfl⟩
              · exact ⟨some resized, rfl⟩

-----------------------------------------------------------------------------------------
-- What becomes of a call
-----------------------------------------------------------------------------------------

/-- The call of a function of the module that a call is, with the same parameter and offsets. -/
def inModule (unit : Module) (call : Forward Global) : Except Fault (Option (Forward Callee)) := do
  let target ← unit.boundFunction call.callee
  pure (target.map fun func => ⟨.function func, call.param, call.offset⟩)

variable {usage : Usage Global} {call : Forward Global} {outcome : Forward Callee ⊕ Range}

/-- A call makes something of every usage that is well formed. -/
theorem CanResolve.exists_takes (can : unit.CanResolve index usage) (member : call ∈ usage.calls)
    {before : Usage Callee} (wf : before.WellFormed unit.pointerWidth.bits)
    : ∃ next, unit.Takes index call before next := by
  have symbol := can.symbols call member
  obtain ⟨target, binding⟩ := exists_boundFunctionWithin can.aliases symbol _
  cases target with
  | some func => exact ⟨_, .left (.bound binding)⟩
  | none =>
      obtain ⟨access?, record⟩ :=
        exists_recordedAccess? can.records can.summaries symbol call.param
      cases access? with
      | none => exact ⟨_, .left (.unresolved binding record)⟩
      | some access =>
          by_cases none : access.IsNone
          · exact ⟨before, .nothing binding record none⟩
          · obtain ⟨sum, added, proper, meets⟩ :=
              addSigned_recorded can.records (can.proper.offset call member) record
            obtain ⟨next, widened⟩ := wf.exists_widen (proper.bits_eq ▸ meets.ofWidth)
            exact ⟨next, .joined binding record none added widened⟩

/-- One thing becomes of a call. -/
theorem becomes_rightUnique : Relator.RightUnique (unit.Becomes index) := by
  intro call first second becomes again
  cases becomes with
  | bound binding =>
      cases again with
      | bound bindingAgain =>
          cases binding.symm.trans bindingAgain
          rfl
      | recorded outside _ _ => cases binding.symm.trans outside
      | unresolved outside _ => cases binding.symm.trans outside
  | recorded outside record added =>
      cases again with
      | bound binding => cases outside.symm.trans binding
      | recorded _ recordAgain addedAgain =>
          cases record.symm.trans recordAgain
          cases added.symm.trans addedAgain
          rfl
      | unresolved _ missing => cases record.symm.trans missing
  | unresolved outside missing =>
      cases again with
      | bound binding => cases outside.symm.trans binding
      | recorded _ record _ => cases record.symm.trans missing
      | unresolved _ _ => rfl

/-- The calls that are not accounted for are left unresolved. -/
theorem Becomes.isAccounted_iff (becomes : unit.Becomes index call outcome)
    (records : RangesWellFormed index)
    : unit.IsAccounted index call ↔ ∀ kept, outcome = .inl kept → kept.callee ≠ .unresolved := by
  cases becomes with
  | bound binding =>
      refine iff_of_true (Or.inl ⟨_, binding⟩) fun kept same => ?_
      cases same
      exact fun never => by cases never
  | recorded outside record added =>
      obtain ⟨found, finds, _⟩ := (recordedAccess?_eq_some_iff records).mp record
      exact iff_of_true (Or.inr ⟨found, finds⟩) fun kept same => by cases same
  | unresolved outside missing =>
      refine iff_of_false ?_ fun resolved => resolved _ rfl rfl
      rintro (⟨func, binding⟩ | ⟨record, finds⟩)
      · cases outside.symm.trans binding
      · obtain ⟨access, resized, _⟩ :=
          Range.resizeSigned_spec (finds.wellFormed records) unit.pointerWidth.valid_bits
        cases missing.symm.trans
          ((recordedAccess?_eq_some_iff records).mpr ⟨record, finds, resized⟩)

-----------------------------------------------------------------------------------------
-- What becomes of all calls
-----------------------------------------------------------------------------------------

/-- One step: what a call makes of a usage is what the other calls are resolved onto. -/
theorem CanResolve.resolveOnto_cons (can : unit.CanResolve index usage)
    (member : call ∈ usage.calls) {before next : Usage Callee}
    (takes : unit.Takes index call before next) (rest : List (Forward Global))
    : (unit.resolveOnto index before (call :: rest)).result
      = (unit.resolveOnto index next rest).result := by
  have make (target : Callee)
      : Forward.make target call.param call.offset = .ok ⟨target, call.param, call.offset⟩ :=
    if_neg fun empty => can.proper.moved call member (Range.isEmpty_iff.mp empty)
  cases takes with
  | left becomes =>
      cases becomes with
      | bound binding =>
          simp only [resolveOnto, Traced.result_bind, Traced.result_liftM, binding, make, ok_bind]
      | unresolved outside missing =>
          obtain ⟨name, _, _, named, _⟩ := attributes_of_mem (can.symbols call member)
          simp only [resolveOnto, Traced.result_bind, Traced.result_liftM, Traced.result_emit,
            outside, missing, named, make, ok_bind]
  | nothing outside record none =>
      simp only [resolveOnto, Traced.result_bind, Traced.result_liftM, outside, record, ok_bind,
        if_pos (Range.isEmpty_iff.mpr none)]
  | @joined access _ _ outside record some added widened =>
      have full : ¬ access.isEmpty = true := fun empty => some (Range.isEmpty_iff.mp empty)
      simp only [resolveOnto, Traced.result_bind, Traced.result_liftM, outside, record, ok_bind,
        if_neg full, added, widened]

/-- The run: all calls are resolved; by induction on the calls. -/
theorem CanResolve.exists_resolveOnto (can : unit.CanResolve index usage)
    {calls : List (Forward Global)} (inside : ∀ call ∈ calls, call ∈ usage.calls)
    {before : Usage Callee} (wf : before.WellFormed unit.pointerWidth.bits)
    : ∃ final, (unit.resolveOnto index before calls).result = .ok final := by
  induction calls generalizing before with
  | nil => exact ⟨before, rfl⟩
  | cons call rest ih =>
      have member := inside call List.mem_cons_self
      obtain ⟨next, takes⟩ := can.exists_takes member wf
      obtain ⟨_, first⟩ := takes.exists_accounting can.records wf (can.proper.offset call member)
        (can.proper.moved call member)
      rw [can.resolveOnto_cons member takes]
      exact ih (fun other member => inside other (List.mem_cons_of_mem _ member)) first.wellFormed

/-- Where no call was there before, one is unresolved when a call is not accounted for. -/
theorem Accounting.hasUnresolved_iff {calls : List (Forward Global)}
    {outcomes : List (Forward Callee ⊕ Range)} {before final : Usage Callee}
    (accounting : unit.Accounting index calls outcomes before final)
    (records : RangesWellFormed index) (fresh : before.calls = [])
    : final.hasUnresolved = true ↔ ∃ call ∈ calls, ¬ unit.IsAccounted index call := by
  have left : final.calls = outcomes.filterMap Sum.getLeft? := by
    rw [accounting.left, fresh, List.nil_append]
  simp only [Usage.hasUnresolved, List.any_eq_true, beq_iff_eq, left, List.mem_filterMap]
  constructor
  · rintro ⟨kept, ⟨outcome, listed, isLeft⟩, missing⟩
    obtain ⟨call, member, becomes⟩ := exists_input accounting.becomes listed
    refine ⟨call, member, fun accounted => ?_⟩
    exact (becomes.isAccounted_iff records).mp accounted kept
      (Sum.getLeft?_eq_some_iff.mp isLeft) missing
  · rintro ⟨call, member, missing⟩
    obtain ⟨outcome, listed, becomes⟩ := exists_answer accounting.becomes member
    rw [becomes.isAccounted_iff records] at missing
    push Not at missing
    obtain ⟨kept, rfl, isUnresolved⟩ := missing
    exact ⟨kept, ⟨_, listed, rfl⟩, isUnresolved⟩

/-- Resolving gives the calls that are left and the hull, unless one of the calls is unresolved. -/
theorem CanResolve.exists_resolveCalls (can : unit.CanResolve index usage)
    : ∃ outcomes, List.Forall₂ (unit.Becomes index) usage.calls outcomes
      ∧ ∃ hull : Range,
        hull.IsHull unit.pointerWidth.bits (usage.range :: outcomes.filterMap Sum.getRight?)
        ∧ ((∃ call ∈ usage.calls, ¬ unit.IsAccounted index call)
          → (unit.resolveCalls index usage).result = .ok ⟨Range.top unit.pointerWidth.bits, []⟩)
        ∧ ((∀ call ∈ usage.calls, unit.IsAccounted index call)
          → (unit.resolveCalls index usage).result
            = .ok ⟨hull, outcomes.filterMap Sum.getLeft?⟩) := by
  have proper := can.proper
  have wf : (⟨usage.range, []⟩ : Usage Callee).WellFormed unit.pointerWidth.bits :=
    ⟨proper.range, by simp, by simp⟩
  obtain ⟨final, result⟩ := can.exists_resolveOnto (fun _ member => member) wf
  obtain ⟨outcomes, accounting⟩ := exists_accounting_of_resolveOnto can.records wf
    (fun call member => ⟨proper.offset call member, proper.moved call member⟩) result
  have left : final.calls = outcomes.filterMap Sum.getLeft? := accounting.left
  have isHull := accounting.isHull _ (Range.isHull_self proper.range can.straight)
  have resolving : (unit.resolveCalls index usage).result = final.collapse := by
    simp only [resolveCalls, Traced.result_bind, Traced.result_liftM]
    exact congrArg (· >>= Usage.collapse) result
  have unresolved := accounting.hasUnresolved_iff can.records rfl
  refine ⟨outcomes, accounting.becomes, final.range, isHull, fun missing => ?_, fun accounted => ?_⟩
  · rw [resolving, Usage.collapse, if_pos (unresolved.mpr missing), Usage.forget,
      isHull.ofWidth.bits_eq, Range.full_eq unit.pointerWidth.valid_bits]
    rfl
  · have resolved : ¬ final.hasUnresolved = true := by
      rw [unresolved]
      rintro ⟨call, member, missing⟩
      exact missing (accounted call member)
    rw [resolving, Usage.collapse, if_neg resolved, ← left]
    rfl

/-- When all calls are accounted for, those that are left are the calls of functions of the module,
in order; by induction on the calls.
-/
theorem filterMapM_inModule (records : RangesWellFormed index) {calls : List (Forward Global)}
    {outcomes : List (Forward Callee ⊕ Range)}
    (becomes : List.Forall₂ (unit.Becomes index) calls outcomes)
    (accounted : ∀ call ∈ calls, unit.IsAccounted index call)
    : calls.filterMapM unit.inModule = .ok (outcomes.filterMap Sum.getLeft?) := by
  induction becomes with
  | nil => rfl
  | @cons call outcome rest outcomes first _ ih =>
      have later := ih fun other member => accounted other (List.mem_cons_of_mem _ member)
      refine filterMapM_cons_eq_ok_iff.mpr ⟨outcome.getLeft?, _, ?_, later, ?_⟩
      · cases first with
        | bound binding => rw [inModule, binding]; rfl
        | recorded outside record added => rw [inModule, outside]; rfl
        | unresolved outside missing =>
            have resolved := (Becomes.unresolved outside missing).isAccounted_iff records
            exact absurd rfl (resolved.mp (accounted call List.mem_cons_self) _ rfl)
      · cases outcome with
        | inl kept => rw [List.filterMap_cons_some (f := Sum.getLeft?) rfl]; rfl
        | inr sum => rw [List.filterMap_cons_none (f := Sum.getLeft?) rfl]; rfl

/-- What a record says is in the range that the call adds, moved by any of the offsets. -/
theorem CanResolve.added_allows (can : unit.CanResolve index usage) (member : call ∈ usage.calls)
    {sum : Range} (becomes : unit.Becomes index call (.inr sum)) {record : ParamAccess}
    (finds : unit.FindsRecord index call record) {value offset : Int}
    (held : record.range.Holds value) (moved : call.offset.Holds offset)
    : sum.OfWidth unit.pointerWidth.bits
      ∧ sum.Allows
        (signed unit.pointerWidth.bits (residue unit.pointerWidth.bits value) + offset) := by
  cases becomes with
  | recorded outside answered added =>
      obtain ⟨_, adding, proper, meets⟩ :=
        addSigned_recorded can.records (can.proper.offset call member) answered
      cases added.symm.trans adding
      -- The record that was found is the one that the index answered with.
      obtain ⟨access, resized, _, keeps⟩ :=
        Range.resizeSigned_spec (finds.wellFormed can.records) unit.pointerWidth.valid_bits
      cases answered.symm.trans
        ((recordedAccess?_eq_some_iff can.records).mpr ⟨record, finds, resized⟩)
      exact ⟨proper.bits_eq ▸ meets.ofWidth,
        meets.covers (Range.holds_signed_of_mem proper (keeps value held)) moved⟩

theorem CanResolve.of_perm (can : unit.CanResolve index usage) {order : List (Forward Global)}
    (perm : order.Perm usage.calls)
    : unit.CanResolve index ⟨usage.range, order⟩ where
  proper :=
    ⟨can.proper.range, fun call member => can.proper.offset call (perm.mem_iff.mp member),
      fun call member => can.proper.moved call (perm.mem_iff.mp member)⟩
  straight := can.straight
  symbols call member := can.symbols call (perm.mem_iff.mp member)
  aliases := can.aliases
  records := can.records
  summaries := can.summaries

/-- In another order of the calls the range is the same. -/
theorem CanResolve.exists_resolveCalls_of_perm (can : unit.CanResolve index usage)
    {resolved : Usage Callee} (result : (unit.resolveCalls index usage).result = .ok resolved)
    {order : List (Forward Global)} (perm : order.Perm usage.calls)
    : ∃ other, (unit.resolveCalls index ⟨usage.range, order⟩).result = .ok other
      ∧ other.range = resolved.range := by
  obtain ⟨outcomes, becomes, hull, isHull, unknown, known⟩ := can.exists_resolveCalls
  obtain ⟨others, turned, otherHull, isOther, otherUnknown, otherKnown⟩ :=
    (can.of_perm perm).exists_resolveCalls
  obtain ⟨_, turnedAgain, permuted⟩ := List.perm_comp_forall₂ perm becomes
  cases Relator.RightUnique.forall₂ becomes_rightUnique turned turnedAgain
  have sameHull : otherHull = hull :=
    (isOther.of_perm ((permuted.filterMap _).cons _)).unique isHull
  by_cases accounted : ∀ call ∈ usage.calls, unit.IsAccounted index call
  · refine ⟨_, otherKnown fun call member => accounted call (perm.mem_iff.mp member), ?_⟩
    cases result.symm.trans (known accounted)
    exact sameHull
  · push Not at accounted
    obtain ⟨call, member, missing⟩ := accounted
    refine ⟨_, otherUnknown ⟨call, perm.mem_iff.mpr member, missing⟩, ?_⟩
    cases result.symm.trans (unknown ⟨call, member, missing⟩)
    rfl

/-- Resolving the calls of a usage always has an answer. One call that neither runs a function of
the module nor has a record that says something makes it unknown. Otherwise its calls are those of
functions of the module, in order and with the same parameters and offsets, and its range is the
hull of the first range and what the other calls add, which takes in every recorded access at the
pointer width, moved by every offset. The order of the calls makes no difference to the range.
-/
theorem resolveCalls_accounts_for_calls (can : unit.CanResolve index usage)
    : ∃ resolved, (unit.resolveCalls index usage).result = .ok resolved
      ∧ ((∃ call ∈ usage.calls, ¬ unit.IsAccounted index call)
        → resolved = ⟨Range.top unit.pointerWidth.bits, []⟩)
      ∧ ((∀ call ∈ usage.calls, unit.IsAccounted index call)
        → usage.calls.filterMapM unit.inModule = .ok resolved.calls
          ∧ usage.range ⊆ resolved.range
          ∧ (∀ call ∈ usage.calls, unit.boundFunction call.callee = .ok none
            → ∀ record, unit.FindsRecord index call record
            → ∀ value offset, record.range.Holds value → call.offset.Holds offset
            → resolved.range.Allows
              (signed unit.pointerWidth.bits (residue unit.pointerWidth.bits value) + offset))
          ∧ ∃ sums, resolved.range.IsHull unit.pointerWidth.bits (usage.range :: sums)
            ∧ ∀ sum ∈ sums, ∃ call ∈ usage.calls, unit.Becomes index call (.inr sum))
      ∧ ∀ order, order.Perm usage.calls
        → ∃ other, (unit.resolveCalls index ⟨usage.range, order⟩).result = .ok other
          ∧ other.range = resolved.range := by
  obtain ⟨outcomes, becomes, hull, isHull, unknown, known⟩ := can.exists_resolveCalls
  by_cases accounted : ∀ call ∈ usage.calls, unit.IsAccounted index call
  · have result := known accounted
    refine ⟨_, result, fun ⟨call, member, missing⟩ => absurd (accounted call member) missing,
      fun _ => ⟨filterMapM_inModule can.records becomes accounted,
        isHull.includes _ List.mem_cons_self, ?_, _, isHull, ?_⟩,
      fun order perm => can.exists_resolveCalls_of_perm result perm⟩
    · intro call member outside record finds value offset held moved
      obtain ⟨outcome, listed, turned⟩ := exists_answer becomes member
      cases outcome with
      | inl kept =>
          -- A call that is left would run a function of the module or be unresolved.
          have resolved := (turned.isAccounted_iff can.records).mp (accounted call member) kept rfl
          cases turned with
          | bound binding => cases outside.symm.trans binding
          | unresolved _ _ => exact absurd rfl resolved
      | inr sum =>
          obtain ⟨proper, allowed⟩ := can.added_allows member turned finds held moved
          have joined : sum ∈ usage.range :: outcomes.filterMap Sum.getRight? :=
            List.mem_cons_of_mem _ (List.mem_filterMap.mpr ⟨_, listed, rfl⟩)
          exact allowed.of_subset proper.wellFormed isHull.ofWidth.wellFormed
            (proper.bits_eq.trans isHull.ofWidth.bits_eq.symm) (isHull.includes sum joined)
    · intro sum added
      obtain ⟨outcome, listed, isRight⟩ := List.mem_filterMap.mp added
      obtain ⟨call, member, turned⟩ := exists_input becomes listed
      cases Sum.getRight?_eq_some_iff.mp isRight
      exact ⟨call, member, turned⟩
  · push Not at accounted
    have result := unknown accounted
    refine ⟨_, result, fun _ => rfl, fun all => ?_,
      fun order perm => can.exists_resolveCalls_of_perm result perm⟩
    obtain ⟨call, member, missing⟩ := accounted
    exact absurd (all call member) missing

/-- A module with narrow pointers: a function of its own, and one of another module. -/
def handingOn : Module where
  name := "m"
  target := ⟨.riscv32, .unknown, .linux⟩
  functions :=
    [{ sig := .declared "near" .exported [.ptr] .unit
       values := [.argument .ptr 0]
       insts := [.ret none]
       blockCount := 1
       layout := [⟨⟨0⟩, [⟨0⟩]⟩] },
      .ofSignature (.declared "far" .external [.ptr] .unit)]
  aliases := []

/-- The other module's function accesses sixteen bytes, recorded with wide numbers. -/
def farAccess : ParamAccess := ⟨0, ⟨64, 0, 16⟩, []⟩

def farIndex : SummaryIndex :=
  ⟨[⟨.ofName "far", "n", .exported, true, true, .function [farAccess]⟩]⟩

/-- Four bytes are accessed, and the address is handed to both functions. -/
def handedOn : Usage Global :=
  ⟨⟨32, 0, 4⟩, [⟨.function ⟨0⟩, 0, ⟨32, 0, 1⟩⟩, ⟨.function ⟨1⟩, 0, ⟨32, 8, 9⟩⟩]⟩

theorem canResolve_handedOn {index : Option SummaryIndex} (records : RangesWellFormed index)
    (summaries : ∀ known, index = some known → known.AliasesExist)
    : handingOn.CanResolve index handedOn :=
  ⟨by decide, by decide, by decide, fun link member => absurd member List.not_mem_nil, records,
    summaries⟩

theorem findsRecord_handedOn
    : handingOn.FindsRecord (some farIndex) ⟨.function ⟨1⟩, 0, ⟨32, 8, 9⟩⟩ farAccess := by
  have linked : farIndex.findCallee (.ofName "far") "m" = .ok (some ⟨0⟩) := by decide +kernel
  have resolved : farIndex.resolve ⟨0⟩ = .ok (some ⟨0⟩) := by decide +kernel
  exact .intro rfl rfl linked resolved rfl (by decide)

/-- Witness: the call within the module is left, and the record reaches to the last of its bytes,
moved by the offset. The other order has the same range, and without an index nothing is known.
-/
theorem resolveCalls_accounts_for_calls_handedOn
    : ∃ resolved, (handingOn.resolveCalls (some farIndex) handedOn).result = .ok resolved
      ∧ resolved.calls = [⟨.function ⟨0⟩, 0, ⟨32, 0, 1⟩⟩]
      ∧ resolved.range.Allows (15 + 8)
      ∧ (∃ other, (handingOn.resolveCalls (some farIndex)
          ⟨handedOn.range, handedOn.calls.reverse⟩).result = .ok other
        ∧ other.range = resolved.range)
      ∧ (handingOn.resolveCalls none handedOn).result = .ok ⟨Range.top 32, []⟩ := by
  have records : RangesWellFormed (some farIndex) := by
    rintro known ⟨⟩
    decide
  have summaries : ∀ known, some farIndex = some known → known.AliasesExist := by
    rintro known ⟨⟩ summary member aliasee kind
    cases List.mem_singleton.mp member
    cases kind
  have bound : handingOn.boundFunction (.function ⟨0⟩) = .ok (some ⟨0⟩) := rfl
  have outside : handingOn.boundFunction (.function ⟨1⟩) = .ok none := rfl
  have last : (⟨.function ⟨1⟩, 0, ⟨32, 8, 9⟩⟩ : Forward Global) ∈ handedOn.calls := by decide
  obtain ⟨resolved, result, _, known, orders⟩ :=
    resolveCalls_accounts_for_calls (canResolve_handedOn records summaries)
  have accounted : ∀ call ∈ handedOn.calls, handingOn.IsAccounted (some farIndex) call := by
    intro call member
    rcases List.mem_cons.mp member with rfl | member
    · exact Or.inl ⟨_, bound⟩
    · cases List.mem_singleton.mp member
      exact Or.inr ⟨_, findsRecord_handedOn⟩
  obtain ⟨calls, _, covers, _⟩ := known accounted
  obtain ⟨unknown, unknownResult, forgets, _⟩ :=
    resolveCalls_accounts_for_calls
      (canResolve_handedOn rangesWellFormed_none fun _ never => by cases never)
  have missing : ¬ handingOn.IsAccounted none ⟨.function ⟨1⟩, 0, ⟨32, 8, 9⟩⟩ := by
    rintro (⟨func, binding⟩ | ⟨record, ⟨indexed, _⟩⟩)
    · cases outside.symm.trans binding
    · cases indexed
  cases forgets ⟨_, last, missing⟩
  refine ⟨resolved, result, (Except.ok.inj calls).symm, ?_, orders _ (List.reverse_perm _),
    unknownResult⟩
  exact covers _ last outside _ findsRecord_handedOn 15 8 (by decide) (by decide)

end Module

end StackBounds
