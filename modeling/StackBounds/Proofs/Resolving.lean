import Mathlib.Data.List.Nodup
import StackBounds.Proofs.Local.Functions
import StackBounds.Proofs.Range.Hull
import StackBounds.Proofs.Summary.Binding

/-! What the solver starts from: usages whose calls are resolved within the module still say
everything about their address.
-/

namespace StackBounds.Module

variable {unit : Module} {possible : FunctionId → Possible}

-----------------------------------------------------------------------------------------
-- Resolved calls
-----------------------------------------------------------------------------------------

/-- The solver's name for the function that a call to a symbol runs. -/
def BindsTo (unit : Module) (callee : Global) (target : Callee) : Prop :=
  ∃ func, unit.boundFunction callee = .ok (some func) ∧ target = .function func

/-- The recorded ranges denote sets, each of its own width. -/
def RangesWellFormed (index : Option SummaryIndex) : Prop :=
  ∀ known, index = some known → ∀ summary ∈ known.summaries, ∀ access ∈ summary.accesses,
    access.range.WellFormed

theorem rangesWellFormed_none : RangesWellFormed none := by
  intro known never
  cases never

/-- What is found on record for a call into another module. -/
theorem recordedAccess?_spec {index : Option SummaryIndex} {callee : Global} {param : UInt32}
    {access : Range} (trusted : RangesWellFormed index)
    (result : unit.recordedAccess? index callee param = .ok (some access))
    : access.OfWidth unit.pointerWidth.bits
      ∧ ∃ known guid id record, index = some known ∧ unit.guidOf callee = .ok guid
        ∧ known.boundFunction guid unit.name = .ok (some id)
        ∧ known.access? id param = .ok (some record)
        ∧ record.range.WellFormed ∧ ¬ record.range.IsAll
        ∧ record.range.resizeSigned unit.pointerWidth.bits = .ok access := by
  cases index with
  | none => cases result
  | some known =>
      obtain ⟨guid, named, result⟩ := exists_of_bind_eq_ok result
      obtain ⟨bound, binding, result⟩ := exists_of_bind_eq_ok result
      cases bound with
      | none => cases result
      | some id =>
          obtain ⟨found, looked, result⟩ := exists_of_bind_eq_ok result
          cases found with
          | none => cases result
          | some record =>
              obtain ⟨summary, foundSummary, same⟩ := exists_of_bind_eq_ok looked
              have listed : record ∈ summary.accesses :=
                List.mem_of_find?_eq_some (Except.ok.inj same)
              have known' := SummaryIndex.summary_eq_ok_iff.mp foundSummary
              have wf := trusted known rfl summary (List.mem_of_getElem? known') record listed
              simp only [wf.isFull_eq, ok_bind] at result
              by_cases all : record.range.IsAll
              · rw [if_pos (decide_eq_true all)] at result
                cases result
              · rw [if_neg (by simpa using all)] at result
                obtain ⟨resized, resizing, proper, _⟩ :=
                  Range.resizeSigned_spec wf unit.pointerWidth.valid_bits
                rw [resizing, map_ok, Except.ok.injEq, Option.some.injEq] at result
                subst result
                exact ⟨proper, known, guid, id, record, rfl, named, binding, looked, wf, all,
                  resizing⟩

/-- How a call is accounted for in a resolved usage. A call of a function of the module stays a
call, what is on record joins the range, and everything else is an unresolved call.
-/
inductive Resolves (unit : Module) (index : Option SummaryIndex) (call : Forward Global)
    (usage : Usage Callee)
    : Prop
  | bound {func}
    (binding : unit.boundFunction call.callee = .ok (some func))
    (kept : ⟨.function func, call.param, call.offset⟩ ∈ usage.calls)
  | recorded {access sum}
    (outside : unit.boundFunction call.callee = .ok none)
    (record : unit.recordedAccess? index call.callee call.param = .ok (some access))
    (added : access.addSigned call.offset = .ok sum) (covered : sum ⊆ usage.range)
  | unresolved
    (outside : unit.boundFunction call.callee = .ok none)
    (missing : unit.recordedAccess? index call.callee call.param = .ok none)
    (kept : ⟨.unresolved, call.param, call.offset⟩ ∈ usage.calls)

/-- A symbol is bound to a function of the module, or to none. -/
def Names (unit : Module) (callee : Global) (target : Callee) : Prop :=
  (target = .unresolved ∧ unit.boundFunction callee = .ok none) ∨ unit.BindsTo callee target

/-- A resolved call comes from one of the calls. -/
def Origin (unit : Module) (calls : List (Forward Global)) (kept : Forward Callee) : Prop :=
  ∃ call ∈ calls, kept.param = call.param ∧ kept.offset = call.offset
    ∧ unit.Names call.callee kept.callee

/-- What becomes of a call. A call of a function of the module stays a call, what is on record is a
range to join, moved by the offsets, and everything else is an unresolved call.
-/
inductive Becomes (unit : Module) (index : Option SummaryIndex) (call : Forward Global)
    : Forward Callee ⊕ Range → Prop
  | bound {func : FunctionId} (binding : unit.boundFunction call.callee = .ok (some func))
    : Becomes unit index call (.inl ⟨.function func, call.param, call.offset⟩)
  | recorded {access sum : Range} (outside : unit.boundFunction call.callee = .ok none)
    (record : unit.recordedAccess? index call.callee call.param = .ok (some access))
    (added : access.addSigned call.offset = .ok sum)
    : Becomes unit index call (.inr sum)
  | unresolved (outside : unit.boundFunction call.callee = .ok none)
    (missing : unit.recordedAccess? index call.callee call.param = .ok none)
    : Becomes unit index call (.inl ⟨.unresolved, call.param, call.offset⟩)

/-- One step: what a call makes of a usage. A recorded range without elements is not joined. -/
inductive Takes (unit : Module) (index : Option SummaryIndex) (call : Forward Global)
    (before : Usage Callee)
    : Usage Callee → Prop
  | left {kept : Forward Callee} (becomes : unit.Becomes index call (.inl kept))
    : Takes unit index call before { before with calls := before.calls ++ [kept] }
  | nothing {access : Range} (outside : unit.boundFunction call.callee = .ok none)
    (record : unit.recordedAccess? index call.callee call.param = .ok (some access))
    (none : access.IsNone)
    : Takes unit index call before before
  | joined {access sum : Range} {after : Usage Callee}
    (outside : unit.boundFunction call.callee = .ok none)
    (record : unit.recordedAccess? index call.callee call.param = .ok (some access))
    (some : ¬ access.IsNone) (added : access.addSigned call.offset = .ok sum)
    (widened : before.widen sum = .ok after)
    : Takes unit index call before after

/-- An accounting of calls: what becomes of each of them is in the usage afterwards. The calls that
are left stand in order behind those before them, and the range has taken in the others.
-/
structure Accounting (unit : Module) (index : Option SummaryIndex) (calls : List (Forward Global))
    (outcomes : List (Forward Callee ⊕ Range)) (before after : Usage Callee)
    : Prop where
  becomes : List.Forall₂ (unit.Becomes index) calls outcomes
  wellFormed : after.WellFormed unit.pointerWidth.bits
  left : after.calls = before.calls ++ outcomes.filterMap Sum.getLeft?
  grows : before.range ⊆ after.range
  covers : ∀ sum ∈ outcomes.filterMap Sum.getRight?, sum ⊆ after.range
  same : outcomes.filterMap Sum.getRight? = [] → after.range = before.range
  isHull : ∀ parts, before.range.IsHull unit.pointerWidth.bits parts
    → after.range.IsHull unit.pointerWidth.bits (parts ++ outcomes.filterMap Sum.getRight?)

variable {index : Option SummaryIndex} {call : Forward Global} {calls rest : List (Forward Global)}
  {outcomes others : List (Forward Callee ⊕ Range)} {before next after : Usage Callee}

-----------------------------------------------------------------------------------------
-- One call
-----------------------------------------------------------------------------------------

/-- What a resolved list of calls did first. -/
theorem exists_takes_of_resolveOnto
    (result : (unit.resolveOnto index before (call :: rest)).result = .ok after)
    : ∃ next, unit.Takes index call before next
      ∧ (unit.resolveOnto index next rest).result = .ok after := by
  simp only [resolveOnto, Traced.result_bind, Traced.result_liftM] at result
  obtain ⟨target, binding, result⟩ := exists_of_bind_eq_ok result
  cases target with
  | some func =>
      simp only [Traced.result_bind, Traced.result_liftM] at result
      obtain ⟨kept, made, result⟩ := exists_of_bind_eq_ok result
      obtain ⟨rfl, _⟩ := Forward.eq_of_make made
      exact ⟨_, .left (.bound binding), result⟩
  | none =>
      simp only [Traced.result_bind, Traced.result_liftM] at result
      obtain ⟨record, looked, result⟩ := exists_of_bind_eq_ok result
      cases record with
      | none =>
          simp only [Traced.result_bind, Traced.result_liftM, Traced.result_emit, ok_bind] at result
          obtain ⟨_, _, result⟩ := exists_of_bind_eq_ok result
          obtain ⟨kept, made, result⟩ := exists_of_bind_eq_ok result
          obtain ⟨rfl, _⟩ := Forward.eq_of_make made
          exact ⟨_, .left (.unresolved binding looked), result⟩
      | some access =>
          simp only at result
          split at result
          · rename_i empty
            exact ⟨before, .nothing binding looked (Range.isEmpty_iff.mp empty), result⟩
          · rename_i some
            simp only [Traced.result_bind, Traced.result_liftM] at result
            obtain ⟨sum, added, result⟩ := exists_of_bind_eq_ok result
            obtain ⟨next, widened, result⟩ := exists_of_bind_eq_ok result
            have some : ¬ access.IsNone := fun none => some (Range.isEmpty_iff.mpr none)
            exact ⟨next, .joined binding looked some added widened, result⟩

/-- What is on record for a call can be moved by its offsets. -/
theorem addSigned_recorded (trusted : RangesWellFormed index)
    (offset : call.offset.OfWidth unit.pointerWidth.bits) {access : Range}
    (record : unit.recordedAccess? index call.callee call.param = .ok (some access))
    : ∃ sum, access.addSigned call.offset = .ok sum
      ∧ access.OfWidth unit.pointerWidth.bits ∧ Range.SignedSum access call.offset sum := by
  have proper := (recordedAccess?_spec trusted record).1
  obtain ⟨sum, added, meets⟩ := Range.addSigned_spec proper.wellFormed offset.wellFormed
    (offset.bits_eq.trans proper.bits_eq.symm)
  exact ⟨sum, added, proper, meets⟩

/-- One call is accounted for; one case for each thing that becomes of it. -/
theorem Takes.exists_accounting (takes : unit.Takes index call before next)
    (trusted : RangesWellFormed index) (wf : before.WellFormed unit.pointerWidth.bits)
    (offset : call.offset.OfWidth unit.pointerWidth.bits) (some : ¬ call.offset.IsNone)
    : ∃ outcome, unit.Accounting index [call] [outcome] before next := by
  cases takes with
  | @left kept becomes =>
      have made : Forward.make kept.callee call.param call.offset = .ok kept := by
        have full : ¬ call.offset.isEmpty = true := fun empty => some (Range.isEmpty_iff.mp empty)
        cases becomes <;> exact if_neg full
      refine ⟨.inl kept, .cons becomes .nil, wf.append_call offset made, rfl, Range.subset_refl _,
        fun sum never => absurd never List.not_mem_nil, fun _ => rfl, fun parts isHull => ?_⟩
      rwa [List.filterMap_cons_none (f := Sum.getRight?) rfl, List.filterMap_nil, List.append_nil]
  | nothing outside record none =>
      -- Nothing is accessed there, so there is nothing to join.
      obtain ⟨sum, added, proper, meets⟩ := addSigned_recorded trusted offset record
      have properSum := meets.ofWidth.wellFormed
      have sumNone := (meets.isNone_iff proper.wellFormed offset.wellFormed).mpr (Or.inl none)
      refine ⟨.inr sum, .cons (.recorded outside record added) .nil, wf, (List.append_nil _).symm,
        Range.subset_refl _, ?_, fun never => absurd never (List.cons_ne_nil _ _),
        fun parts isHull => isHull.append_none properSum sumNone⟩
      intro other member
      cases List.mem_singleton.mp member
      exact properSum.subset_of_isNone sumNone _
  | @joined access sum _ outside record _ added widened =>
      obtain ⟨_, adding, proper, meets⟩ := addSigned_recorded trusted offset record
      cases added.symm.trans adding
      have properSum := proper.bits_eq ▸ meets.ofWidth
      obtain ⟨wfNext, grows, covers, sameCalls⟩ := wf.of_widen properSum widened
      refine ⟨.inr sum, .cons (.recorded outside record added) .nil, wfNext,
        sameCalls.trans (List.append_nil _).symm, grows, ?_,
        fun never => absurd never (List.cons_ne_nil _ _), ?_⟩
      · intro other member
        cases List.mem_singleton.mp member
        exact covers
      · intro parts isHull
        obtain ⟨_, widenedAgain, _, isNext⟩ := Usage.exists_widen_isHull isHull properSum
        cases widened.symm.trans widenedAgain
        exact isNext

-----------------------------------------------------------------------------------------
-- All calls
-----------------------------------------------------------------------------------------

theorem Accounting.nil (wf : before.WellFormed unit.pointerWidth.bits)
    : unit.Accounting index [] [] before before :=
  ⟨.nil, wf, (List.append_nil _).symm, Range.subset_refl _, by simp, fun _ => rfl,
    fun parts isHull => by simpa using isHull⟩

theorem Accounting.append (first : unit.Accounting index calls outcomes before next)
    (later : unit.Accounting index rest others next after)
    : unit.Accounting index (calls ++ rest) (outcomes ++ others) before after where
  becomes := List.rel_append first.becomes later.becomes
  wellFormed := later.wellFormed
  left := by rw [later.left, first.left, List.filterMap_append, List.append_assoc]
  grows := Range.subset_trans first.grows later.grows
  covers sum member := by
    rw [List.filterMap_append, List.mem_append] at member
    rcases member with earlier | last
    · exact Range.subset_trans (first.covers sum earlier) later.grows
    · exact later.covers sum last
  same nothing := by
    rw [List.filterMap_append, List.append_eq_nil_iff] at nothing
    exact (later.same nothing.2).trans (first.same nothing.1)
  isHull parts isHull := by
    rw [List.filterMap_append, ← List.append_assoc]
    exact later.isHull _ (first.isHull parts isHull)

/-- Resolving calls accounts for each of them; by induction on the calls. -/
theorem exists_accounting_of_resolveOnto (trusted : RangesWellFormed index)
    (wf : before.WellFormed unit.pointerWidth.bits)
    (offsets : ∀ call ∈ calls,
      call.offset.OfWidth unit.pointerWidth.bits ∧ ¬ call.offset.IsNone)
    (result : (unit.resolveOnto index before calls).result = .ok after)
    : ∃ outcomes, unit.Accounting index calls outcomes before after := by
  induction calls generalizing before with
  | nil =>
      cases result
      exact ⟨[], .nil wf⟩
  | cons call rest ih =>
      obtain ⟨next, takes, result⟩ := exists_takes_of_resolveOnto result
      obtain ⟨offset, some⟩ := offsets call List.mem_cons_self
      obtain ⟨outcome, first⟩ := takes.exists_accounting trusted wf offset some
      obtain ⟨outcomes, later⟩ := ih first.wellFormed
        (fun other member => offsets other (List.mem_cons_of_mem _ member)) result
      exact ⟨[outcome] ++ outcomes, first.append later⟩

/-- Resolving the calls of a usage accounts for each of them, before an unresolved one makes the
usage unknown.
-/
theorem exists_accounting_of_resolveCalls {usage : Usage Global} {resolved : Usage Callee}
    (trusted : RangesWellFormed index) (wf : usage.WellFormed unit.pointerWidth.bits)
    (result : (unit.resolveCalls index usage).result = .ok resolved)
    : ∃ bound outcomes, unit.Accounting index usage.calls outcomes ⟨usage.range, []⟩ bound
      ∧ bound.collapse = .ok resolved := by
  simp only [resolveCalls, Traced.result_bind, Traced.result_liftM] at result
  obtain ⟨bound, binding, collapsed⟩ := exists_of_bind_eq_ok result
  obtain ⟨outcomes, accounting⟩ :=
    exists_accounting_of_resolveOnto trusted ⟨wf.range, by simp, by simp⟩
      (fun call member => ⟨wf.offset call member, wf.moved call member⟩) binding
  exact ⟨bound, outcomes, accounting, collapsed⟩

theorem Accounting.resolves (accounting : unit.Accounting index calls outcomes before after)
    (member : call ∈ calls)
    : unit.Resolves index call after := by
  obtain ⟨outcome, listed, becomes⟩ := exists_answer accounting.becomes member
  have kept {forward : Forward Callee} (isLeft : outcome = .inl forward)
      : forward ∈ after.calls := by
    rw [accounting.left]
    exact List.mem_append_right _ (List.mem_filterMap.mpr ⟨outcome, listed, isLeft ▸ rfl⟩)
  cases becomes with
  | bound binding => exact .bound binding (kept rfl)
  | unresolved outside missing => exact .unresolved outside missing (kept rfl)
  | recorded outside record added =>
      refine .recorded outside record added (accounting.covers _ ?_)
      exact List.mem_filterMap.mpr ⟨_, listed, rfl⟩

theorem Accounting.origin (accounting : unit.Accounting index calls outcomes before after)
    {kept : Forward Callee} (member : kept ∈ after.calls)
    : kept ∈ before.calls ∨ unit.Origin calls kept := by
  rw [accounting.left, List.mem_append] at member
  refine member.imp_right fun left => ?_
  obtain ⟨outcome, listed, isLeft⟩ := List.mem_filterMap.mp left
  cases Sum.getLeft?_eq_some_iff.mp isLeft
  obtain ⟨call, inside, becomes⟩ := exists_input accounting.becomes listed
  cases becomes with
  | bound binding => exact ⟨call, inside, rfl, rfl, Or.inr ⟨_, binding, rfl⟩⟩
  | unresolved outside _ => exact ⟨call, inside, rfl, rfl, Or.inl ⟨rfl, outside⟩⟩

/-- Without an index nothing joins the range. -/
theorem Accounting.range_eq (accounting : unit.Accounting none calls outcomes before after)
    : after.range = before.range := by
  refine accounting.same (List.filterMap_eq_nil_iff.mpr fun outcome listed => ?_)
  obtain ⟨call, _, becomes⟩ := exists_input accounting.becomes listed
  cases becomes with
  | bound _ => rfl
  | unresolved _ _ => rfl
  | recorded _ record _ => cases record

/-- Every call that was resolved has been looked up in the module. -/
theorem Resolves.exists_binding {index : Option SummaryIndex} {call : Forward Global}
    {usage : Usage Callee} (resolves : unit.Resolves index call usage)
    : ∃ target, unit.boundFunction call.callee = .ok target := by
  cases resolves with
  | bound binding _ => exact ⟨_, binding⟩
  | recorded outside _ _ _ => exact ⟨_, outside⟩
  | unresolved outside _ _ => exact ⟨_, outside⟩

theorem exists_binding_of_resolveCalls {index : Option SummaryIndex} {usage : Usage Global}
    {resolved : Usage Callee} (trusted : RangesWellFormed index)
    (wf : usage.WellFormed unit.pointerWidth.bits)
    (result : (unit.resolveCalls index usage).result = .ok resolved) {call : Forward Global}
    (member : call ∈ usage.calls)
    : ∃ target, unit.boundFunction call.callee = .ok target := by
  obtain ⟨_, _, accounting, _⟩ := exists_accounting_of_resolveCalls trusted wf result
  exact (accounting.resolves member).exists_binding

/-- Resolving the calls of a usage accounts for them all, or makes it unknown and drops them. -/
theorem resolveCalls_spec {index : Option SummaryIndex} {usage : Usage Global}
    {resolved : Usage Callee} (trusted : RangesWellFormed index)
    (wf : usage.WellFormed unit.pointerWidth.bits)
    (result : (unit.resolveCalls index usage).result = .ok resolved)
    : resolved.WellFormed unit.pointerWidth.bits ∧ usage.range ⊆ resolved.range
      ∧ ((resolved.range.IsAll ∧ resolved.calls = []
          ∧ ∃ call ∈ usage.calls, unit.boundFunction call.callee = .ok none)
        ∨ ((index = none → resolved.range = usage.range)
          ∧ (∀ call ∈ usage.calls, unit.Resolves index call resolved)
          ∧ ∀ kept ∈ resolved.calls,
            kept.callee ≠ .unresolved ∧ unit.Origin usage.calls kept)) := by
  obtain ⟨bound, _, accounting, result⟩ := exists_accounting_of_resolveCalls trusted wf result
  have origin (kept : Forward Callee) (member : kept ∈ bound.calls)
      : unit.Origin usage.calls kept :=
    (accounting.origin member).resolve_left List.not_mem_nil
  unfold Usage.collapse at result
  split at result
  · rename_i lost
    obtain ⟨unknown, forgotten, result⟩ := exists_of_bind_eq_ok result
    cases result
    obtain ⟨wfUnknown, all⟩ := accounting.wellFormed.of_forget forgotten
    obtain ⟨kept, member, unresolved⟩ := List.any_eq_true.mp lost
    obtain ⟨call, inside, _, _, ⟨_, outside⟩ | ⟨func, _, target⟩⟩ := origin kept member
    · refine ⟨⟨wfUnknown.range, by simp, by simp⟩, ?_, Or.inl ⟨all, rfl, call, inside, outside⟩⟩
      exact Range.subset_of_isAll all (wf.range.bits_eq.trans wfUnknown.range.bits_eq.symm)
    · rw [beq_iff_eq] at unresolved
      cases target.symm.trans unresolved
  · rename_i known
    cases result
    refine ⟨accounting.wellFormed, accounting.grows, Or.inr ⟨?_,
      fun call member => accounting.resolves member, fun kept member => ⟨?_, origin kept member⟩⟩⟩
    · rintro rfl
      exact accounting.range_eq
    intro unresolved
    exact known (List.any_eq_true.mpr ⟨kept, member, beq_iff_eq.mpr unresolved⟩)

/-- Where a usage stays known, its calls out of the module have something on record, which its range
includes from all offsets of the call.
-/
theorem exists_record_of_resolved {index : Option SummaryIndex} {usage : Usage Global}
    {resolved : Usage Callee} {call : Forward Global} (trusted : RangesWellFormed index)
    (wf : usage.WellFormed unit.pointerWidth.bits)
    (result : (unit.resolveCalls index usage).result = .ok resolved)
    (known : ¬ resolved.range.IsAll) (member : call ∈ usage.calls)
    (outside : unit.boundFunction call.callee = .ok none)
    : ∃ access, unit.recordedAccess? index call.callee call.param = .ok (some access)
      ∧ ∀ distance position, call.offset.Holds distance → access.Holds position
        → resolved.range.Holds (distance + position) := by
  obtain ⟨wfResolved, _, resolves⟩ := resolveCalls_spec trusted wf result
  obtain ⟨_, accounts, kept⟩ := resolves.resolve_left fun lost => known lost.1
  cases accounts call member with
  | bound binding _ => cases outside.symm.trans binding
  | unresolved _ _ inside => exact absurd rfl (kept _ inside).1
  | @recorded access sum _ record summed inside =>
      refine ⟨access, record, fun distance position moved held => ?_⟩
      obtain ⟨_, summedAgain, proper, meets⟩ :=
        addSigned_recorded trusted (wf.offset call member) record
      cases summed.symm.trans summedAgain
      have width : sum.bits = resolved.range.bits :=
        meets.ofWidth.bits_eq.trans (proper.bits_eq.trans wfResolved.range.bits_eq.symm)
      have allowed := (meets.covers held moved).of_subset meets.ofWidth.wellFormed
        wfResolved.range.wellFormed width inside
      rw [Int.add_comm]
      exact allowed.resolve_left known

/-- Resolving the calls of a usage keeps what it says. -/
theorem resolveCalls_explains {place : Place} {usage : Usage Global} {resolved : Usage Callee}
    (explains : unit.Explains possible Eq place usage)
    (result : (unit.resolveCalls none usage).result = .ok resolved)
    : unit.Explains possible unit.BindsTo place resolved := by
  obtain ⟨wfResolved, _, ⟨all, _⟩ | ⟨same, resolves, known⟩⟩ :=
    resolveCalls_spec rangesWellFormed_none explains.wellFormed result
  · exact ⟨wfResolved, Or.inl all⟩
  refine ⟨wfResolved, explains.uses.imp (fun all => same rfl ▸ all) fun accounts use used => ?_⟩
  have accounted := accounts use used
  refine ⟨accounted.stays, accounted.alive, ?_, ?_⟩
  · intro extent accesses root offset bytes index points spans short inside
    rw [same rfl]
    exact accounted.access accesses points spans short inside
  · intro callee param passes
    obtain ⟨call, member, rfl, number, covers⟩ := accounted.pass passes
    cases resolves call member with
    | bound binding kept => exact ⟨_, kept, ⟨_, binding, rfl⟩, number, covers⟩
    | recorded _ record _ _ => cases record
    | unresolved _ _ kept => exact absurd rfl (known _ kept).1

/-- The parameters of a function with their calls resolved. -/
theorem resolveParams_related {index : Option SummaryIndex} {usages : FunctionUsage Global}
    {info : FunctionUsage Callee} (result : (unit.resolveParams index usages).result = .ok info)
    : usages.params.Related (fun usage resolved =>
        (unit.resolveCalls index usage).result = .ok resolved) info.params := by
  simp only [resolveParams, Traced.result_bind, Traced.result_mapM, Traced.result_pure] at result
  obtain ⟨params, resolved, result⟩ := exists_of_bind_eq_ok result
  cases result
  have related : List.Forall₂
      (fun (entry : UInt32 × Usage Global) (answer : UInt32 × Usage Callee) =>
        entry.1 = answer.1 ∧ (unit.resolveCalls index entry.2).result = .ok answer.2)
      usages.params.entries params := by
    refine (mapM_eq_ok_iff.mp resolved).imp fun entry answer step => ?_
    obtain ⟨usage, resolution, step⟩ := exists_of_bind_eq_ok step
    cases step
    exact ⟨rfl, resolution⟩
  have keys : params.map (·.1) = usages.params.keys :=
    map_eq_map_of_forall₂ (fun _ _ h => h.1.symm) related
  rw [Table.Related, Table.entries_ofList (keys ▸ usages.params.keys_ascending)]
  exact related

/-- Resolving all parameters of a function keeps what they say. -/
theorem resolveParams_explains {id : FunctionId} {usages : FunctionUsage Global}
    {info : FunctionUsage Callee} (explains : unit.ExplainsParams possible Eq id usages.params)
    (result : (unit.resolveParams none usages).result = .ok info)
    : unit.ExplainsParams possible unit.BindsTo id info.params := by
  intro answer member
  obtain ⟨entry, inside, same, resolution⟩ := exists_input (resolveParams_related result) member
  obtain ⟨func, param, found, taken, number, explained⟩ := explains entry inside
  exact ⟨func, param, found, taken, same.symm.trans number,
    resolveCalls_explains explained resolution⟩

end StackBounds.Module
