import StackBounds.Proofs.Solver.FixedPoint

/-! As long as no range is made full by force, the solver computes the least solution: the
ranges that every closed assignment contains. The order of the visits then makes no difference.
-/

namespace StackBounds

/-- The functions with other ranges for their parameters. -/
def Functions.assign (functions : Functions) (ranges : Callee → UInt32 → Range) : Functions :=
  functions.mapWithKey fun func info =>
    { info with params := info.params.mapWithKey fun param usage =>
        { usage with range := ranges func param } }

theorem Functions.param?_assign (functions : Functions) (ranges : Callee → UInt32 → Range)
    (func : Callee) (param : UInt32)
    : (functions.assign ranges).param? func param
      = (functions.param? func param).map fun usage =>
          { usage with range := ranges func param } := by
  rw [param?, param?, assign, Table.get?_mapWithKey]
  cases functions.get? func with
  | none => rfl
  | some info => simp only [Option.map_some, Option.bind_some, Table.get?_mapWithKey]

/-- A usage with other names for the callees. -/
def Usage.renamed (rename : Callee → Callee) (usage : Usage Callee) : Usage Callee :=
  { usage with calls := usage.calls.map fun call => { call with callee := rename call.callee } }

/-- The functions have the same usages under other names. -/
def Functions.Renames (rename : Callee → Callee) (functions other : Functions) : Prop :=
  ∀ func param,
    other.param? (rename func) param = (functions.param? func param).map (·.renamed rename)

theorem Functions.renames_id {functions other : Functions}
    (same : ∀ func param, other.param? func param = functions.param? func param)
    : functions.Renames id other := by
  intro func param
  rw [id, same]
  cases functions.param? func param with
  | none => rfl
  | some usage => exact congrArg (fun calls => some (Usage.mk usage.range calls)) (by simp)

theorem Functions.WellFormed.assign {bits : UInt32} {functions : Functions}
    (wf : functions.WellFormed bits) {ranges : Callee → UInt32 → Range}
    (proper : ∀ func param, (ranges func param).OfWidth bits)
    : (functions.assign ranges).WellFormed bits := by
  refine ⟨fun func param usage found => ?_⟩
  rw [Functions.param?_assign, Option.map_eq_some_iff] at found
  obtain ⟨earlier, foundEarlier, rfl⟩ := found
  have before := wf.usages func param earlier foundEarlier
  exact ⟨proper func param, before.offset, before.moved⟩

namespace Solver

open Relation (TransGen ReflTransGen)

/-- Every parameter stays inside the assigned range. -/
def Below (functions : Functions) (ranges : Callee → UInt32 → Range) : Prop :=
  ∀ func param usage, functions.param? func param = some usage → usage.range ⊆ ranges func param

/-- The accessed ranges do not pass the end of the signed numbers. -/
def StraightRanges (functions : Functions) : Prop :=
  ∀ func param usage, functions.param? func param = some usage → usage.range.Straight

theorem StraightRanges.of_entries {functions : Functions}
    (straight : ∀ entry ∈ functions.entries, ∀ param ∈ entry.2.params.entries,
      param.2.range.Straight)
    : StraightRanges functions := by
  intro func param usage found
  obtain ⟨info, foundInfo, foundUsage⟩ := Option.bind_eq_some_iff.mp found
  exact straight _ (Table.mem_of_get? foundInfo) _ (Table.mem_of_get? foundUsage)

theorem StraightRanges.countUpdate {functions : Functions} (straight : StraightRanges functions)
    (func : Callee)
    : StraightRanges (functions.countUpdate func) := by
  intro other param usage found
  rw [Functions.param?_countUpdate] at found
  exact straight other param usage found

/-- An assignment of ranges that contains the known ones and covers every call. -/
structure Solution (solver : Solver) (bits : UInt32) (functions : Functions)
    (ranges : Callee → UInt32 → Range)
    : Prop where
  ofWidth : ∀ func param, (ranges func param).OfWidth bits
  straight : ∀ func param, (ranges func param).Straight
  contains : Below functions ranges
  closed : solver.Settled (functions.assign ranges)

/-- A step that forces nothing: a range grows just as far as it has to, or a visit is counted. -/
inductive Gentle (solver : Solver) : Functions → Functions → Prop
  | widen {func before after} (widens : solver.Widens func false before after)
    : solver.Gentle before after
  | count {func info functions} (found : functions.get? func = some info)
    (fits : info.updates.toNat + 1 < UInt32.size)
    : solver.Gentle functions (functions.countUpdate func)

/-- The ranges of the parameters as an assignment; missing parameters get the full set. -/
def rangesOf (bits : UInt32) (functions : Functions) (func : Callee) (param : UInt32) : Range :=
  ((functions.param? func param).map (·.range)).getD (Range.top bits)

theorem rangesOf_of_some {bits : UInt32} {functions : Functions} {func : Callee} {param : UInt32}
    {usage : Usage Callee} (found : functions.param? func param = some usage)
    : rangesOf bits functions func param = usage.range := by
  rw [rangesOf, found, Option.map_some, Option.getD_some]

/-- What a call accesses depends on its offset and the range of the callee's parameter only. -/
theorem access_eq_of_range {solver : Solver} {first second : Functions}
    {call other : Forward Callee} (offset : call.offset = other.offset)
    (same : (first.param? call.callee call.param).map (·.range)
      = (second.param? other.callee other.param).map (·.range))
    : solver.access first call = solver.access second other := by
  unfold access
  cases foundFirst : first.param? call.callee call.param <;>
    cases foundSecond : second.param? other.callee other.param <;>
      simp_all

theorem access_congr {solver : Solver} {first second : Functions} {call : Forward Callee}
    (same : (first.param? call.callee call.param).map (·.range)
      = (second.param? call.callee call.param).map (·.range))
    : solver.access first call = solver.access second call :=
  access_eq_of_range rfl same

/-- Solutions see the usages only: not how they are stored, nor under which names. -/
theorem Solution.renamed {solver : Solver} {bits : UInt32} {rename : Callee → Callee}
    {functions other : Functions} {ranges : Callee → UInt32 → Range}
    (renames : functions.Renames rename other) (solution : solver.Solution bits other ranges)
    : solver.Solution bits functions fun func param => ranges (rename func) param := by
  have found {func : Callee} {param : UInt32} {usage : Usage Callee}
      (found : functions.param? func param = some usage)
      : other.param? (rename func) param = some (usage.renamed rename) := by
    rw [renames, found, Option.map_some]
  refine ⟨fun func => solution.ofWidth (rename func), fun func => solution.straight (rename func),
    ?_, ?_⟩
  · intro func param usage foundUsage
    exact solution.contains (rename func) param (usage.renamed rename) (found foundUsage)
  · intro func param usage foundUsage call member
    rw [Functions.param?_assign, Option.map_eq_some_iff] at foundUsage
    obtain ⟨start, foundStart, rfl⟩ := foundUsage
    have assigned : (other.assign ranges).param? (rename func) param
        = some { start.renamed rename with range := ranges (rename func) param } := by
      rw [Functions.param?_assign, found foundStart, Option.map_some]
    obtain ⟨access, result, inside⟩ := solution.closed (rename func) param _ assigned
      { call with callee := rename call.callee } (List.mem_map_of_mem member)
    refine ⟨access, ?_, inside⟩
    rw [← result]
    refine access_eq_of_range rfl ?_
    rw [Functions.param?_assign, Functions.param?_assign, renames]
    cases functions.param? call.callee call.param <;> rfl

section Gentleness

variable {bits : UInt32} {config : Config} {solver : Solver} {functions before after : Functions}
  (made : make bits config = .ok solver)

include made

theorem gentle_grows (wf : before.WellFormed bits) (step : solver.Gentle before after)
    : after.WellFormed bits ∧ before.Grows after := by
  cases step with
  | widen widens =>
      have widened := widens.widened made wf
      exact ⟨widened.sized, widened.grows⟩
  | count found fits =>
      have grows := Functions.grows_countUpdate found fits
      refine ⟨wf.of_grows grows fun func param usage foundUsage => ?_, grows⟩
      rw [Functions.param?_countUpdate] at foundUsage
      exact (wf.usages _ _ _ foundUsage).range

theorem gentleChain_grows (wf : before.WellFormed bits)
    (chain : ReflTransGen solver.Gentle before after)
    : after.WellFormed bits ∧ before.Grows after := by
  induction chain with
  | refl => exact ⟨wf, Functions.Grows.refl before⟩
  | tail _ last ih =>
      obtain ⟨wfAfter, grows⟩ := gentle_grows made ih.1 last
      exact ⟨wfAfter, ih.2.trans grows⟩

/-- What a call accesses grows with the ranges. -/
theorem access_subset {call : Forward Callee} {access larger : Range}
    {ranges : Callee → UInt32 → Range} (wf : functions.WellFormed bits)
    (grows : functions.Grows before) (wfBefore : before.WellFormed bits)
    (proper : ∀ func param, (ranges func param).OfWidth bits) (below : Below before ranges)
    (offset : call.offset.OfWidth bits) (moved : ¬ call.offset.IsNone)
    (result : solver.access before call = .ok access)
    (largerResult : solver.access (functions.assign ranges) call = .ok larger)
    : access ⊆ larger := by
  cases found : functions.param? call.callee call.param with
  | none =>
      have missing : (functions.assign ranges).param? call.callee call.param = none := by
        rw [Functions.param?_assign, found, Option.map_none]
      rw [access_of_none made (grows.param?_none found), Except.ok.injEq] at result
      rw [access_of_none made missing, Except.ok.injEq] at largerResult
      rw [← result, ← largerResult]
      exact Range.subset_refl _
  | some usage =>
      obtain ⟨grown, foundGrown, _⟩ := grows.param?_some found
      have foundAssigned : (functions.assign ranges).param? call.callee call.param
          = some { usage with range := ranges call.callee call.param } := by
        rw [Functions.param?_assign, found, Option.map_some]
      obtain ⟨sum, summed, meets⟩ := access_of_some made wfBefore offset moved foundGrown
      obtain ⟨largerSum, largerSummed, largerMeets⟩ :=
        access_of_some made (wf.assign proper) offset moved foundAssigned
      cases result.symm.trans summed
      cases largerResult.symm.trans largerSummed
      have range := (wfBefore.usages _ _ _ foundGrown).range
      have bound := proper call.callee call.param
      exact meets.mono largerMeets range.wellFormed bound.wellFormed
        (range.bits_eq.trans bound.bits_eq.symm) (below _ _ _ foundGrown)

/-- A gentle step stays below every solution. Witness: the access is inside by closure, and the
cover of two parts of a straight range stays inside it.
-/
theorem gentle_below {ranges : Callee → UInt32 → Range} (wf : functions.WellFormed bits)
    (solution : solver.Solution bits functions ranges) (grows : functions.Grows before)
    (wfBefore : before.WellFormed bits) (below : Below before ranges)
    (step : solver.Gentle before after)
    : Below after ranges := by
  cases step with
  | count found fits =>
      intro func param usage foundUsage
      rw [Functions.param?_countUpdate] at foundUsage
      exact below func param usage foundUsage
  | @widen func _ _ widens =>
      obtain ⟨param, usage, call, access, range, found, member, result, -, grown, -, -, rfl⟩ :=
        widens_cases made wfBefore widens
      intro other parameter later foundLater
      by_cases same : other = func ∧ parameter = param
      · obtain ⟨rfl, rfl⟩ := same
        rw [Functions.param?_setRange_self range found, Option.some.injEq] at foundLater
        subst foundLater
        have known := wfBefore.usages _ _ _ found
        have bound := solution.ofWidth other parameter
        obtain ⟨start, foundStart, growsStart⟩ := grows.exists_param? found
        have assigned : (functions.assign ranges).param? other parameter
            = some { start with range := ranges other parameter } := by
          rw [Functions.param?_assign, foundStart, Option.map_some]
        obtain ⟨larger, largerResult, inside⟩ :=
          solution.closed other parameter _ assigned call (growsStart.calls ▸ member)
        have smaller := access_subset made wf grows wfBefore solution.ofWidth below
          (known.offset call member) (known.moved call member) result largerResult
        obtain ⟨_, hasAccess, proper⟩ := access_spec made wfBefore
          (wfBefore.usages _ _ _ found) member
        cases result.symm.trans hasAccess
        exact Range.cover_least known.range.wellFormed proper.wellFormed
          (known.range.bits_eq.trans proper.bits_eq.symm) grown bound.wellFormed
          (bound.bits_eq.trans known.range.bits_eq.symm) (solution.straight other parameter)
          (below _ _ _ found) (Range.subset_trans smaller inside)
      · rw [Functions.param?_setRange_of_ne before range same] at foundLater
        exact below other parameter later foundLater

/-- Widenings keep ranges straight, since a cover is straight and so is the full set. -/
theorem widens_straight {func : Callee} {toFull : Bool} (wf : before.WellFormed bits)
    (straight : StraightRanges before) (widens : solver.Widens func toFull before after)
    : StraightRanges after := by
  obtain ⟨param, usage, call, access, range, found, member, result, -, grown, -, -, rfl⟩ :=
    widens_cases made wf widens
  intro other parameter later foundLater
  by_cases same : other = func ∧ parameter = param
  · obtain ⟨rfl, rfl⟩ := same
    rw [Functions.param?_setRange_self range found, Option.some.injEq] at foundLater
    subst foundLater
    have known := (wf.usages _ _ _ found).range
    cases toFull with
    | true =>
        have valid := valid_of_make made
        rw [growth, if_pos rfl, known.bits_eq, Range.full_eq valid, Except.ok.injEq] at grown
        exact grown ▸ Range.straight_top valid
    | false =>
        obtain ⟨_, hasAccess, proper⟩ := access_spec made wf
          (wf.usages _ _ _ found) member
        cases result.symm.trans hasAccess
        obtain ⟨_, covered, -, keeps, -⟩ := Range.cover_spec known.wellFormed proper.wellFormed
          (known.bits_eq.trans proper.bits_eq.symm)
        cases covered.symm.trans grown
        exact keeps
  · rw [Functions.param?_setRange_of_ne before range same] at foundLater
    exact straight other parameter later foundLater

theorem gentle_straight (wf : before.WellFormed bits) (straight : StraightRanges before)
    (step : solver.Gentle before after)
    : StraightRanges after := by
  cases step with
  | count _ _ => exact straight.countUpdate _
  | widen widens => exact widens_straight made wf straight widens

/-- The widenings of a visit keep ranges straight. -/
theorem widenings_straight {func : Callee} {toFull : Bool} (wf : functions.WellFormed bits)
    (straight : StraightRanges functions)
    (chain : ReflTransGen (solver.Widens func toFull) functions after)
    : StraightRanges after := by
  induction chain with
  | refl => exact straight
  | tail earlier widens ih =>
      exact widens_straight made (Widened.of_chain made wf earlier).sized ih widens

/-- A whole run keeps ranges straight. -/
theorem chain_straight (wf : functions.WellFormed bits) (straight : StraightRanges functions)
    (chain : ReflTransGen solver.Updates functions after)
    : StraightRanges after := by
  induction chain with
  | refl => exact straight
  | tail earlier last ih =>
      obtain ⟨func, info, grown, _, widenings, _, rfl⟩ := last
      have wfMiddle := (sized_of_chain made wf earlier).1
      exact (widenings_straight made wfMiddle ih widenings.to_reflTransGen).countUpdate func

theorem gentleChain_below {ranges : Callee → UInt32 → Range} (wf : functions.WellFormed bits)
    (solution : solver.Solution bits functions ranges)
    (chain : ReflTransGen solver.Gentle functions after)
    : Below after ranges := by
  induction chain with
  | refl => exact solution.contains
  | tail earlier last ih =>
      obtain ⟨wfMiddle, grows⟩ := gentleChain_grows made wf earlier
      exact gentle_below made wf solution grows wfMiddle ih last

theorem gentleChain_straight (wf : functions.WellFormed bits) (straight : StraightRanges functions)
    (chain : ReflTransGen solver.Gentle functions after)
    : StraightRanges after := by
  induction chain with
  | refl => exact straight
  | tail earlier last ih =>
      exact gentle_straight made (gentleChain_grows made wf earlier).1 ih last

-----------------------------------------------------------------------------------------
-- Runs without force
-----------------------------------------------------------------------------------------

/-- Widening the parameters of a function leaves its count as it is. -/
theorem exists_swept {func : Callee} {toFull : Bool} {info : FunctionUsage Callee}
    (wf : functions.WellFormed bits) (found : functions.get? func = some info)
    (chain : ReflTransGen (solver.Widens func toFull) functions after)
    : ∃ swept, after.get? func = some swept ∧ swept.updates = info.updates := by
  have count := (Widened.of_chain made wf chain).counts func
  rw [Functions.updates?, Functions.updates?, found, Option.map_some, Option.map_eq_some_iff]
    at count
  exact count

/-- A counted visit that widens just as far as it has to is a chain of gentle steps. -/
theorem gentleChain_of_widenings {func : Callee} {info : FunctionUsage Callee}
    (wf : functions.WellFormed bits) (found : functions.get? func = some info)
    (chain : ReflTransGen (solver.Widens func false) functions after)
    (fits : info.updates.toNat + 1 < UInt32.size)
    : ReflTransGen solver.Gentle functions (after.countUpdate func) := by
  obtain ⟨swept, foundSwept, same⟩ := exists_swept made wf found chain
  have steps : ReflTransGen solver.Gentle functions after :=
    chain.lift id fun _ _ widens => Gentle.widen widens
  exact steps.tail (.count foundSwept (same.symm ▸ fits))

/-- Counted visits force nothing when no function ends up counted more than once beyond the
limit. Witness: a forced widening of a function is counted after the limit has been passed, and
counts never fall.
-/
theorem gentleChain_of_updates (wf : functions.WellFormed bits)
    (chain : ReflTransGen solver.Updates functions after)
    (counts : ∀ func info, after.get? func = some info
      → info.updates.toNat ≤ solver.limit.toNat + 1)
    : ReflTransGen solver.Gentle functions after := by
  induction chain with
  | refl => exact .refl
  | @tail middle _ earlier last ih =>
      have wfMiddle := (sized_of_chain made wf earlier).1
      have growsLast := (last.grows made wfMiddle).2
      obtain ⟨func, info, grown, found, widenings, fits, rfl⟩ := last
      have middleCounts (other : Callee) (before : FunctionUsage Callee)
          (foundBefore : middle.get? other = some before)
          : before.updates.toNat ≤ solver.limit.toNat + 1 := by
        obtain ⟨later, foundLater, growsInfo⟩ := Table.Related.get?_some growsLast foundBefore
        exact Nat.le_trans (UInt32.le_iff_toNat_le.mp growsInfo.updates)
          (counts other later foundLater)
      obtain ⟨swept, foundSwept, same⟩ := exists_swept made wfMiddle found widenings.to_reflTransGen
      have gentle : decide (solver.limit < info.updates) = false := by
        have bound := counts func swept.countUpdate
          (by rw [Functions.countUpdate, Table.get?_modify_self, foundSwept, Option.map_some])
        rw [Functions.toNat_updates_countUpdate (same.symm ▸ fits), same] at bound
        rw [decide_eq_false_iff_not, UInt32.lt_iff_toNat_lt]
        omega
      rw [gentle] at widenings
      exact (ih middleCounts).trans
        (gentleChain_of_widenings made wfMiddle found widenings.to_reflTransGen fits)

/-- Settled functions that grew out of others give a solution for them. -/
theorem solution_of_settled (wfAfter : after.WellFormed bits) (straight : StraightRanges after)
    (grows : functions.Grows after)
    (settled : solver.Settled after)
    : solver.Solution bits functions (rangesOf bits after) := by
  have valid := valid_of_make made
  refine ⟨?_, ?_, ?_, ?_⟩
  · intro func param
    cases found : after.param? func param with
    | none =>
        rw [rangesOf, found]
        exact Range.ofWidth_top valid
    | some usage =>
        rw [rangesOf_of_some found]
        exact (wfAfter.usages _ _ _ found).range
  · intro func param
    cases found : after.param? func param with
    | none =>
        rw [rangesOf, found]
        exact Range.straight_top valid
    | some usage =>
        rw [rangesOf_of_some found]
        exact straight _ _ _ found
  · intro func param usage found
    obtain ⟨grown, foundGrown, growsUsage⟩ := grows.param?_some found
    rw [rangesOf_of_some foundGrown]
    exact growsUsage.range
  · intro func param usage found call member
    rw [Functions.param?_assign, Option.map_eq_some_iff] at found
    obtain ⟨start, foundStart, rfl⟩ := found
    obtain ⟨grown, foundGrown, growsUsage⟩ := grows.param?_some foundStart
    obtain ⟨access, result, inside⟩ :=
      settled func param grown foundGrown call (growsUsage.calls.symm ▸ member)
    refine ⟨access, ?_, ?_⟩
    · rw [← result]
      apply access_congr
      rw [Functions.param?_assign]
      cases foundCallee : functions.param? call.callee call.param with
      | none => rw [grows.param?_none foundCallee, Option.map_none]
      | some target =>
          obtain ⟨later, foundLater, _⟩ := grows.param?_some foundCallee
          rw [foundLater, Option.map_some, Option.map_some, Option.map_some,
            rangesOf_of_some foundLater]
    · rw [rangesOf_of_some foundGrown]
      exact inside

/-- Gentle steps end in the same ranges, wherever the same usages are stored and under whatever
names. Witness: each end is a solution of the other start, and gentle steps stay below it.
-/
theorem ranges_eq_of_renamed {other otherAfter : Functions} {rename back : Callee → Callee}
    (wf : functions.WellFormed bits) (wfOther : other.WellFormed bits)
    (renames : functions.Renames rename other) (renamesBack : other.Renames back functions)
    (inverse : ∀ func, back (rename func) = func) (straight : StraightRanges functions)
    (chain : ReflTransGen solver.Gentle functions after) (settled : solver.Settled after)
    (otherChain : ReflTransGen solver.Gentle other otherAfter)
    (otherSettled : solver.Settled otherAfter) (func : Callee) (param : UInt32)
    : (otherAfter.param? (rename func) param).map (·.range)
      = (after.param? func param).map (·.range) := by
  have otherStraight : StraightRanges other := by
    intro func param usage found
    apply straight (back func) param (usage.renamed back)
    rw [renamesBack, found, Option.map_some]
  obtain ⟨wfAfter, grows⟩ := gentleChain_grows made wf chain
  obtain ⟨wfOtherAfter, otherGrows⟩ := gentleChain_grows made wfOther otherChain
  have solution := solution_of_settled made wfAfter
    (gentleChain_straight made wf straight chain) grows settled
  have otherSolution := solution_of_settled made wfOtherAfter
    (gentleChain_straight made wfOther otherStraight otherChain) otherGrows otherSettled
  have below := gentleChain_below made wf (otherSolution.renamed renames) chain
  have otherBelow := gentleChain_below made wfOther (solution.renamed renamesBack) otherChain
  have start := renames func param
  cases found : functions.param? func param with
  | none =>
      rw [found, Option.map_none] at start
      rw [grows.param?_none found, otherGrows.param?_none start]
  | some usage =>
      rw [found, Option.map_some] at start
      obtain ⟨grown, foundGrown, _⟩ := grows.param?_some found
      obtain ⟨otherGrown, foundOther, _⟩ := otherGrows.param?_some start
      have forth : grown.range ⊆ otherGrown.range := by
        rw [← rangesOf_of_some foundOther]
        exact below func param grown foundGrown
      have back : otherGrown.range ⊆ grown.range := by
        rw [← rangesOf_of_some foundGrown, ← inverse func]
        exact otherBelow (rename func) param otherGrown foundOther
      have range := (wfAfter.usages _ _ _ foundGrown).range
      have otherRange := (wfOtherAfter.usages _ _ _ foundOther).range
      rw [foundGrown, foundOther, Option.map_some, Option.map_some,
        Range.eq_of_subset_of_subset otherRange.wellFormed range.wellFormed
          (otherRange.bits_eq.trans range.bits_eq.symm) back forth]

/-- A run whose counts stay within one of the limit is a chain of gentle steps. -/
theorem gentleChain_of_run {final : Functions} {verify : Bool} (wf : functions.WellFormed bits)
    (result : (solver.run verify functions).result = .ok final)
    (counts : ∀ func info, final.get? func = some info
      → info.updates.toNat ≤ config.maxIterations.toNat + 1)
    : ReflTransGen solver.Gentle functions final ∧ solver.Settled final := by
  obtain ⟨chain, absorbed⟩ := run_answer made wf result
  rw [← limit_of_make made] at counts
  exact ⟨gentleChain_of_updates made wf chain counts, absorbed.settled⟩

end Gentleness

/-- As long as no function was counted more than once beyond the limit, the final ranges are the
least solution: they solve the calls and lie inside every straight solution. So they are the
same for every other order of the visits, and for every other order in which the functions and
parameters are stored.
-/
theorem run_least_solution {bits : UInt32} {config : Config} {solver : Solver}
    {functions final : Functions} {verify : Bool} (made : make bits config = .ok solver)
    (wf : functions.WellFormed bits) (straight : StraightRanges functions)
    (result : (solver.run verify functions).result = .ok final)
    (counts : ∀ func info, final.get? func = some info
      → info.updates.toNat ≤ config.maxIterations.toNat + 1)
    : solver.Solution bits functions (rangesOf bits final)
      ∧ (∀ ranges, solver.Solution bits functions ranges → Below final ranges)
      ∧ ∀ other otherFinal, other.WellFormed bits
        → (∀ func param, other.param? func param = functions.param? func param)
        → ((ReflTransGen solver.Gentle other otherFinal ∧ solver.Settled otherFinal)
          ∨ ∃ otherVerify, (solver.run otherVerify other).result = .ok otherFinal
            ∧ ∀ func info, otherFinal.get? func = some info
              → info.updates.toNat ≤ config.maxIterations.toNat + 1)
        → ∀ func param, (otherFinal.param? func param).map (·.range)
          = (final.param? func param).map (·.range) := by
  obtain ⟨chain, settled⟩ := gentleChain_of_run made wf result counts
  obtain ⟨wfFinal, grows⟩ := gentleChain_grows made wf chain
  refine ⟨?_, fun ranges solution => gentleChain_below made wf solution chain, ?_⟩
  · exact solution_of_settled made wfFinal (gentleChain_straight made wf straight chain) grows
      settled
  · intro other otherFinal wfOther same reached
    have otherReached : ReflTransGen solver.Gentle other otherFinal
        ∧ solver.Settled otherFinal := by
      rcases reached with steps | ⟨otherVerify, otherResult, otherCounts⟩
      · exact steps
      · exact gentleChain_of_run made wfOther otherResult otherCounts
    have back := Functions.renames_id fun func param => (same func param).symm
    exact ranges_eq_of_renamed made wf wfOther (Functions.renames_id same) back (fun _ => rfl)
      straight chain settled otherReached.1 otherReached.2

/-- A function that hands its parameter down to one that hands it to itself, unmoved. -/
def handsDown (range : Range) (updates : UInt32) : Functions :=
  .ofList [
    (.function ⟨0⟩, ⟨.empty, .ofList [(0, ⟨range, [⟨.function ⟨1⟩, 0, ⟨64, 4, 5⟩⟩]⟩)], updates⟩),
    (.function ⟨1⟩,
      ⟨.empty, .ofList [(0, ⟨⟨64, 0, 8⟩, [⟨.function ⟨1⟩, 0, ⟨64, 0, 1⟩⟩]⟩)], 0⟩)]

theorem run_handsDown
    : ((Solver.mk (Range.top 64) 20).run false (handsDown ⟨64, 0, 4⟩ 0)).result
      = .ok (handsDown ⟨64, 0, 12⟩ 1) := by
  let solver : Solver := ⟨Range.top 64, 20⟩
  have visited : (solver.visitAll [.function ⟨0⟩, .function ⟨1⟩]
      ⟨handsDown ⟨64, 0, 4⟩ 0, []⟩).result = .ok ⟨handsDown ⟨64, 0, 12⟩ 1, []⟩ := rfl
  change (solver.run false _).result = _
  simp only [run, Traced.result_bind]
  change (solver.visitAll [.function ⟨0⟩, .function ⟨1⟩] _).result >>= _ = _
  rw [visited, ok_bind, result_drain_nil rfl, ok_bind]
  rfl

theorem run_least_solution_handsDown
    : make 64 ⟨20, false, false, true⟩ = .ok ⟨Range.top 64, 20⟩
      ∧ (handsDown ⟨64, 0, 4⟩ 0).WellFormed 64
      ∧ StraightRanges (handsDown ⟨64, 0, 4⟩ 0)
      ∧ ((Solver.mk (Range.top 64) 20).run false (handsDown ⟨64, 0, 4⟩ 0)).result
        = .ok (handsDown ⟨64, 0, 12⟩ 1)
      ∧ (Solver.mk (Range.top 64) 20).Solution 64 (handsDown ⟨64, 0, 4⟩ 0)
        (rangesOf 64 (handsDown ⟨64, 0, 12⟩ 1))
      ∧ ∀ ranges, (Solver.mk (Range.top 64) 20).Solution 64 (handsDown ⟨64, 0, 4⟩ 0) ranges
        → Below (handsDown ⟨64, 0, 12⟩ 1) ranges := by
  have made : make 64 ⟨20, false, false, true⟩ = .ok ⟨Range.top 64, 20⟩ := rfl
  have wf : (handsDown ⟨64, 0, 4⟩ 0).WellFormed 64 :=
    .of_entries (by decide)
  have straight : StraightRanges (handsDown ⟨64, 0, 4⟩ 0) := .of_entries (by decide)
  have counts (func : Callee) (info : FunctionUsage Callee)
      (found : (handsDown ⟨64, 0, 12⟩ 1).get? func = some info)
      : info.updates.toNat ≤ (20 : UInt32).toNat + 1 := by
    have each : ∀ entry ∈ (handsDown ⟨64, 0, 12⟩ 1).entries,
        entry.2.updates.toNat ≤ (20 : UInt32).toNat + 1 := by decide
    exact each _ (Table.mem_of_get? found)
  obtain ⟨solution, least, _⟩ := run_least_solution made wf straight run_handsDown counts
  exact ⟨made, wf, straight, run_handsDown, solution, least⟩

end Solver

end StackBounds
