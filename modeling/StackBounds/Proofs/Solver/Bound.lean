import StackBounds.Proofs.Solver.FixedPoint

/-! How often the solver widens a function. Beyond the limit every counted visit makes a parameter
full that was not, and only parameters with calls are ever widened; so the counter stays within one
of the limit and the number of these parameters.
-/

namespace StackBounds

namespace Table

variable {κ ν ω : Type} [Ord κ]

theorem total_le_total {first second : ν → Nat} (le : ∀ value, first value ≤ second value)
    (table : Table κ ν)
    : table.total first ≤ table.total second := by
  simp only [total]
  induction table.entries with
  | nil => exact Nat.le_refl 0
  | cons entry rest ih => exact Nat.add_le_add (le entry.2) ih

theorem total_one (table : Table κ ν) : table.total (fun _ => 1) = table.size := by
  simp only [total, size]
  induction table.entries with
  | nil => rfl
  | cons entry rest ih => rw [List.foldr_cons, ih, List.length_cons, Nat.add_comm]

theorem Related.total_eq {relation : ν → ω → Prop} {first : Table κ ν} {second : Table κ ω}
    (related : first.Related relation second) {weight : ν → Nat} {other : ω → Nat}
    (agree : ∀ x y, relation x y → other y = weight x)
    : second.total other = first.total weight := by
  simp only [Related, total] at related ⊢
  generalize first.entries = firsts, second.entries = seconds at related ⊢
  induction related with
  | nil => rfl
  | cons head _ ih => rw [List.foldr_cons, List.foldr_cons, ih, agree _ _ head.2]

end Table

-----------------------------------------------------------------------------------------
-- Saturated parameters
-----------------------------------------------------------------------------------------

/-- A usage that is handed on counts one. -/
def Usage.forwarding {γ : Type} (usage : Usage γ) : Nat := if usage.calls.isEmpty then 0 else 1

/-- A usage that is handed on and cannot grow any more counts one. -/
def Usage.saturation {γ : Type} (usage : Usage γ) : Nat :=
  if usage.range.knownFull then usage.forwarding else 0

namespace FunctionUsage

/-- How many parameters have at least one call. -/
def forwarding {γ : Type} (info : FunctionUsage γ) : Nat := info.params.total Usage.forwarding

/-- How many of the parameters with calls are full. -/
def saturation {γ : Type} (info : FunctionUsage γ) : Nat := info.params.total Usage.saturation

theorem saturation_le_forwarding {γ : Type} (info : FunctionUsage γ)
    : info.saturation ≤ info.forwarding := by
  refine Table.total_le_total (fun usage => ?_) info.params
  unfold Usage.saturation
  split <;> omega

theorem forwarding_le_size {γ : Type} (info : FunctionUsage γ)
    : info.forwarding ≤ info.params.size := by
  rw [← Table.total_one]
  refine Table.total_le_total (fun usage => ?_) info.params
  unfold Usage.forwarding
  split <;> omega

/-- Growth keeps the calls, so as many parameters have some. -/
theorem Grows.forwarding_eq {γ : Type} {before after : FunctionUsage γ}
    (grows : before.Grows after)
    : after.forwarding = before.forwarding := by
  refine grows.params.total_eq fun usage grown growth => ?_
  rw [Usage.forwarding, Usage.forwarding, growth.calls]

/-- What widenings leave of a function: the count and the number of parameters, and at least so
many more saturated parameters.
-/
structure Fills (more : Nat) (before after : FunctionUsage Callee) : Prop where
  updates : after.updates = before.updates
  size : after.params.size = before.params.size
  saturation : before.saturation + more ≤ after.saturation

/-- A parameter with calls that was not full gets a range. -/
theorem fills_setRange {info : FunctionUsage Callee} {param : UInt32} {usage : Usage Callee}
    {range : Range} {more : Nat} (found : info.params.get? param = some usage)
    (notFull : usage.range.knownFull = false)
    (filled : more ≤ Usage.saturation { usage with range })
    : info.Fills more (info.setRange param range) := by
  have exchange :=
    Table.total_modify Usage.saturation found fun usage => { usage with range := range }
  have share : usage.saturation = 0 := by simp [Usage.saturation, notFull]
  have counted :=
    Table.total_modify (fun _ => 1) found fun usage => { usage with range := range }
  rw [Table.total_one, Table.total_one] at counted
  refine ⟨rfl, ?_, ?_⟩
  · simp only [setRange]
    omega
  · simp only [FunctionUsage.saturation, setRange]
    omega

end FunctionUsage

namespace Solver

open Relation (TransGen ReflTransGen)

variable {solver : Solver} {func : Callee} {toFull : Bool} {before after : Functions}
  {info : FunctionUsage Callee}

/-- A widening saturates a parameter when it makes ranges full. -/
theorem fills_of_widens (found : before.get? func = some info)
    (widens : solver.Widens func toFull before after)
    : ∃ grown, after.get? func = some grown ∧ info.Fills toFull.toNat grown := by
  obtain ⟨param, usage, call, foundUsage, member, result⟩ := widens
  have foundParam : info.params.get? param = some usage := by
    rwa [Functions.param?, found, Option.bind_some] at foundUsage
  simp only [absorb, foundUsage] at result
  obtain ⟨access, _, result⟩ := exists_of_bind_eq_ok result
  obtain ⟨inside, compared, result⟩ := exists_of_bind_eq_ok result
  cases inside with
  | true => cases result
  | false =>
      simp only [Bool.false_eq_true, ↓reduceIte] at result
      obtain ⟨range, grown, result⟩ := exists_of_bind_eq_ok result
      cases result
      refine ⟨info.setRange param range, ?_, FunctionUsage.fills_setRange foundParam
        (Range.knownFull_of_contains compared) ?_⟩
      · rw [Functions.setRange, Table.get?_modify_self, found, Option.map_some]
      · cases toFull with
        | false => exact Nat.zero_le _
        | true =>
            have full := Range.knownFull_of_full grown
            have some : usage.calls ≠ [] := List.ne_nil_of_mem member
            simp [Usage.saturation, Usage.forwarding, full, some]

theorem get?_of_widens {other : Callee} (differ : other ≠ func)
    (widens : solver.Widens func toFull before after)
    : after.get? other = before.get? other := by
  obtain ⟨param, usage, call, foundUsage, _, result⟩ := widens
  simp only [absorb, foundUsage] at result
  obtain ⟨_, _, result⟩ := exists_of_bind_eq_ok result
  obtain ⟨inside, _, result⟩ := exists_of_bind_eq_ok result
  cases inside with
  | true => cases result
  | false =>
      simp only [Bool.false_eq_true, ↓reduceIte] at result
      obtain ⟨range, _, result⟩ := exists_of_bind_eq_ok result
      cases result
      exact Table.get?_modify_of_ne before differ _

/-- A chain of widenings saturates as many parameters as its first one at least. -/
theorem fills_of_chain (found : before.get? func = some info)
    (chain : TransGen (solver.Widens func toFull) before after)
    : ∃ grown, after.get? func = some grown ∧ info.Fills toFull.toNat grown := by
  induction chain with
  | single widens => exact fills_of_widens found widens
  | tail _ last ih =>
      obtain ⟨middle, foundMiddle, fills⟩ := ih
      obtain ⟨grown, foundGrown, more⟩ := fills_of_widens foundMiddle last
      refine ⟨grown, foundGrown, more.updates.trans fills.updates, more.size.trans fills.size, ?_⟩
      exact Nat.le_trans fills.saturation (Nat.le_trans (Nat.le_add_right _ _) more.saturation)

theorem get?_of_chain {other : Callee} (differ : other ≠ func)
    (chain : TransGen (solver.Widens func toFull) before after)
    : after.get? other = before.get? other := by
  induction chain with
  | single widens => exact get?_of_widens differ widens
  | tail _ last ih => rw [get?_of_widens differ last, ih]

-----------------------------------------------------------------------------------------
-- The counters
-----------------------------------------------------------------------------------------

/-- The counter of a function is at most one beyond the limit for each saturated parameter, and
there is room for all of them.
-/
structure Within (solver : Solver) (info : FunctionUsage Callee) : Prop where
  counted : info.updates.toNat ≤ solver.limit.toNat + 1 + info.saturation
  fits : solver.limit.toNat + 1 + info.params.size < UInt32.size

/-- The counters of all functions are within their bounds. -/
def AllWithin (solver : Solver) (functions : Functions) : Prop :=
  ∀ func info, functions.get? func = some info → solver.Within info

/-- A counted visit keeps the counter within its bound. Witness: a function at the limit or below
may be counted once more, and one beyond it has a newly saturated parameter.
-/
theorem Within.countUpdate {grown : FunctionUsage Callee} (within : solver.Within info)
    (fills : info.Fills (decide (solver.limit < info.updates)).toNat grown)
    : info.updates.toNat + 1 < UInt32.size ∧ solver.Within grown.countUpdate := by
  have counted := within.counted
  have fits := within.fits
  have saturated := Nat.le_trans grown.saturation_le_forwarding grown.forwarding_le_size
  rw [fills.size] at saturated
  have room : info.updates.toNat + 1 ≤ solver.limit.toNat + 1 + grown.saturation := by
    have more := fills.saturation
    by_cases beyond : solver.limit < info.updates
    · rw [decide_eq_true beyond, Bool.toNat_true] at more
      omega
    · have below : info.updates.toNat ≤ solver.limit.toNat :=
        UInt32.le_iff_toNat_le.mp (UInt32.not_lt.mp beyond)
      omega
  have small : info.updates.toNat + 1 < UInt32.size := by omega
  refine ⟨small, ?_, fills.size.symm ▸ fits⟩
  rw [Functions.toNat_updates_countUpdate (fills.updates.symm ▸ small), fills.updates]
  exact room

theorem AllWithin.countUpdate (within : solver.AllWithin before)
    (found : before.get? func = some info)
    (chain : TransGen (solver.Widens func (decide (solver.limit < info.updates))) before after)
    : info.updates.toNat + 1 < UInt32.size ∧ solver.AllWithin (after.countUpdate func) := by
  obtain ⟨grown, foundGrown, fills⟩ := fills_of_chain found chain
  obtain ⟨small, withinGrown⟩ := (within func info found).countUpdate fills
  refine ⟨small, fun other later foundLater => ?_⟩
  by_cases same : other = func
  · subst same
    rw [Functions.countUpdate, Table.get?_modify_self, foundGrown, Option.map_some,
      Option.some.injEq] at foundLater
    exact foundLater ▸ withinGrown
  · rw [Functions.countUpdate, Table.get?_modify_of_ne _ same, get?_of_chain same chain]
      at foundLater
    exact within other later foundLater

section Running

variable {bits : UInt32} {config : Config} (made : make bits config = .ok solver)

include made

/-- As long as the counters are within their bounds, a visit has an answer. -/
theorem visit_within (state : State) (func : Callee) (wf : state.functions.WellFormed bits)
    (within : solver.AllWithin state.functions)
    : ∃ next, (solver.visit state func).result = .ok next ∧ next.functions.WellFormed bits
        ∧ solver.AllWithin next.functions := by
  cases found : state.functions.get? func with
  | none => exact ⟨state, by simp [visit, found], wf, within⟩
  | some info =>
      have lists := lists_forwards found
      obtain ⟨answer, result⟩ := sweep_ok made func (decide (solver.limit < info.updates))
        info.forwards wf lists
      have swept := swept_of_sweep made wf lists result
      rw [result_visit found result]
      cases answer with
      | none => exact ⟨state, rfl, wf, within⟩
      | some grown =>
          have chain := swept.chain grown rfl
          obtain ⟨small, withinGrown⟩ := within.countUpdate found chain
          simp only [if_pos small]
          refine ⟨_, rfl, ?_, withinGrown⟩
          exact (Updates.grows made wf ⟨func, info, grown, found, chain, small, rfl⟩).1

theorem visitAll_within (todo : List Callee) (state : State)
    (wf : state.functions.WellFormed bits) (within : solver.AllWithin state.functions)
    : ∃ next, (solver.visitAll todo state).result = .ok next ∧ next.functions.WellFormed bits
        ∧ solver.AllWithin next.functions := by
  induction todo generalizing state with
  | nil => exact ⟨state, rfl, wf, within⟩
  | cons func rest ih =>
      obtain ⟨middle, visited, wfMiddle, withinMiddle⟩ := visit_within made state func wf within
      rw [visitAll, Traced.result_bind, visited, ok_bind]
      exact ih middle wfMiddle withinMiddle

/-- Draining the queue has an answer; by the induction that makes it end. -/
theorem drain_within (state : State) (wf : state.functions.WellFormed bits)
    (within : solver.AllWithin state.functions)
    : ∃ next, (solver.drain state).result = .ok next ∧ solver.AllWithin next.functions := by
  induction state using drain.induct solver with
  | case1 state empty => exact ⟨state, result_drain_nil empty, within⟩
  | case2 state func rest queue visited fault failed =>
      obtain ⟨next, result, _⟩ :=
        visit_within made ⟨state.functions, rest⟩ func wf within
      cases failed.symm.trans result
  | case3 state func rest queue visited middle visit ih =>
      obtain ⟨next, result, wfNext, withinNext⟩ :=
        visit_within made ⟨state.functions, rest⟩ func wf within
      cases visit.symm.trans result
      rw [result_drain_cons queue, result, ok_bind]
      exact ih wfNext withinNext

theorem run_within {functions : Functions} (wf : functions.WellFormed bits)
    (within : solver.AllWithin functions)
    : ∃ final, (solver.run false functions).result = .ok final ∧ solver.AllWithin final := by
  obtain ⟨first, visited, wfFirst, withinFirst⟩ :=
    visitAll_within made functions.keys ⟨functions, []⟩ wf within
  obtain ⟨last, drained, withinLast⟩ := drain_within made first wfFirst withinFirst
  refine ⟨last.functions, ?_, withinLast⟩
  simp only [run, Traced.result_bind, visited, drained, ok_bind, Bool.false_eq_true, ↓reduceIte,
    Traced.result_pure]

/-- Where no counter can run full, a run has an answer. -/
theorem run_answers {functions : Functions} (wf : functions.WellFormed bits)
    (within : solver.AllWithin functions) (verify : Bool)
    : ∃ final, (solver.run verify functions).result = .ok final := by
  obtain ⟨final, ran, _⟩ := run_within made wf within
  rcases run_spec made wf with ⟨failed, _⟩ | ⟨last, result, _⟩
  · cases ran.symm.trans (failed false)
  · exact ⟨last, result verify⟩

end Running

/-- The most recent function of the queue is visited. -/
def Pops (solver : Solver) (before after : State) : Prop :=
  ∃ func rest, before.queue = func :: rest
    ∧ (solver.visit ⟨before.functions, rest⟩ func).result = .ok after

/-- Visits of queued functions cannot go on forever: each one lowers the potential, or leaves the
functions and shortens the queue.
-/
theorem wellFounded_pops (solver : Solver)
    : WellFounded fun after before => solver.Pops before after := by
  have measure := InvImage.wf
    (fun state : State => (solver.potential state.functions, state.queue.length))
    (Prod.lex Nat.lt_wfRel Nat.lt_wfRel).wf
  refine Subrelation.wf ?_ measure
  rintro after before ⟨func, rest, queue, visited⟩
  rcases potential_visit visited with rfl | lower
  · refine Prod.Lex.right _ ?_
    rw [queue]
    exact Nat.lt_succ_self _
  · exact Prod.Lex.left _ _ lower

/-- The solver ends on every call graph. No queue keeps it busy forever, and from counters at zero
a run has an answer, with or without the verification pass the same settled one, in which each
function has been counted at most once beyond the limit and once more for each of its parameters
that has a call.
-/
theorem run_ends_counted {bits : UInt32} {config : Config} {functions : Functions}
    (made : make bits config = .ok solver) (wf : functions.WellFormed bits)
    (fresh : ∀ func info, functions.get? func = some info → info.updates = 0)
    (fits : ∀ func info, functions.get? func = some info
      → config.maxIterations.toNat + 1 + info.params.size < UInt32.size)
    : (WellFounded fun after before => solver.Pops before after)
      ∧ ∃ final, (∀ verify, (solver.run verify functions).result = .ok final)
        ∧ solver.Settled final
        ∧ ∀ func info, functions.get? func = some info
          → ∃ counted, final.get? func = some counted
            ∧ counted.updates.toNat ≤ config.maxIterations.toNat + 1 + info.forwarding := by
  refine ⟨wellFounded_pops solver, ?_⟩
  rw [← limit_of_make made] at fits ⊢
  have within : solver.AllWithin functions := fun func info found =>
    ⟨by simp [fresh func info found], fits func info found⟩
  obtain ⟨final, ran, withinFinal⟩ := run_within made wf within
  rcases run_spec made wf with ⟨failed, _⟩ | ⟨last, result, chain, settled⟩
  · cases ran.symm.trans (failed false)
  cases ran.symm.trans (result false)
  refine ⟨final, result, settled, fun func info found => ?_⟩
  obtain ⟨counted, foundCounted, grows⟩ :=
    Table.Related.get?_some (sized_of_chain made wf chain).2 found
  refine ⟨counted, foundCounted, ?_⟩
  have bound := (withinFinal func counted foundCounted).counted
  have few := counted.saturation_le_forwarding
  rw [grows.forwarding_eq] at few
  omega

/-- Two functions that hand their parameters to each other, moved by one each time. The second
parameter of the first one is not handed on.
-/
def circles (first second : Range) (firstUpdates secondUpdates : UInt32) : Functions :=
  .ofList [(.function ⟨0⟩, ⟨.empty,
      .ofList [(0, ⟨first, [⟨.function ⟨1⟩, 0, ⟨64, 1, 2⟩⟩]⟩), (1, ⟨⟨64, 0, 4⟩, []⟩)],
      firstUpdates⟩),
    (.function ⟨1⟩,
      ⟨.empty, .ofList [(0, ⟨second, [⟨.function ⟨0⟩, 0, ⟨64, 1, 2⟩⟩]⟩)], secondUpdates⟩)]

/-- With the limit zero, both functions are counted twice: the bound is reached. -/
theorem run_circles
    : ((Solver.mk (Range.top 64) 0).run false (circles ⟨64, 0, 4⟩ ⟨64, 0, 0⟩ 0 0)).result
      = .ok (circles (Range.top 64) (Range.top 64) 2 2) := by
  let solver : Solver := ⟨Range.top 64, 0⟩
  let first : Callee := .function ⟨0⟩
  let second : Callee := .function ⟨1⟩
  have visited : (solver.visitAll [first, second] ⟨circles ⟨64, 0, 4⟩ ⟨64, 0, 0⟩ 0 0, []⟩).result
      = .ok ⟨circles ⟨64, 0, 4⟩ ⟨64, 1, 5⟩ 0 1, [first]⟩ := rfl
  have grown : (solver.visit ⟨circles ⟨64, 0, 4⟩ ⟨64, 1, 5⟩ 0 1, []⟩ first).result
      = .ok ⟨circles ⟨64, 0, 6⟩ ⟨64, 1, 5⟩ 1 1, [second]⟩ := rfl
  have secondFull : (solver.visit ⟨circles ⟨64, 0, 6⟩ ⟨64, 1, 5⟩ 1 1, []⟩ second).result
      = .ok ⟨circles ⟨64, 0, 6⟩ (Range.top 64) 1 2, [first]⟩ := rfl
  have firstFull : (solver.visit ⟨circles ⟨64, 0, 6⟩ (Range.top 64) 1 2, []⟩ first).result
      = .ok ⟨circles (Range.top 64) (Range.top 64) 2 2, [second]⟩ := rfl
  have still : (solver.visit ⟨circles (Range.top 64) (Range.top 64) 2 2, []⟩ second).result
      = .ok ⟨circles (Range.top 64) (Range.top 64) 2 2, []⟩ := rfl
  have drained : (solver.drain ⟨circles ⟨64, 0, 4⟩ ⟨64, 1, 5⟩ 0 1, [first]⟩).result
      = .ok ⟨circles (Range.top 64) (Range.top 64) 2 2, []⟩ := by
    rw [result_drain_cons rfl, grown, ok_bind, result_drain_cons rfl, secondFull, ok_bind,
      result_drain_cons rfl, firstFull, ok_bind, result_drain_cons rfl, still, ok_bind,
      result_drain_nil rfl]
  change (solver.run false _).result = _
  simp only [run, Traced.result_bind]
  change (solver.visitAll [first, second] _).result >>= _ = _
  rw [visited, ok_bind, drained, ok_bind]
  rfl

theorem run_ends_counted_circles
    : make 64 ⟨0, false, false, true⟩ = .ok ⟨Range.top 64, 0⟩
      ∧ (circles ⟨64, 0, 4⟩ ⟨64, 0, 0⟩ 0 0).WellFormed 64
      ∧ ∃ final,
        (∀ verify, ((Solver.mk (Range.top 64) 0).run verify
          (circles ⟨64, 0, 4⟩ ⟨64, 0, 0⟩ 0 0)).result = .ok final)
        ∧ (Solver.mk (Range.top 64) 0).Settled final
        ∧ ∃ counted, final.get? (.function ⟨0⟩) = some counted
          ∧ counted.params.size = 2
          ∧ counted.updates = 2
          ∧ counted.updates.toNat ≤ (0 : UInt32).toNat + 1 + 1 := by
  have made : make 64 ⟨0, false, false, true⟩ = .ok ⟨Range.top 64, 0⟩ := rfl
  have wf : (circles ⟨64, 0, 4⟩ ⟨64, 0, 0⟩ 0 0).WellFormed 64 :=
    .of_entries (by decide)
  have start (func : Callee) (info : FunctionUsage Callee)
      (found : (circles ⟨64, 0, 4⟩ ⟨64, 0, 0⟩ 0 0).get? func = some info)
      : info.updates = 0 ∧ info.params.size ≤ 2 := by
    have each : ∀ entry ∈ (circles ⟨64, 0, 4⟩ ⟨64, 0, 0⟩ 0 0).entries,
        entry.2.updates = 0 ∧ entry.2.params.size ≤ 2 := by decide
    exact each _ (Table.mem_of_get? found)
  have fits (func : Callee) (info : FunctionUsage Callee)
      (found : (circles ⟨64, 0, 4⟩ ⟨64, 0, 0⟩ 0 0).get? func = some info)
      : (0 : UInt32).toNat + 1 + info.params.size < UInt32.size := by
    have small := (start func info found).2
    have zero : (0 : UInt32).toNat = 0 := rfl
    have size : UInt32.size = 4294967296 := rfl
    omega
  obtain ⟨_, final, result, settled, bound⟩ :=
    run_ends_counted made wf (fun func info found => (start func info found).1) fits
  cases (result false).symm.trans run_circles
  obtain ⟨counted, found, few⟩ := bound (.function ⟨0⟩) _ rfl
  cases found
  exact ⟨made, wf, _, result, settled, _, rfl, rfl, rfl, few⟩

end Solver

end StackBounds
