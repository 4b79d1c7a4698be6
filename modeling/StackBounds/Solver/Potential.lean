import StackBounds.Solver.Visit

/-! The potential of the solver: how much its functions can still grow. A visit that changes
anything lowers it, because a function below the limit uses up a widening and one above the
limit turns a parameter into the full range.
-/

namespace StackBounds

-----------------------------------------------------------------------------------------
-- Full ranges
-----------------------------------------------------------------------------------------

/-- The range is known to be the full set. -/
def Range.knownFull (range : Range) : Bool := range.isFull.toOption.getD false

/-- The full range is known to be full, by the equality of its two bounds with the mask. -/
theorem Range.knownFull_of_full {bits : UInt32} {range : Range} (h : Range.full bits = .ok range)
    : range.knownFull = true := by
  obtain ⟨_, _, h⟩ := exists_of_bind_eq_ok h
  obtain ⟨mask, hmask, h⟩ := exists_of_bind_eq_ok h
  cases h
  simp [knownFull, isFull, hmask, bind, Except.bind, pure, Except.pure, Except.toOption]

/-- Only a range that is not known to be full can fail to contain another one: inclusion in a
full range is answered first.
-/
theorem Range.knownFull_of_contains {outer inner : Range}
    (h : outer.contains inner = .ok false)
    : outer.knownFull = false := by
  obtain ⟨_, _, h⟩ := exists_of_bind_eq_ok h
  obtain ⟨full, hfull, h⟩ := exists_of_bind_eq_ok h
  cases full with
  | false => simp [knownFull, hfull, Except.toOption]
  | true => cases h

/-- A usage that can still grow counts one. -/
def Usage.slack {γ : Type} (usage : Usage γ) : Nat := if usage.range.knownFull then 0 else 1

-----------------------------------------------------------------------------------------
-- The potential
-----------------------------------------------------------------------------------------

namespace Solver

/-- The widenings that are left up to the limit, and the parameters that are not full. -/
def weight (solver : Solver) (info : FunctionUsage Callee) : Nat :=
  solver.limit.toNat + 1 - info.updates.toNat + info.params.total Usage.slack

/-- How much the functions can still grow. -/
def potential (solver : Solver) (functions : Functions) : Nat :=
  functions.total solver.weight

/-- What a step of a sweep leaves behind: the function with its old count, and a potential
that did not rise, and that fell when the parameters are being made full.
-/
structure Grown (solver : Solver) (func : Callee) (toFull : Bool) (updates : UInt32)
    (before after : Functions)
    : Prop where
  found : ∃ info, after.get? func = some info ∧ info.updates = updates
  bounded : solver.potential after ≤ solver.potential before
  lower : toFull = true → solver.potential after < solver.potential before

/-- Setting the range of a parameter that is not full does not raise the potential; the
parameter's own share bounds the change.
-/
theorem grown_setRange {solver : Solver} {func : Callee} {toFull : Bool} {functions : Functions}
    {info : FunctionUsage Callee} {param : UInt32} {usage : Usage Callee} {range : Range}
    (found : functions.get? func = some info)
    (foundParam : info.params.get? param = some usage)
    (notFull : usage.range.knownFull = false)
    (full : toFull = true → range.knownFull = true)
    : solver.Grown func toFull info.updates functions (functions.setRange func param range) := by
  have inner :=
    Table.total_modify Usage.slack foundParam fun usage => { usage with range := range }
  have outer := Table.total_modify solver.weight found fun info => info.setRange param range
  have share : usage.slack = 1 := by simp [Usage.slack, notFull]
  have newShare : Usage.slack { usage with range := range } ≤ 1 := by
    unfold Usage.slack
    split <;> omega
  have weights : solver.weight (info.setRange param range) + 1
      = solver.weight info + Usage.slack { usage with range := range } := by
    simp only [weight, FunctionUsage.setRange]
    omega
  refine ⟨⟨info.setRange param range, ?_, rfl⟩, ?_, ?_⟩
  · rw [Functions.setRange, Table.get?_modify_self, found]
    rfl
  · simp only [potential, Functions.setRange]
    omega
  · intro now
    have noShare : Usage.slack { usage with range := range } = 0 := by
      simp [Usage.slack, full now]
    simp only [potential, Functions.setRange]
    omega

/-- A call that makes a parameter grow lowers what is left to grow. -/
theorem grown_absorb {solver : Solver} {func : Callee} {toFull : Bool}
    {functions grown : Functions} {info : FunctionUsage Callee} {param : UInt32}
    {call : Forward Callee}
    (found : functions.get? func = some info)
    (h : solver.absorb func toFull functions param call = .ok (some grown))
    : solver.Grown func toFull info.updates functions grown := by
  unfold absorb at h
  split at h
  · cases h
  · rename_i usage foundUsage
    have foundParam : info.params.get? param = some usage := by
      simpa [Functions.param?, found] using foundUsage
    obtain ⟨access, _, h⟩ := exists_of_bind_eq_ok h
    obtain ⟨inside, hinside, h⟩ := exists_of_bind_eq_ok h
    cases inside with
    | true => cases h
    | false =>
        simp only [Bool.false_eq_true, ↓reduceIte] at h
        obtain ⟨range, hrange, h⟩ := exists_of_bind_eq_ok h
        cases h
        refine grown_setRange found foundParam (Range.knownFull_of_contains hinside) ?_
        intro now
        simp only [growth, now, ↓reduceIte] at hrange
        exact Range.knownFull_of_full hrange

/-- A sweep in which some parameter grows lowers what is left to grow, by induction on the
calls.
-/
theorem grown_sweep {solver : Solver} {func : Callee} {toFull : Bool}
    {calls : List (UInt32 × Forward Callee)} {functions grown : Functions}
    {info : FunctionUsage Callee}
    (found : functions.get? func = some info)
    (h : solver.sweep func toFull calls functions = .ok (some grown))
    : solver.Grown func toFull info.updates functions grown := by
  induction calls generalizing functions info grown with
  | nil => cases h
  | cons entry rest ih =>
      obtain ⟨param, call⟩ := entry
      obtain ⟨first, hfirst, h⟩ := exists_of_bind_eq_ok h
      cases first with
      | none => exact ih found h
      | some next =>
          obtain ⟨later, hlater, h⟩ := exists_of_bind_eq_ok h
          cases h
          have start := grown_absorb found hfirst
          cases later with
          | none => exact start
          | some last =>
              obtain ⟨info', found', same⟩ := start.found
              have finish := ih found' hlater
              refine ⟨same ▸ finish.found, ?_, ?_⟩
              · exact Nat.le_trans finish.bounded start.bounded
              · intro now
                exact Nat.lt_of_lt_of_le (finish.lower now) start.bounded

/-- Counting a widening lowers the potential of a function that has some left, and changes
nothing for one that has none.
-/
theorem potential_countUpdate (solver : Solver) {functions : Functions} {func : Callee}
    {info : FunctionUsage Callee}
    (found : functions.get? func = some info)
    (fits : info.updates.toNat + 1 < UInt32.size)
    : solver.potential (functions.countUpdate func) ≤ solver.potential functions
      ∧ (info.updates ≤ solver.limit
          → solver.potential (functions.countUpdate func) < solver.potential functions) := by
  have outer := Table.total_modify solver.weight found FunctionUsage.countUpdate
  have count : (info.updates + 1).toNat = info.updates.toNat + 1 := by
    rw [UInt32.toNat_add]
    exact Nat.mod_eq_of_lt fits
  have weights : solver.weight info.countUpdate
      = solver.limit.toNat + 1 - (info.updates.toNat + 1) + info.params.total Usage.slack := by
    simp only [weight, FunctionUsage.countUpdate, count]
  have before : solver.weight info
      = solver.limit.toNat + 1 - info.updates.toNat + info.params.total Usage.slack := rfl
  constructor
  · simp only [potential, Functions.countUpdate]
    omega
  · intro left
    have left : info.updates.toNat ≤ solver.limit.toNat := UInt32.le_iff_toNat_le.mp left
    simp only [potential, Functions.countUpdate]
    omega

/-- A visit changes nothing or lowers the potential. -/
theorem potential_visit {solver : Solver} {state after : State} {func : Callee}
    (h : (solver.visit state func).result = .ok after)
    : after = state ∨ solver.potential after.functions < solver.potential state.functions := by
  unfold visit at h
  split at h
  · cases h
    exact Or.inl rfl
  · rename_i info found
    rw [Traced.result_bind] at h
    obtain ⟨swept, hswept, h⟩ := exists_of_bind_eq_ok h
    cases swept with
    | none =>
        cases h
        exact Or.inl rfl
    | some grown =>
        have growth := grown_sweep found hswept
        obtain ⟨info', found', same⟩ := growth.found
        rw [Traced.result_bind] at h
        obtain ⟨_, _, h⟩ := exists_of_bind_eq_ok h
        split at h
        · rename_i fits
          cases h
          have counted := potential_countUpdate solver found' (same ▸ fits)
          refine Or.inr ?_
          by_cases above : solver.limit < info.updates
          · exact Nat.lt_of_le_of_lt counted.1 (growth.lower (by simpa using above))
          · have below : info'.updates ≤ solver.limit := by
              rw [same]
              exact UInt32.not_lt.mp above
            exact Nat.lt_of_lt_of_le (counted.2 below) growth.bounded
        · cases h

end Solver

end StackBounds
