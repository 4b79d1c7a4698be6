import StackBounds.Proofs.Solver.Least

/-! What a run reports tells whether it forced anything: a run without a report of a forced
widening is a chain of gentle steps, so it computes the least solution.
-/

namespace StackBounds

theorem Traced.events_bind {α β : Type} {first : Traced α} {answer : α} (rest : α → Traced β)
    (returned : first.result = .ok answer)
    : (first >>= rest).events = first.events ++ (rest answer).events := by
  change (Traced.bind first rest).events = _
  rw [Traced.bind, returned]

/-- No range is reported to have been made full by force. -/
def Unforced (events : List Event) : Prop := ∀ func updates, .widen func updates true ∉ events

theorem unforced_append {first second : List Event}
    : Unforced (first ++ second) ↔ Unforced first ∧ Unforced second := by
  simp only [Unforced, List.mem_append, not_or, forall_and]

namespace Solver

open Relation (ReflTransGen)

/-- A visit changes nothing, or the sweep grows; then it is reported and counted. -/
theorem visit_cases {solver : Solver} {state after : State} {func : Callee}
    (visited : (solver.visit state func).result = .ok after)
    : after = state ∨ ∃ info grown, state.functions.get? func = some info
      ∧ solver.sweep func (decide (solver.limit < info.updates)) info.forwards state.functions
        = .ok (some grown)
      ∧ info.updates.toNat + 1 < UInt32.size
      ∧ after.functions = grown.countUpdate func
      ∧ .widen func info.updates (decide (solver.limit < info.updates))
        ∈ (solver.visit state func).events := by
  cases found : state.functions.get? func with
  | none =>
      simp only [visit, found, Traced.result_pure, Except.ok.injEq] at visited
      exact Or.inl visited.symm
  | some info =>
      have visitedInfo := visited
      simp only [visit, found, Traced.result_bind, Traced.result_liftM] at visitedInfo
      obtain ⟨answer, sweeping, _⟩ := exists_of_bind_eq_ok visitedInfo
      rw [result_visit found sweeping] at visited
      cases answer with
      | none =>
          cases visited
          exact Or.inl rfl
      | some grown =>
          simp only at visited
          split at visited
          · rename_i fits
            cases visited
            refine Or.inr ⟨info, grown, rfl, sweeping, fits, rfl, ?_⟩
            simp only [visit, found]
            rw [Traced.events_bind _ (show (liftM _ : Traced _).result = _ from sweeping),
              List.mem_append]
            exact Or.inr (List.mem_cons_self ..)
          · cases visited

section Reports

variable {bits : UInt32} {config : Config} {solver : Solver}
  (made : make bits config = .ok solver)

include made

theorem gentleChain_of_visit {state after : State} {func : Callee}
    (wf : state.functions.WellFormed bits)
    (visited : (solver.visit state func).result = .ok after)
    (unforced : Unforced (solver.visit state func).events)
    : ReflTransGen solver.Gentle state.functions after.functions := by
  rcases visit_cases visited with rfl | ⟨info, grown, found, sweeping, fits, same, reported⟩
  · exact .refl
  · have gentle : decide (solver.limit < info.updates) = false := by
      rw [← Bool.not_eq_true]
      intro forced
      exact unforced func info.updates (forced ▸ reported)
    rw [gentle] at sweeping
    have swept := swept_of_sweep made wf (lists_forwards found) sweeping
    rw [same]
    exact gentleChain_of_widenings made wf found (swept.chain grown rfl).to_reflTransGen fits

/-- By induction on the functions to visit. -/
theorem gentleChain_of_visitAll {todo : List Callee} {state after : State}
    (wf : state.functions.WellFormed bits)
    (visited : (solver.visitAll todo state).result = .ok after)
    (unforced : Unforced (solver.visitAll todo state).events)
    : ReflTransGen solver.Gentle state.functions after.functions := by
  induction todo generalizing state with
  | nil =>
      cases visited
      exact .refl
  | cons func rest ih =>
      rw [visitAll, Traced.result_bind] at visited
      obtain ⟨next, first, later⟩ := exists_of_bind_eq_ok visited
      rw [visitAll, Traced.events_bind _ first, unforced_append] at unforced
      have chain := gentleChain_of_visit made wf first unforced.1
      exact chain.trans (ih (gentleChain_grows made wf chain).1 later unforced.2)

omit made in
theorem events_drain_cons {state after : State} {func : Callee} {rest : List Callee}
    (queue : state.queue = func :: rest)
    (visited : (solver.visit ⟨state.functions, rest⟩ func).result = .ok after)
    : (solver.drain state).events
      = (solver.visit ⟨state.functions, rest⟩ func).events ++ (solver.drain after).events := by
  rw [drain]
  split
  · rename_i none
    rw [queue] at none
    cases none
  · rename_i head tail other
    rw [queue, List.cons.injEq] at other
    obtain ⟨rfl, rfl⟩ := other
    simp only
    split
    · rename_i fault failed
      cases failed.symm.trans visited
    · rename_i next visitedNext
      cases visitedNext.symm.trans visited
      rfl

/-- By the induction that makes the draining end. -/
theorem gentleChain_of_drain {state after : State} (wf : state.functions.WellFormed bits)
    (drained : (solver.drain state).result = .ok after)
    (unforced : Unforced (solver.drain state).events)
    : ReflTransGen solver.Gentle state.functions after.functions := by
  induction state using drain.induct solver with
  | case1 state empty =>
      cases (result_drain_nil empty).symm.trans drained
      exact .refl
  | case2 state func rest queue visited fault failed =>
      rw [result_drain_cons queue] at drained
      obtain ⟨next, visit, _⟩ := exists_of_bind_eq_ok drained
      cases failed.symm.trans visit
  | case3 state func rest queue visited next visit ih =>
      rw [result_drain_cons queue, visit, ok_bind] at drained
      rw [events_drain_cons queue visit, unforced_append] at unforced
      have chain : ReflTransGen solver.Gentle state.functions next.functions := by
        apply gentleChain_of_visit made _ visit unforced.1
        exact wf
      exact chain.trans (ih (gentleChain_grows made wf chain).1 drained unforced.2)

/-- A run that reports no forced widening is a chain of gentle steps. -/
theorem gentleChain_of_unforced {functions final : Functions} {verify : Bool}
    (wf : functions.WellFormed bits) (ran : (solver.run verify functions).result = .ok final)
    (unforced : Unforced (solver.run verify functions).events)
    : ReflTransGen solver.Gentle functions final ∧ solver.Settled final := by
  obtain ⟨_, absorbed⟩ := run_answer made wf ran
  refine ⟨?_, absorbed.settled⟩
  rw [result_run made wf] at ran
  obtain ⟨first, visited, afterFirst⟩ := exists_of_bind_eq_ok ran
  obtain ⟨last, drained, same⟩ := exists_of_bind_eq_ok afterFirst
  cases same
  rw [run, Traced.events_bind _ visited, Traced.events_bind _ drained, unforced_append,
    unforced_append] at unforced
  have chain := gentleChain_of_visitAll made wf visited unforced.1
  exact chain.trans
    (gentleChain_of_drain made (gentleChain_grows made wf chain).1 drained unforced.2.1)

end Reports

end Solver

end StackBounds
