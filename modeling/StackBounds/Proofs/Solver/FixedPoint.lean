import StackBounds.Proofs.Solver.Steps

/-! The solver ends in a fixed point. A function that still has something to absorb is waiting for
its visit, and at the end of a run none is waiting. What the answer of a run means does not depend
on the widths of the functions; that there is one does.
-/

namespace StackBounds.Solver

open Relation (TransGen ReflTransGen)

-----------------------------------------------------------------------------------------
-- Who waits
-----------------------------------------------------------------------------------------

/-- Every parameter of the function absorbs its calls. -/
def AbsorbedAt (solver : Solver) (functions : Functions) (func : Callee) : Prop :=
  ∀ param usage, functions.param? func param = some usage
    → ∀ call ∈ usage.calls, solver.Absorbs functions usage.range call

/-- Every parameter of every function absorbs its calls. -/
def Absorbed (solver : Solver) (functions : Functions) : Prop :=
  ∀ func, solver.AbsorbedAt functions func

theorem Absorbed.settled {solver : Solver} {functions : Functions}
    (absorbed : solver.Absorbed functions)
    : solver.Settled functions :=
  fun func param usage found call member => (absorbed func param usage found call member).covers

/-- At one width, what is covered is absorbed. -/
theorem Settled.absorbed {bits : UInt32} {config : Config} {solver : Solver}
    {functions : Functions} (made : make bits config = .ok solver)
    (wf : functions.WellFormed bits) (settled : solver.Settled functions)
    : solver.Absorbed functions := by
  intro func param usage found call member
  have usable := wf.usages _ _ _ found
  obtain ⟨access, result, inside⟩ := settled func param usage found call member
  obtain ⟨same, resultSame, proper⟩ := access_spec made wf usable member
  cases result.symm.trans resultSame
  exact ⟨access, result, proper.bits_eq.trans usable.range.bits_eq.symm, inside⟩

/-- Every function that does not absorb its calls waits, in the list or in the queue. -/
def Pending (solver : Solver) (todo : List Callee) (state : State) : Prop :=
  ∀ func, ¬ solver.AbsorbedAt state.functions func → func ∈ todo ∨ func ∈ state.queue

theorem mem_enqueue {waiting callers : List Callee} {func : Callee}
    : func ∈ enqueue waiting callers ↔ func ∈ waiting ∨ func ∈ callers := by
  induction callers generalizing waiting with
  | nil => simp [enqueue]
  | cons caller rest ih =>
      have step : enqueue waiting (caller :: rest)
          = enqueue (if waiting.contains caller then waiting else caller :: waiting) rest := rfl
      rw [step, ih]
      by_cases known : waiting.contains caller
      · have member : caller ∈ waiting := by simpa using known
        rw [if_pos known, List.mem_cons]
        constructor
        · rintro (inside | later)
          · exact Or.inl inside
          · exact Or.inr (Or.inr later)
        · rintro (inside | rfl | later)
          · exact Or.inl inside
          · exact Or.inl member
          · exact Or.inr later
      · rw [if_neg known, List.mem_cons, List.mem_cons]
        constructor
        · rintro ((rfl | inside) | later)
          · exact Or.inr (Or.inl rfl)
          · exact Or.inl inside
          · exact Or.inr (Or.inr later)
        · rintro (inside | rfl | later)
          · exact Or.inl (Or.inr inside)
          · exact Or.inl (Or.inl rfl)
          · exact Or.inr later

/-- A function with a call of another one is among its callers. -/
theorem mem_callersOf {functions : Functions} {func caller : Callee} {param : UInt32}
    {usage : Usage Callee} {call : Forward Callee}
    (found : functions.param? caller param = some usage) (member : call ∈ usage.calls)
    (target : call.callee = func)
    : caller ∈ functions.callersOf func := by
  obtain ⟨info, foundInfo, foundUsage⟩ := Option.bind_eq_some_iff.mp found
  refine List.mem_map.mpr ⟨(caller, info), ?_, rfl⟩
  refine List.mem_filter.mpr ⟨Table.mem_of_get? foundInfo, ?_⟩
  refine List.any_eq_true.mpr ⟨(param, usage), Table.mem_of_get? foundUsage, ?_⟩
  exact List.any_eq_true.mpr ⟨call, member, by simpa using target⟩

section Forwards

variable {functions : Functions} {func : Callee} {info : FunctionUsage Callee}
  (found : functions.get? func = some info)

include found

theorem lists_forwards : Lists functions func info.forwards := by
  intro entry member
  obtain ⟨param, memberParam, memberCall⟩ := List.mem_flatMap.mp member
  obtain ⟨call, listed, rfl⟩ := List.mem_map.mp memberCall
  refine ⟨param.2, ?_, listed⟩
  rw [Functions.param?, found, Option.bind_some]
  exact Table.get?_of_mem memberParam

theorem mem_forwards {param : UInt32} {usage : Usage Callee} {call : Forward Callee}
    (foundUsage : functions.param? func param = some usage) (member : call ∈ usage.calls)
    : (param, call) ∈ info.forwards := by
  rw [Functions.param?, found, Option.bind_some] at foundUsage
  refine List.mem_flatMap.mpr ⟨(param, usage), Table.mem_of_get? foundUsage, ?_⟩
  exact List.mem_map.mpr ⟨call, member, rfl⟩

/-- A function needs no visit when all entries of its sweep are absorbed. -/
theorem absorbedAt_iff_accounts {solver : Solver}
    : solver.AbsorbedAt functions func
      ↔ ∀ entry ∈ info.forwards, solver.Accounts functions func entry := by
  constructor
  · intro absorbed entry member usage foundUsage
    obtain ⟨_, foundEntry, listed⟩ := lists_forwards found entry member
    cases foundUsage.symm.trans foundEntry
    exact absorbed entry.1 usage foundUsage entry.2 listed
  · intro accounts param usage foundUsage call member
    exact accounts (param, call) (mem_forwards found foundUsage member) usage foundUsage

end Forwards

theorem absorbedAt_of_none {solver : Solver} {functions : Functions} {func : Callee}
    (missing : functions.get? func = none)
    : solver.AbsorbedAt functions func := by
  intro param usage found
  simp [Functions.param?, missing] at found

theorem absorbedAt_countUpdate {solver : Solver} {functions : Functions} {func other : Callee}
    : solver.AbsorbedAt (functions.countUpdate func) other
      ↔ solver.AbsorbedAt functions other := by
  simp only [AbsorbedAt, Absorbs, Solver.access, Functions.param?_countUpdate]

/-- A visit, by the answer of its sweep. -/
theorem result_visit {solver : Solver} {state : State} {func : Callee}
    {info : FunctionUsage Callee} {answer : Option Functions}
    (found : state.functions.get? func = some info)
    (result : solver.sweep func (decide (solver.limit < info.updates)) info.forwards
      state.functions = .ok answer)
    : (solver.visit state func).result
      = match answer with
        | none => .ok state
        | some grown =>
          if info.updates.toNat + 1 < UInt32.size then
            .ok ⟨grown.countUpdate func, enqueue state.queue (grown.callersOf func)⟩
          else .error .counterOverflow := by
  have lifted : (liftM (solver.sweep func (decide (solver.limit < info.updates)) info.forwards
      state.functions) : Traced (Option Functions)).result = .ok answer := result
  simp only [visit, found, Traced.result_bind, lifted, ok_bind]
  cases answer with
  | none => rfl
  | some grown =>
      simp only [Traced.result_bind, Traced.result_emit, ok_bind]
      split <;> rfl

theorem result_drain_nil {solver : Solver} {state : State} (queue : state.queue = [])
    : (solver.drain state).result = .ok state := by
  rw [drain]
  split
  · rfl
  · rename_i other
    rw [queue] at other
    cases other

theorem result_drain_cons {solver : Solver} {state : State} {func : Callee} {rest : List Callee}
    (queue : state.queue = func :: rest)
    : (solver.drain state).result
      = (solver.visit ⟨state.functions, rest⟩ func).result
        >>= fun after => (solver.drain after).result := by
  rw [drain]
  split
  · rename_i none
    rw [queue] at none
    cases none
  · rename_i head tail other
    rw [queue, List.cons.injEq] at other
    obtain ⟨rfl, rfl⟩ := other
    simp only
    split
    · rename_i fault failed
      rw [failed, error_bind]
    · rename_i after visited
      rw [visited, ok_bind]

/-- Functions that stay the same in a first pass are the answer. -/
theorem run_of_visitAll {solver : Solver} {functions : Functions} (verify : Bool)
    (visited : (solver.visitAll functions.keys ⟨functions, []⟩).result = .ok ⟨functions, []⟩)
    : (solver.run verify functions).result = .ok functions := by
  simp only [run, Traced.result_bind]
  rw [visited, ok_bind, result_drain_nil rfl, ok_bind]
  cases verify with
  | false => rfl
  | true =>
      simp only [↓reduceIte, Traced.result_bind, visited, ok_bind]
      rfl

/-- The counter of some function can reach the end of its word. -/
def Overflows (solver : Solver) (functions : Functions) : Prop :=
  ∃ reached func info, ReflTransGen solver.Updates functions reached
    ∧ reached.get? func = some info ∧ info.updates.toNat + 1 = UInt32.size

theorem Overflows.of_chain {solver : Solver} {before after : Functions}
    (overflows : solver.Overflows after) (chain : ReflTransGen solver.Updates before after)
    : solver.Overflows before := by
  obtain ⟨reached, func, info, later, found, full⟩ := overflows
  exact ⟨reached, func, info, chain.trans later, found, full⟩

-----------------------------------------------------------------------------------------
-- What answers mean
-----------------------------------------------------------------------------------------

section Answers

variable {bits : UInt32} {config : Config} {solver : Solver} {width : Callee → UInt32}
  (made : make bits config = .ok solver)

include made

/-- A widened function leaves only its callers behind. Witness: a function that does not call it
sees none of the new ranges, and its own calls of others were absorbed by the sweep.
-/
theorem pending_of_swept {functions grown : Functions} {func : Callee} {toFull : Bool}
    {info : FunctionUsage Callee} {queue todo : List Callee}
    (sized : functions.Sized width) (found : functions.get? func = some info)
    (swept : solver.Swept func toFull info.forwards functions (some grown))
    (pending : solver.Pending (func :: todo) ⟨functions, queue⟩)
    : solver.Pending todo
        ⟨grown.countUpdate func, enqueue queue (grown.callersOf func)⟩ := by
  have widened := Widened.of_chain made sized (swept.chain grown rfl).to_reflTransGen
  intro other left
  simp only [absorbedAt_countUpdate] at left
  by_cases caller : other ∈ grown.callersOf func
  · exact Or.inr (mem_enqueue.mpr (Or.inr caller))
  have targets (param : UInt32) (usage : Usage Callee)
      (foundUsage : grown.param? other param = some usage) (call : Forward Callee)
      (member : call ∈ usage.calls)
      : call.callee ≠ func :=
    fun target => caller (mem_callersOf foundUsage member target)
  by_cases same : other = func
  · subst same
    refine absurd ?_ left
    intro param usage foundUsage call member
    obtain ⟨earlier, foundBefore, grows⟩ := widened.grows.exists_param? foundUsage
    have listed := mem_forwards found foundBefore (grows.calls ▸ member)
    exact swept.absorbed grown rfl (param, call) listed
      (targets param usage foundUsage call member) usage foundUsage
  · have before : ¬ solver.AbsorbedAt functions other := by
      intro absorbed
      refine left fun param usage foundUsage call member => ?_
      have foundBefore := foundUsage
      rw [widened.others other param same] at foundBefore
      obtain ⟨access, result, inside⟩ := absorbed param usage foundBefore call member
      refine ⟨access, ?_, inside⟩
      rw [← result, Solver.access, Solver.access,
        widened.others _ _ (targets param usage foundUsage call member)]
    rcases pending other before with waiting | queued
    · rcases List.mem_cons.mp waiting with here | later
      · exact absurd here same
      · exact Or.inl later
    · exact Or.inr (mem_enqueue.mpr (Or.inl queued))

/-- A visit changes nothing or updates the functions, and the visited function needs no further
visit, unless it is queued again.
-/
theorem visit_answer {state after : State} {func : Callee} {todo : List Callee}
    (pending : solver.Pending (func :: todo) state) (sized : state.functions.Sized width)
    (visited : (solver.visit state func).result = .ok after)
    : ReflTransGen solver.Updates state.functions after.functions
      ∧ solver.Pending todo after := by
  have still (absorbed : solver.AbsorbedAt state.functions func) : solver.Pending todo state := by
    intro other left
    rcases pending other left with waiting | queued
    · rcases List.mem_cons.mp waiting with rfl | later
      · exact absurd absorbed left
      · exact Or.inl later
    · exact Or.inr queued
  cases found : state.functions.get? func with
  | none =>
      simp only [visit, found, Traced.result_pure, Except.ok.injEq] at visited
      exact visited ▸ ⟨.refl, still (absorbedAt_of_none found)⟩
  | some info =>
      obtain ⟨answer, sweeping⟩ : ∃ answer, solver.sweep func
          (decide (solver.limit < info.updates)) info.forwards state.functions = .ok answer := by
        simp only [visit, found, Traced.result_bind, Traced.result_liftM] at visited
        obtain ⟨answer, sweeping, _⟩ := exists_of_bind_eq_ok visited
        exact ⟨answer, sweeping⟩
      have swept := swept_of_sweep made sized (lists_forwards found) sweeping
      rw [result_visit found sweeping] at visited
      cases answer with
      | none =>
          cases visited
          exact ⟨.refl, still ((absorbedAt_iff_accounts found).mpr (swept.still rfl))⟩
      | some grown =>
          simp only at visited
          split at visited
          · rename_i fits
            cases visited
            exact ⟨.single ⟨func, info, grown, found, swept.chain grown rfl, fits, rfl⟩,
              pending_of_swept made sized found swept pending⟩
          · cases visited

/-- Visits of all functions that wait in a list; by induction on the list. -/
theorem visitAll_answer {todo : List Callee} {state after : State}
    (sized : state.functions.Sized width) (pending : solver.Pending todo state)
    (visited : (solver.visitAll todo state).result = .ok after)
    : ReflTransGen solver.Updates state.functions after.functions
      ∧ solver.Pending [] after := by
  induction todo generalizing state with
  | nil =>
      cases visited
      exact ⟨.refl, pending⟩
  | cons func rest ih =>
      rw [visitAll, Traced.result_bind] at visited
      obtain ⟨next, first, visited⟩ := exists_of_bind_eq_ok visited
      obtain ⟨chain, left⟩ := visit_answer made pending sized first
      obtain ⟨later, done⟩ := ih (sized_of_chain made sized chain).1 left visited
      exact ⟨chain.trans later, done⟩

omit made in
/-- The head of the queue is the next to be visited. -/
theorem Pending.of_queue {func : Callee} {rest : List Callee} {state : State}
    (pending : solver.Pending [] state) (queue : state.queue = func :: rest)
    : solver.Pending [func] ⟨state.functions, rest⟩ := by
  intro other left
  rcases pending other left with none | queued
  · cases none
  · rw [queue, List.mem_cons] at queued
    exact queued.imp List.mem_singleton.mpr id

/-- Draining the queue; by the induction that makes it end. -/
theorem drain_answer {state after : State} (sized : state.functions.Sized width)
    (pending : solver.Pending [] state) (drained : (solver.drain state).result = .ok after)
    : ReflTransGen solver.Updates state.functions after.functions
      ∧ solver.Absorbed after.functions := by
  induction state using drain.induct solver with
  | case1 state empty =>
      cases (result_drain_nil empty).symm.trans drained
      refine ⟨.refl, fun func => ?_⟩
      by_contra left
      rcases pending func left with none | queued
      · cases none
      · rw [empty] at queued
        cases queued
  | case2 state func rest queue visited fault failed =>
      rw [result_drain_cons queue] at drained
      obtain ⟨next, visit, _⟩ := exists_of_bind_eq_ok drained
      cases failed.symm.trans visit
  | case3 state func rest queue visited next visit ih =>
      rw [result_drain_cons queue] at drained
      obtain ⟨same, resumed, drained⟩ := exists_of_bind_eq_ok drained
      cases visit.symm.trans resumed
      obtain ⟨chain, left⟩ := visit_answer made (pending.of_queue queue) sized visit
      obtain ⟨later, done⟩ := ih (sized_of_chain made sized chain).1 left drained
      exact ⟨chain.trans later, done⟩

/-- A sweep of absorbed calls changes nothing; by induction on the calls. -/
theorem sweep_of_accounts {func : Callee} {toFull : Bool} {functions : Functions}
    {calls : List (UInt32 × Forward Callee)} (sized : functions.Sized width)
    (lists : Lists functions func calls)
    (accounts : ∀ entry ∈ calls, solver.Accounts functions func entry)
    : solver.sweep func toFull calls functions = .ok none := by
  induction calls with
  | nil => rfl
  | cons head rest ih =>
      obtain ⟨param, call⟩ := head
      obtain ⟨usage, found, listed⟩ := lists (param, call) List.mem_cons_self
      obtain ⟨access, result, same, inside⟩ := accounts (param, call) List.mem_cons_self usage found
      have usable := sized.usages _ _ _ found
      have wf := access_wellFormed made sized (usable.offset call listed).wellFormed result
      have contained := (Range.contains_eq_true_iff usable.range.wellFormed wf same.symm).mpr inside
      have absorbed : solver.absorb func toFull functions param call = .ok none := by
        simp [absorb, found, result, contained]
      rw [sweep, absorbed, ok_bind]
      exact ih lists.tail fun entry member => accounts entry (List.mem_cons_of_mem _ member)

/-- Visits of absorbed functions change nothing. -/
theorem visitAll_of_absorbed (todo : List Callee) {state : State}
    (sized : state.functions.Sized width) (absorbed : solver.Absorbed state.functions)
    : (solver.visitAll todo state).result = .ok state := by
  induction todo with
  | nil => rfl
  | cons func rest ih =>
      have visited : (solver.visit state func).result = .ok state := by
        cases found : state.functions.get? func with
        | none => simp [visit, found]
        | some info =>
            have accounts := (absorbedAt_iff_accounts found).mp (absorbed func)
            exact result_visit found
              (sweep_of_accounts made sized (lists_forwards found) accounts)
      rw [visitAll, Traced.result_bind, visited, ok_bind, ih]

omit made in
theorem pending_keys {functions : Functions}
    : solver.Pending functions.keys ⟨functions, []⟩ := by
  intro func left
  cases found : functions.get? func with
  | none => exact absurd (absorbedAt_of_none found) left
  | some info => exact Or.inl (Table.mem_keys_of_get? found)

/-- A run visits every function and drains the queue; the verification pass makes no
difference.
-/
theorem result_run {functions : Functions} (sized : functions.Sized width) (verify : Bool)
    : (solver.run verify functions).result
      = (solver.visitAll functions.keys ⟨functions, []⟩).result
        >>= fun first => (solver.drain first).result >>= fun last => .ok last.functions := by
  simp only [run, Traced.result_bind]
  cases visited : (solver.visitAll functions.keys ⟨functions, []⟩).result with
  | error fault => rfl
  | ok first =>
      simp only [ok_bind]
      cases drained : (solver.drain first).result with
      | error fault => rfl
      | ok last =>
          obtain ⟨chain, pending⟩ := visitAll_answer made sized pending_keys visited
          have sizedFirst := (sized_of_chain made sized chain).1
          obtain ⟨later, absorbed⟩ := drain_answer made sizedFirst pending drained
          cases verify with
          | false => rfl
          | true =>
              have still : (solver.visitAll last.functions.keys ⟨last.functions, []⟩).result
                  = .ok ⟨last.functions, []⟩ :=
                visitAll_of_absorbed made _ (sized_of_chain made sizedFirst later).1 absorbed
              simp only [↓reduceIte, Traced.result_bind, still, ok_bind, List.isEmpty_nil,
                Traced.result_pure]

/-- The answer of a run is reached by counted visits and absorbs all calls. -/
theorem run_answer {functions final : Functions} {verify : Bool} (sized : functions.Sized width)
    (ran : (solver.run verify functions).result = .ok final)
    : ReflTransGen solver.Updates functions final ∧ solver.Absorbed final := by
  rw [result_run made sized] at ran
  obtain ⟨first, visited, ran⟩ := exists_of_bind_eq_ok ran
  obtain ⟨last, drained, same⟩ := exists_of_bind_eq_ok ran
  cases same
  obtain ⟨chain, pending⟩ := visitAll_answer made sized pending_keys visited
  obtain ⟨later, absorbed⟩ :=
    drain_answer made (sized_of_chain made sized chain).1 pending drained
  exact ⟨chain.trans later, absorbed⟩

end Answers

-----------------------------------------------------------------------------------------
-- What a run passes through
-----------------------------------------------------------------------------------------

/-- The functions that a run can pass through: those it starts from, those after a visit, and those
within a visit, after some of the calls.
-/
inductive Passes (solver : Solver) (start : Functions) : Functions → Prop
  | start : solver.Passes start start
  | visited {functions queue func after}
    (passes : solver.Passes start functions)
    (result : (solver.visit ⟨functions, queue⟩ func).result = .ok after)
    : solver.Passes start after.functions
  | swept {functions func info calls rest grown}
    (passes : solver.Passes start functions)
    (found : functions.get? func = some info)
    (split : info.forwards = calls ++ rest)
    (result : solver.sweep func (decide (solver.limit < info.updates)) calls functions
      = .ok (some grown))
    : solver.Passes start grown

/-- The function hands none of its parameters on. -/
def Callless (functions : Functions) (func : Callee) : Prop :=
  ∀ param usage, functions.param? func param = some usage → usage.calls = []

theorem Callless.of_param?_eq {start functions : Functions} {func : Callee}
    (callless : Callless start func)
    (same : ∀ param, functions.param? func param = start.param? func param)
    : Callless functions func :=
  fun param usage found => callless param usage (same param ▸ found)

section Passing

variable {bits : UInt32} {config : Config} {solver : Solver} {width : Callee → UInt32}
  {start functions : Functions}

theorem Passes.visitAll {todo : List Callee} {state after : State}
    (passes : solver.Passes start state.functions)
    (result : (solver.visitAll todo state).result = .ok after)
    : solver.Passes start after.functions := by
  induction todo generalizing state with
  | nil =>
      cases result
      exact passes
  | cons func rest ih =>
      rw [Solver.visitAll, Traced.result_bind] at result
      obtain ⟨next, first, result⟩ := exists_of_bind_eq_ok result
      exact ih (passes.visited first) result

theorem Passes.drain {state after : State} (passes : solver.Passes start state.functions)
    (result : (solver.drain state).result = .ok after)
    : solver.Passes start after.functions := by
  induction state using drain.induct solver with
  | case1 state empty =>
      cases (result_drain_nil empty).symm.trans result
      exact passes
  | case2 state func rest queue visited fault failed =>
      rw [result_drain_cons queue] at result
      obtain ⟨next, visit, _⟩ := exists_of_bind_eq_ok result
      cases failed.symm.trans visit
  | case3 state func rest queue visited next visit ih =>
      rw [result_drain_cons queue] at result
      obtain ⟨same, resumed, result⟩ := exists_of_bind_eq_ok result
      cases visit.symm.trans resumed
      exact ih (passes.visited visit) result

variable (made : make bits config = .ok solver)

include made

/-- A run ends at functions that it passes through. -/
theorem passes_of_run {final : Functions} {verify : Bool} (sized : start.Sized width)
    (ran : (solver.run verify start).result = .ok final)
    : solver.Passes start final := by
  rw [result_run made sized] at ran
  obtain ⟨first, visited, ran⟩ := exists_of_bind_eq_ok ran
  obtain ⟨last, drained, same⟩ := exists_of_bind_eq_ok ran
  cases same
  exact (Passes.start.visitAll visited).drain drained

/-- A visit is a chain of counted visits. -/
theorem chain_of_visit {queue : List Callee} {func : Callee} {after : State}
    (sized : functions.Sized width)
    (result : (solver.visit ⟨functions, queue⟩ func).result = .ok after)
    : ReflTransGen solver.Updates functions after.functions := by
  have pending : solver.Pending (func :: functions.keys) ⟨functions, queue⟩ := fun other left =>
    Or.inl (List.mem_cons_of_mem _ ((pending_keys other left).resolve_right List.not_mem_nil))
  exact (visit_answer made pending sized result).1

/-- Some of the calls of a function make a chain of widenings. -/
theorem widenings_of_sweep {func : Callee} {info : FunctionUsage Callee} {toFull : Bool}
    {calls rest : List (UInt32 × Forward Callee)} {grown : Functions}
    (sized : functions.Sized width) (found : functions.get? func = some info)
    (split : info.forwards = calls ++ rest)
    (result : solver.sweep func toFull calls functions = .ok (some grown))
    : TransGen (solver.Widens func toFull) functions grown := by
  have lists : Lists functions func calls := fun entry member =>
    lists_forwards found entry (split ▸ List.mem_append_left _ member)
  exact (swept_of_sweep made sized lists result).chain grown rfl

variable (sized : start.Sized width)

include sized

/-- Wherever a run passes through, the functions have their widths and have only grown. -/
theorem Passes.grows (passes : solver.Passes start functions)
    : functions.Sized width ∧ start.Grows functions := by
  induction passes with
  | start => exact ⟨sized, Functions.Grows.refl start⟩
  | visited _ result ih =>
      obtain ⟨sizedBefore, grows⟩ := ih
      obtain ⟨sizedAfter, more⟩ :=
        sized_of_chain made sizedBefore (chain_of_visit made sizedBefore result)
      exact ⟨sizedAfter, grows.trans more⟩
  | swept _ found split result ih =>
      obtain ⟨sizedBefore, grows⟩ := ih
      have chain := widenings_of_sweep made sizedBefore found split result
      have widened := Widened.of_chain made sizedBefore chain.to_reflTransGen
      exact ⟨widened.sized, grows.trans widened.grows⟩

/-- Widenings leave a function without calls as it is: they widen one that has a call. -/
theorem param?_of_widenings {func other : Callee} {toFull : Bool} {grown : Functions}
    (callless : Callless start func)
    (chain : TransGen (solver.Widens other toFull) start grown) (param : UInt32)
    : grown.param? func param = start.param? func param := by
  obtain ⟨_, ⟨_, usage, call, found, member, _⟩, _⟩ := TransGen.head'_iff.mp chain
  have differ : func ≠ other := by
    rintro rfl
    rw [callless _ usage found] at member
    cases member
  exact (Widened.of_chain made sized chain.to_reflTransGen).others func param differ

theorem param?_of_chain {func : Callee} (callless : Callless start func)
    (chain : ReflTransGen solver.Updates start functions) (param : UInt32)
    : functions.param? func param = start.param? func param := by
  induction chain generalizing param with
  | refl => rfl
  | tail earlier last ih =>
      obtain ⟨_, _, _, _, widenings, _, rfl⟩ := last
      have sizedMiddle := (sized_of_chain made sized earlier).1
      rw [Functions.param?_countUpdate,
        param?_of_widenings made sizedMiddle (callless.of_param?_eq ih) widenings, ih]

/-- Wherever a run passes through, a function without calls is as it was. -/
theorem Passes.param?_eq {func : Callee} (callless : Callless start func)
    (passes : solver.Passes start functions) (param : UInt32)
    : functions.param? func param = start.param? func param := by
  induction passes generalizing param with
  | start => rfl
  | visited before result ih =>
      have sizedBefore := (before.grows made sized).1
      rw [param?_of_chain made sizedBefore (callless.of_param?_eq ih)
        (chain_of_visit made sizedBefore result), ih]
  | swept before found split result ih =>
      have sizedBefore := (before.grows made sized).1
      rw [param?_of_widenings made sizedBefore (callless.of_param?_eq ih)
        (widenings_of_sweep made sizedBefore found split result), ih]

end Passing

-----------------------------------------------------------------------------------------
-- Answers at one width
-----------------------------------------------------------------------------------------

section OneWidth

variable {bits : UInt32} {config : Config} {solver : Solver}
  (made : make bits config = .ok solver)

include made

/-- A visit stops at a full counter only. -/
theorem visit_ok (state : State) (func : Callee) (wf : state.functions.WellFormed bits)
    : ((solver.visit state func).result = .error .counterOverflow
        ∧ solver.Overflows state.functions)
      ∨ ∃ after, (solver.visit state func).result = .ok after := by
  cases found : state.functions.get? func with
  | none => exact Or.inr ⟨state, by simp [visit, found]⟩
  | some info =>
      obtain ⟨answer, result⟩ := sweep_ok made func (decide (solver.limit < info.updates))
        info.forwards wf (lists_forwards found)
      rw [result_visit found result]
      cases answer with
      | none => exact Or.inr ⟨state, rfl⟩
      | some grown =>
          simp only
          by_cases fits : info.updates.toNat + 1 < UInt32.size
          · rw [if_pos fits]
            exact Or.inr ⟨_, rfl⟩
          · rw [if_neg fits]
            refine Or.inl ⟨rfl, state.functions, func, info, .refl, found, ?_⟩
            exact Nat.le_antisymm info.updates.toNat_lt (Nat.le_of_not_lt fits)

theorem visitAll_ok (todo : List Callee) {state : State} (wf : state.functions.WellFormed bits)
    (pending : solver.Pending todo state)
    : ((solver.visitAll todo state).result = .error .counterOverflow
        ∧ solver.Overflows state.functions)
      ∨ ∃ after, (solver.visitAll todo state).result = .ok after := by
  induction todo generalizing state with
  | nil => exact Or.inr ⟨state, rfl⟩
  | cons func rest ih =>
      rw [visitAll, Traced.result_bind]
      rcases visit_ok made state func wf with ⟨result, overflows⟩ | ⟨after, result⟩
      · rw [result]
        exact Or.inl ⟨rfl, overflows⟩
      · obtain ⟨chain, left⟩ := visit_answer made pending wf result
        rw [result, ok_bind]
        exact (ih (sized_of_chain made wf chain).1 left).imp_left fun ⟨later, overflows⟩ =>
          ⟨later, overflows.of_chain chain⟩

theorem drain_ok (state : State) (wf : state.functions.WellFormed bits)
    (pending : solver.Pending [] state)
    : ((solver.drain state).result = .error .counterOverflow
        ∧ solver.Overflows state.functions)
      ∨ ∃ after, (solver.drain state).result = .ok after := by
  induction state using drain.induct solver with
  | case1 state empty => exact Or.inr ⟨state, result_drain_nil empty⟩
  | case2 state func rest queue visited fault failed =>
      rw [result_drain_cons queue]
      rcases visit_ok made ⟨state.functions, rest⟩ func wf with
        ⟨result, overflows⟩ | ⟨after, result⟩
      · rw [result]
        exact Or.inl ⟨rfl, overflows⟩
      · cases failed.symm.trans result
  | case3 state func rest queue visited after visit ih =>
      rw [result_drain_cons queue]
      obtain ⟨chain, left⟩ := visit_answer made (pending.of_queue queue) wf visit
      have resumed : (solver.visit ⟨state.functions, rest⟩ func).result = .ok after := visit
      rw [resumed, ok_bind]
      exact (ih (sized_of_chain made wf chain).1 left).imp_left fun ⟨later, overflows⟩ =>
        ⟨later, overflows.of_chain chain⟩

/-- A run stops at a full counter, or reaches settled functions by counted visits; the
verification pass makes no difference.
-/
theorem run_spec {functions : Functions} (wf : functions.WellFormed bits)
    : ((∀ verify, (solver.run verify functions).result = .error .counterOverflow)
        ∧ solver.Overflows functions)
      ∨ ∃ final, (∀ verify, (solver.run verify functions).result = .ok final)
        ∧ ReflTransGen solver.Updates functions final
        ∧ solver.Settled final := by
  have stages := result_run made wf
  rcases visitAll_ok made functions.keys wf pending_keys
    with ⟨failed, overflows⟩ | ⟨first, visited⟩
  · exact Or.inl ⟨fun verify => by rw [stages, failed, error_bind], overflows⟩
  obtain ⟨chain, pending⟩ := visitAll_answer made wf pending_keys visited
  rcases drain_ok made first (sized_of_chain made wf chain).1 pending
    with ⟨failed, overflows⟩ | ⟨last, drained⟩
  · refine Or.inl ⟨fun verify => ?_, overflows.of_chain chain⟩
    rw [stages, visited, ok_bind, failed, error_bind]
  · have ran (verify : Bool) : (solver.run verify functions).result = .ok last.functions := by
      rw [stages, visited, ok_bind, drained, ok_bind]
    obtain ⟨later, absorbed⟩ := run_answer made wf (ran false)
    exact Or.inr ⟨last.functions, ran, later, absorbed.settled⟩

end OneWidth

-----------------------------------------------------------------------------------------
-- What an absorbed call allows
-----------------------------------------------------------------------------------------

section Absorbing

variable {bits : UInt32} {config : Config} {solver : Solver} {functions : Functions}
  {range : Range} {call : Forward Callee} {target : Usage Callee}
  (absorbs : solver.Absorbs functions range call) (wf : range.WellFormed)
  (made : make bits config = .ok solver)

include absorbs wf made

/-- A range that absorbs a call to an unknown place is full. -/
theorem Absorbs.isAll_of_missing (missing : functions.param? call.callee call.param = none)
    : range.IsAll := by
  obtain ⟨access, result, same, inside⟩ := absorbs
  cases (access_of_none made missing).symm.trans result
  exact wf.isAll_of_superset (Range.isAll_top (valid_of_make made)) same.symm inside

variable (found : functions.param? call.callee call.param = some target)
  (wfTarget : target.range.WellFormed)

include found wfTarget

/-- A range that absorbs a call to a parameter of which nothing is known is full. -/
theorem Absorbs.isAll_of_callee (all : target.range.IsAll) : range.IsAll := by
  obtain ⟨access, result, same, inside⟩ := absorbs
  cases (access_of_isAll made found wfTarget all).symm.trans result
  exact wf.isAll_of_superset (Range.isAll_top (valid_of_make made)) same.symm inside

variable (offset : call.offset.OfWidth range.bits)

include offset

omit wf made in
/-- A range that absorbs a call includes the signed sum of the callee's accesses and the offsets,
unless nothing is known about the callee.
-/
theorem Absorbs.exists_sum (notAll : ¬ target.range.IsAll)
    : ∃ sum, Range.SignedSum target.range call.offset sum ∧ sum.OfWidth range.bits
        ∧ sum ⊆ range := by
  obtain ⟨access, result, same, inside⟩ := absorbs
  by_cases none : target.range.IsNone
  · cases (access_of_isNone found none).symm.trans result
    refine ⟨target.range, ?_, ⟨wfTarget, same⟩, inside⟩
    exact Range.signedSum_of_isNone wfTarget offset.wellFormed (Or.inl none) ⟨wfTarget, rfl⟩ none
  · rw [access_of_isArc found ⟨wfTarget, none, notAll⟩] at result
    have proper := Range.addSigned_ofWidth wfTarget offset.wellFormed result
    have width : call.offset.bits = target.range.bits :=
      offset.bits_eq.trans (same.symm.trans proper.bits_eq)
    obtain ⟨sum, summed, meets⟩ := Range.addSigned_spec wfTarget offset.wellFormed width
    cases result.symm.trans summed
    exact ⟨access, meets, ⟨proper.wellFormed, same⟩, inside⟩

/-- A range that absorbs a call allows what the callee accesses, moved by an offset. -/
theorem Absorbs.allows_of_callee {position shift : Int} (allowed : target.range.Allows position)
    (shifted : call.offset.Holds shift)
    : range.Allows (shift + position) := by
  by_cases all : target.range.IsAll
  · exact Or.inl (absorbs.isAll_of_callee wf made found wfTarget all)
  · obtain ⟨sum, meets, proper, inside⟩ := absorbs.exists_sum found wfTarget offset all
    rw [Int.add_comm]
    exact (meets.covers (allowed.resolve_left all) shifted).of_subset proper.wellFormed wf
      proper.bits_eq inside

/-- A range that absorbs a call which accesses something holds something. -/
theorem Absorbs.not_isNone_of_callee (moved : ¬ call.offset.IsNone)
    (some : ¬ target.range.IsNone)
    : ¬ range.IsNone := by
  intro none
  by_cases all : target.range.IsAll
  · exact wf.not_isAll_of_isNone none (absorbs.isAll_of_callee wf made found wfTarget all)
  · obtain ⟨sum, meets, proper, inside⟩ := absorbs.exists_sum found wfTarget offset all
    exact meets.not_isNone wfTarget offset.wellFormed some moved
      (proper.wellFormed.isNone_of_subset wf none inside)

/-- A range that absorbs a call which accesses something at an unknown offset is full. -/
theorem Absorbs.isAll_of_offset (some : ¬ target.range.IsNone) (unknown : call.offset.IsAll)
    : range.IsAll := by
  by_cases all : target.range.IsAll
  · exact absorbs.isAll_of_callee wf made found wfTarget all
  · obtain ⟨sum, meets, proper, inside⟩ := absorbs.exists_sum found wfTarget offset all
    have width : call.offset.bits = target.range.bits :=
      offset.bits_eq.trans (proper.bits_eq.symm.trans meets.ofWidth.bits_eq)
    exact wf.isAll_of_superset (meets.isAll_of_right wfTarget some width unknown)
      proper.bits_eq.symm inside

end Absorbing

/-- The solver only widens and ends in a fixed point: unless a counter runs full, a run has an
answer, with or without the verification pass the same one, in which every parameter covers
what its callees access; it differs from the start in wider ranges and counts only. The last
part speaks of every range along the way: whatever counted visits and widenings came before, the
next widening contains what was known.
-/
theorem run_widens_to_fixedPoint {bits : UInt32} {config : Config} {solver : Solver}
    {functions : Functions} (made : make bits config = .ok solver)
    (wf : functions.WellFormed bits)
    : (((∀ verify, (solver.run verify functions).result = .error .counterOverflow)
          ∧ solver.Overflows functions)
        ∨ ∃ final, (∀ verify, (solver.run verify functions).result = .ok final)
          ∧ final.WellFormed bits
          ∧ solver.Settled final
          ∧ functions.Grows final
          ∧ ReflTransGen solver.Updates functions final)
      ∧ ∀ reached before after func toFull, ReflTransGen solver.Updates functions reached
        → ReflTransGen (solver.Widens func toFull) reached before
        → solver.Widens func toFull before after
        → before.Grows after := by
  constructor
  · rcases run_spec made wf with ⟨result, overflows⟩ | ⟨final, result, chain, settled⟩
    · exact Or.inl ⟨result, overflows⟩
    · obtain ⟨wfFinal, grows⟩ := sized_of_chain made wf chain
      exact Or.inr ⟨final, result, wfFinal, settled, grows, chain⟩
  · intro reached before after func toFull chain partly last
    have wfReached := (sized_of_chain made wf chain).1
    have wfBefore := (Widened.of_chain made wfReached partly).sized
    exact (last.widened made wfBefore).grows

/-- A function that hands its parameter to itself, moved by one, and to a missing function. -/
def handsOn (range : Range) (updates : UInt32) : Functions :=
  .ofList [(.function ⟨0⟩, ⟨.empty,
    .ofList [(0, ⟨range, [⟨.function ⟨0⟩, 0, ⟨64, 1, 2⟩⟩]⟩),
      (1, ⟨Range.top 64, [⟨.summary ⟨7⟩, 0, ⟨64, 0, 1⟩⟩]⟩)], updates⟩)]

/-- With the limit zero, the range of the first parameter grows once and then becomes full. -/
theorem run_handsOn
    : ((Solver.mk (Range.top 64) 0).run false (handsOn ⟨64, 0, 4⟩ 0)).result
      = .ok (handsOn (Range.top 64) 2) := by
  let solver : Solver := ⟨Range.top 64, 0⟩
  let func : Callee := .function ⟨0⟩
  have first : (solver.visitAll [func] ⟨handsOn ⟨64, 0, 4⟩ 0, []⟩).result
      = .ok ⟨handsOn ⟨64, 0, 5⟩ 1, [func]⟩ := rfl
  have second : (solver.visit ⟨handsOn ⟨64, 0, 5⟩ 1, []⟩ func).result
      = .ok ⟨handsOn (Range.top 64) 2, [func]⟩ := rfl
  have third : (solver.visit ⟨handsOn (Range.top 64) 2, []⟩ func).result
      = .ok ⟨handsOn (Range.top 64) 2, []⟩ := rfl
  have drained : (solver.drain ⟨handsOn ⟨64, 0, 5⟩ 1, [func]⟩).result
      = .ok ⟨handsOn (Range.top 64) 2, []⟩ := by
    rw [result_drain_cons rfl, second, ok_bind, result_drain_cons rfl, third, ok_bind,
      result_drain_nil rfl]
  change (solver.run false _).result = _
  simp only [run, Traced.result_bind]
  change (solver.visitAll [func] _).result >>= _ = _
  rw [first, ok_bind, drained, ok_bind]
  rfl

theorem run_widens_to_fixedPoint_handsOn
    : make 64 ⟨0, false, false, true⟩ = .ok ⟨Range.top 64, 0⟩
      ∧ (handsOn ⟨64, 0, 4⟩ 0).WellFormed 64
      ∧ ∃ final,
        (∀ verify, ((Solver.mk (Range.top 64) 0).run verify (handsOn ⟨64, 0, 4⟩ 0)).result
          = .ok final)
        ∧ (Solver.mk (Range.top 64) 0).Settled final
        ∧ (handsOn ⟨64, 0, 4⟩ 0).Grows final := by
  have made : make 64 ⟨0, false, false, true⟩ = .ok ⟨Range.top 64, 0⟩ := rfl
  have wf : (handsOn ⟨64, 0, 4⟩ 0).WellFormed 64 :=
    .of_entries (by decide)
  refine ⟨made, wf, ?_⟩
  rcases (run_widens_to_fixedPoint made wf).1
    with ⟨result, _⟩ | ⟨final, result, _, settled, grows, _⟩
  · cases (result false).symm.trans run_handsOn
  · exact ⟨final, result, settled, grows⟩

end StackBounds.Solver
