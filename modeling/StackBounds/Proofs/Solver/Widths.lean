import StackBounds.Proofs.Solver.Bound

/-! Runs over functions of several widths. What is unknown has the width of the solver, and an
access has the width of the callee, so ranges of different widths can meet. That is the only way
in which a run ends without an answer, besides a counter that runs full; and it takes a call that
sees its callee at another width than its own, in functions that the run passes through.
-/

namespace StackBounds

-----------------------------------------------------------------------------------------
-- Ranges of two widths
-----------------------------------------------------------------------------------------

namespace Range

variable {left right : Range}

theorem contains_of_ne (differ : left.bits ≠ right.bits)
    : left.contains right = .error (.widthMismatch left.bits right.bits) := by
  rw [contains, requireSameWidth, if_neg differ]
  rfl

/-- The extreme elements are classified whatever the widths are. -/
theorem exists_sumOverflow (wfLeft : left.WellFormed) (wfRight : right.WellFormed)
    : ∃ answer, left.sumOverflow right = .ok answer := by
  unfold sumOverflow
  by_cases none : left.IsNone ∨ right.IsNone
  · exact ⟨_, if_pos (by simpa [isEmpty_iff] using none)⟩
  rw [if_neg (by simpa [isEmpty_iff] using none)]
  rw [not_or] at none
  obtain ⟨leftMin, leastLeft, _⟩ := wfLeft.signedMin_spec none.1
  obtain ⟨leftMax, greatestLeft, _⟩ := wfLeft.signedMax_spec none.1
  obtain ⟨rightMin, leastRight, _⟩ := wfRight.signedMin_spec none.2
  obtain ⟨rightMax, greatestRight, _⟩ := wfRight.signedMax_spec none.2
  rw [wfLeft.valid.signedMin_eq, ok_bind, wfLeft.valid.signedMax_eq, ok_bind, leastLeft, ok_bind,
    greatestLeft, ok_bind, leastRight, ok_bind, greatestRight, ok_bind]
  split
  · exact ⟨_, rfl⟩
  split
  · exact ⟨_, rfl⟩
  split
  · exact ⟨_, rfl⟩
  split <;> exact ⟨_, rfl⟩

/-- A signed sum fails for ranges of different widths only. -/
theorem addSigned_ok_or_mismatch (wfLeft : left.WellFormed) (wfRight : right.WellFormed)
    : (∃ sum, left.addSigned right = .ok sum)
      ∨ (left.bits ≠ right.bits
        ∧ left.addSigned right = .error (.widthMismatch left.bits right.bits)) := by
  by_cases same : right.bits = left.bits
  · obtain ⟨sum, summed, _⟩ := addSigned_spec wfLeft wfRight same
    exact Or.inl ⟨sum, summed⟩
  have differ := Ne.symm same
  unfold addSigned
  split
  · exact Or.inl ⟨_, empty_eq wfLeft.valid⟩
  obtain ⟨answer, classified⟩ := exists_sumOverflow wfLeft wfRight
  rw [classified, ok_bind]
  cases answer with
  | never =>
      refine Or.inr ⟨differ, ?_⟩
      simp only [add, requireSameWidth, if_neg differ]
      rfl
  | _ => exact Or.inl ⟨_, full_eq wfLeft.valid⟩

end Range

-----------------------------------------------------------------------------------------
-- How a run ends
-----------------------------------------------------------------------------------------

/-- The width in which what is accessed through a parameter is seen: what is unknown has the width
of the solver.
-/
def Solver.seenWidth (bits : UInt32) : Option Range → UInt32
  | none => bits
  | some range => if range.IsAll then bits else range.bits

/-- A call of a parameter sees its callee at another width than that of the parameter. -/
def Functions.Joins (functions : Functions) (bits : UInt32) : Prop :=
  ∃ func param usage call, functions.param? func param = some usage ∧ call ∈ usage.calls
    ∧ Solver.seenWidth bits ((functions.param? call.callee call.param).map fun target =>
      target.range) ≠ usage.range.bits

namespace Solver

/-- How a computation on functions can end, in a run from a start: with an answer; at ranges of
different widths, if a call joins them where the run passes through; or at a full counter, if there
is no room for all counters.
-/
inductive Ends (solver : Solver) (bits : UInt32) (start : Functions) {α : Type} (good : α → Prop)
    : Except Fault α → Prop
  | answer {answer} (holds : good answer) : solver.Ends bits start good (.ok answer)
  | mismatch {left right passed} (differ : left ≠ right) (passes : solver.Passes start passed)
    (joins : passed.Joins bits)
    : solver.Ends bits start good (.error (.widthMismatch left right))
  | overflow (full : ¬ solver.AllWithin start)
    : solver.Ends bits start good (.error .counterOverflow)

/-- Where a run has come to. -/
structure Reached (solver : Solver) (width : Callee → UInt32) (start functions : Functions)
    : Prop where
  passes : solver.Passes start functions
  sized : functions.Sized width
  grows : start.Grows functions
  within : solver.AllWithin start → solver.AllWithin functions

section Ending

variable {bits : UInt32} {config : Config} {solver : Solver} {width : Callee → UInt32}
  {start functions : Functions}

theorem Reached.refl (sized : start.Sized width) : solver.Reached width start start :=
  ⟨.start, sized, .refl start, id⟩

theorem Ends.bind {α β : Type} {good : α → Prop} {better : β → Prop} {result : Except Fault α}
    {next : α → Except Fault β} (first : solver.Ends bits start good result)
    (later : ∀ answer, result = .ok answer → good answer
      → solver.Ends bits start better (next answer))
    : solver.Ends bits start better (result >>= next) := by
  cases first with
  | answer holds => exact later _ rfl holds
  | mismatch differ passes joins => exact .mismatch differ passes joins
  | overflow full => exact .overflow full

variable (made : make bits config = .ok solver) (sized : functions.Sized width)

include made sized

/-- An access denotes a set, unless the callee has another width than the offsets of the call. -/
theorem access_ends (passes : solver.Passes start functions) {func : Callee} {param : UInt32}
    {usage : Usage Callee} {call : Forward Callee}
    (found : functions.param? func param = some usage) (member : call ∈ usage.calls)
    : solver.Ends bits start Range.WellFormed (solver.access functions call) := by
  have top := (Range.ofWidth_top (valid_of_make made)).wellFormed
  have proper := sized.usages _ _ _ found
  have offset := proper.offset call member
  cases foundTarget : functions.param? call.callee call.param with
  | none =>
      rw [access_of_none made foundTarget]
      exact .answer top
  | some target =>
      have range := (sized.usages _ _ _ foundTarget).range.wellFormed
      by_cases none : target.range.IsNone
      · rw [access_of_isNone foundTarget none]
        exact .answer range
      by_cases all : target.range.IsAll
      · rw [access_of_isAll made foundTarget range all]
        exact .answer top
      · rw [access_of_isArc foundTarget ⟨range, none, all⟩]
        rcases Range.addSigned_ok_or_mismatch range offset.wellFormed
          with ⟨sum, summed⟩ | ⟨differ, failed⟩
        · rw [summed]
          exact .answer (Range.addSigned_ofWidth range offset.wellFormed summed).wellFormed
        · rw [failed]
          refine .mismatch differ passes ⟨func, param, usage, call, found, member, ?_⟩
          rw [foundTarget, Option.map_some, seenWidth, if_neg all, proper.range.bits_eq]
          exact offset.bits_eq ▸ differ

/-- An access has the width in which its callee is seen. -/
theorem access_bits {func : Callee} {param : UInt32} {usage : Usage Callee}
    {call : Forward Callee} {access : Range} (found : functions.param? func param = some usage)
    (member : call ∈ usage.calls) (accessed : solver.access functions call = .ok access)
    : access.bits
      = seenWidth bits ((functions.param? call.callee call.param).map fun target =>
        target.range) := by
  cases foundTarget : functions.param? call.callee call.param with
  | none =>
      rw [access_of_none made foundTarget] at accessed
      cases accessed
      rfl
  | some target =>
      have range := (sized.usages _ _ _ foundTarget).range.wellFormed
      rw [Option.map_some, seenWidth]
      by_cases all : target.range.IsAll
      · rw [access_of_isAll made foundTarget range all] at accessed
        cases accessed
        rw [if_pos all]
        rfl
      rw [if_neg all]
      by_cases none : target.range.IsNone
      · rw [access_of_isNone foundTarget none] at accessed
        cases accessed
        rfl
      · rw [access_of_isArc foundTarget ⟨range, none, all⟩] at accessed
        have offset := (sized.usages _ _ _ found).offset call member
        exact (Range.addSigned_ofWidth range offset.wellFormed accessed).bits_eq

/-- A call is accounted for unless the widths differ. -/
theorem absorb_ends (passes : solver.Passes start functions) {func : Callee} {param : UInt32}
    {usage : Usage Callee} {call : Forward Callee} (toFull : Bool)
    (found : functions.param? func param = some usage) (member : call ∈ usage.calls)
    : solver.Ends bits start (fun _ => True)
        (solver.absorb func toFull functions param call) := by
  have known := (sized.usages _ _ _ found).range.wellFormed
  simp only [absorb, found]
  refine (access_ends made sized passes found member).bind fun access accessed wf => ?_
  by_cases same : usage.range.bits = access.bits
  · obtain ⟨inside, decided, _⟩ := Range.contains_spec known wf same
    rw [decided, ok_bind]
    split
    · exact .answer trivial
    obtain ⟨range, grown⟩ : ∃ range, growth toFull usage.range access = .ok range := by
      obtain ⟨range, covered, _⟩ := Range.cover_spec known wf same
      cases toFull with
      | true => exact ⟨_, Range.full_eq known.valid⟩
      | false => exact ⟨range, covered⟩
    rw [grown, ok_bind]
    exact .answer trivial
  · rw [Range.contains_of_ne same]
    refine .mismatch same passes ⟨func, param, usage, call, found, member, ?_⟩
    rw [← access_bits made sized found member accessed]
    exact Ne.symm same

/-- A sweep has an answer unless widths differ, if the run passes through what some of the calls
leave; by induction on the calls.
-/
theorem sweep_ends (func : Callee) (toFull : Bool) (calls : List (UInt32 × Forward Callee))
    (lists : Lists functions func calls)
    (passes : ∀ done rest answer, calls = done ++ rest
      → solver.sweep func toFull done functions = .ok answer
      → solver.Passes start (answer.getD functions))
    : solver.Ends bits start (fun _ => True) (solver.sweep func toFull calls functions) := by
  induction calls generalizing functions with
  | nil => exact .answer trivial
  | cons head rest ih =>
      obtain ⟨param, call⟩ := head
      obtain ⟨usage, found, listed⟩ := lists (param, call) List.mem_cons_self
      have here : solver.Passes start functions := passes [] _ none rfl rfl
      refine (absorb_ends made sized here toFull found listed).bind fun first absorbing _ => ?_
      cases first with
      | none =>
          refine ih sized lists.tail fun done later answer split swept => ?_
          refine passes ((param, call) :: done) later answer (by rw [split]; rfl) ?_
          rw [sweep, absorbing, ok_bind, swept]
      | some grown =>
          have widened := Widens.widened made sized ⟨param, usage, call, found, listed, absorbing⟩
          refine (ih widened.sized (lists.tail.of_grows widened.grows)
            fun done later answer split swept => ?_).bind fun _ _ _ => .answer trivial
          refine passes ((param, call) :: done) later (some (answer.getD grown))
            (by rw [split]; rfl) ?_
          rw [sweep, absorbing, ok_bind]
          simp only [swept, ok_bind, pure_eq_ok]

omit sized

/-- A visit ends with grown functions, at different widths or at a full counter. -/
theorem visit_ends (state : State) (func : Callee)
    (reached : solver.Reached width start state.functions)
    : solver.Ends bits start (fun after => solver.Reached width start after.functions)
        (solver.visit state func).result := by
  cases found : state.functions.get? func with
  | none =>
      rw [visit, found]
      exact .answer reached
  | some info =>
      have sized := reached.sized
      have lists := lists_forwards found
      have ends := sweep_ends made sized func (decide (solver.limit < info.updates)) info.forwards
        lists fun done rest answer split swept => by
          cases answer with
          | none => exact reached.passes
          | some grown => exact reached.passes.swept found split swept
      cases sweeping : solver.sweep func (decide (solver.limit < info.updates)) info.forwards
          state.functions with
      | error fault =>
          rw [sweeping] at ends
          simp only [visit, found, Traced.result_bind, Traced.result_liftM, sweeping]
          exact ends.bind fun _ impossible => by cases impossible
      | ok answer =>
          have visited := result_visit found sweeping
          cases answer with
          | none =>
              rw [visited]
              exact .answer reached
          | some grown =>
              have chain := (swept_of_sweep made sized lists sweeping).chain grown rfl
              have counts (within : solver.AllWithin start) :=
                (reached.within within).countUpdate found chain
              simp only at visited
              split at visited
              · rename_i fits
                obtain ⟨sizedAfter, grows⟩ :=
                  Updates.grows made sized ⟨func, info, grown, found, chain, fits, rfl⟩
                rw [visited]
                exact .answer ⟨reached.passes.visited visited, sizedAfter,
                  reached.grows.trans grows, fun within => (counts within).2⟩
              · rename_i full
                rw [visited]
                exact .overflow fun within => full (counts within).1

theorem visitAll_ends (todo : List Callee) (state : State)
    (reached : solver.Reached width start state.functions)
    : solver.Ends bits start (fun after => solver.Reached width start after.functions)
        (solver.visitAll todo state).result := by
  induction todo generalizing state with
  | nil => exact .answer reached
  | cons func rest ih =>
      rw [visitAll, Traced.result_bind]
      exact (visit_ends made state func reached).bind fun middle _ later => ih middle later

/-- Draining the queue ends likewise; by the induction that makes it end. -/
theorem drain_ends (state : State) (reached : solver.Reached width start state.functions)
    : solver.Ends bits start (fun after => solver.Reached width start after.functions)
        (solver.drain state).result := by
  induction state using drain.induct solver with
  | case1 state empty =>
      rw [result_drain_nil empty]
      exact .answer reached
  | case2 state func rest queue visited fault failed =>
      rw [result_drain_cons queue]
      refine (visit_ends made ⟨state.functions, rest⟩ func reached).bind fun middle visit _ => ?_
      cases failed.symm.trans visit
  | case3 state func rest queue visited middle visit ih =>
      rw [result_drain_cons queue]
      refine (visit_ends made ⟨state.functions, rest⟩ func reached).bind fun same again later => ?_
      cases visit.symm.trans again
      exact ih later

/-- A run over functions of several widths ends with grown functions, at different widths or at a
full counter.
-/
theorem run_ends (verify : Bool) (sized : start.Sized width)
    : solver.Ends bits start (fun final => solver.Reached width start final)
        (solver.run verify start).result := by
  rw [result_run made sized]
  refine (visitAll_ends made start.keys ⟨start, []⟩ (.refl sized)).bind fun first _ reached => ?_
  refine (drain_ends made first reached).bind fun last _ reachedLast => ?_
  exact .answer reachedLast

end Ending

end Solver

end StackBounds
