import StackBounds.Proofs.Solver.Growth

/-! The steps of the solver. A widening replaces the range of one parameter, a sweep is a chain of
widenings of one function, and a visit that changes anything is a sweep that is counted.
-/

namespace StackBounds.Solver

open Relation (TransGen ReflTransGen)

/-- The access of a call lies inside the range. -/
def Covers (solver : Solver) (functions : Functions) (range : Range) (call : Forward Callee)
    : Prop :=
  ∃ access, solver.access functions call = .ok access ∧ access ⊆ range

/-- The access of a call has the width of the range and lies inside it. -/
def Absorbs (solver : Solver) (functions : Functions) (range : Range) (call : Forward Callee)
    : Prop :=
  ∃ access, solver.access functions call = .ok access ∧ access.bits = range.bits ∧ access ⊆ range

theorem Absorbs.covers {solver : Solver} {functions : Functions} {range : Range}
    {call : Forward Callee} (absorbs : solver.Absorbs functions range call)
    : solver.Covers functions range call := by
  obtain ⟨access, result, _, inside⟩ := absorbs
  exact ⟨access, result, inside⟩

/-- Every parameter of the function covers its calls. -/
def SettledAt (solver : Solver) (functions : Functions) (func : Callee) : Prop :=
  ∀ param usage, functions.param? func param = some usage
    → ∀ call ∈ usage.calls, solver.Covers functions usage.range call

/-- Every parameter of every function covers its calls. -/
def Settled (solver : Solver) (functions : Functions) : Prop :=
  ∀ func, solver.SettledAt functions func

/-- A call makes the range of a parameter of the function grow. -/
def Widens (solver : Solver) (func : Callee) (toFull : Bool) (before after : Functions) : Prop :=
  ∃ param usage call, before.param? func param = some usage ∧ call ∈ usage.calls
    ∧ solver.absorb func toFull before param call = .ok (some after)

/-- A visit makes parameters of a function grow and counts that once. The ranges become full when
the function has been counted more often than the limit.
-/
def Updates (solver : Solver) (before after : Functions) : Prop :=
  ∃ func info grown, before.get? func = some info
    ∧ TransGen (solver.Widens func (decide (solver.limit < info.updates))) before grown
    ∧ info.updates.toNat + 1 < UInt32.size
    ∧ after = grown.countUpdate func

/-- What widenings of one function leave behind: other functions and all counts stay. -/
structure Widened (width : Callee → UInt32) (func : Callee) (before after : Functions)
    : Prop where
  sized : after.Sized width
  grows : before.Grows after
  others : ∀ other param, other ≠ func → after.param? other param = before.param? other param
  counts : ∀ other, after.updates? other = before.updates? other

theorem Widened.refl {width : Callee → UInt32} {func : Callee} {functions : Functions}
    (sized : functions.Sized width)
    : Widened width func functions functions :=
  ⟨sized, Functions.Grows.refl functions, fun _ _ _ => rfl, fun _ => rfl⟩

theorem Widened.trans {width : Callee → UInt32} {func : Callee} {first second third : Functions}
    (below : Widened width func first second) (above : Widened width func second third)
    : Widened width func first third := by
  refine ⟨above.sized, below.grows.trans above.grows, ?_, ?_⟩
  · intro other param differ
    rw [above.others other param differ, below.others other param differ]
  · intro other
    rw [above.counts other, below.counts other]

section Widening

variable {bits : UInt32} {config : Config} {solver : Solver} {width : Callee → UInt32}
  {functions after : Functions} {func : Callee} {toFull : Bool}
  (made : make bits config = .ok solver) (sized : functions.Sized width)

include made sized

/-- What a widening does. -/
theorem widens_cases (widens : solver.Widens func toFull functions after)
    : ∃ param usage call access range, functions.param? func param = some usage
        ∧ call ∈ usage.calls ∧ solver.access functions call = .ok access
        ∧ ¬ access ⊆ usage.range ∧ growth toFull usage.range access = .ok range
        ∧ range.OfWidth (width func) ∧ usage.range ⊆ range
        ∧ after = functions.setRange func param range := by
  obtain ⟨param, usage, call, found, member, result⟩ := widens
  obtain ⟨access, hasAccess, _, ⟨_, none⟩ | ⟨outside, range, grown, proper, wider, _, changed⟩⟩ :=
    absorb_cases sized found made member result
  · cases none
  · cases changed
    exact ⟨param, usage, call, access, range, found, member, hasAccess, outside, grown, proper,
      wider, rfl⟩

theorem Widens.widened (widens : solver.Widens func toFull functions after)
    : Widened width func functions after := by
  obtain ⟨param, usage, _, _, range, found, _, _, _, _, proper, wider, rfl⟩ :=
    widens_cases made sized widens
  have grows := Functions.grows_setRange found wider
  refine ⟨sized.of_grows grows ?_, grows, ?_, ?_⟩
  · intro other parameter grown foundGrown
    by_cases same : other = func ∧ parameter = param
    · obtain ⟨rfl, rfl⟩ := same
      rw [Functions.param?_setRange_self range found, Option.some.injEq] at foundGrown
      exact foundGrown ▸ proper
    · rw [Functions.param?_setRange_of_ne functions range same] at foundGrown
      exact (sized.usages _ _ _ foundGrown).range
  · intro other parameter differ
    exact Functions.param?_setRange_of_ne functions range fun h => differ h.1
  · intro other
    exact Functions.updates?_setRange functions func other param range

theorem Widened.of_chain (chain : ReflTransGen (solver.Widens func toFull) functions after)
    : Widened width func functions after := by
  induction chain with
  | refl => exact .refl sized
  | tail _ last ih => exact ih.trans (last.widened made ih.sized)

/-- A counted visit keeps the functions well-formed and only grows. -/
theorem Updates.grows (updates : solver.Updates functions after)
    : after.Sized width ∧ functions.Grows after := by
  obtain ⟨func, info, grown, found, chain, fits, rfl⟩ := updates
  have widened := Widened.of_chain made sized chain.to_reflTransGen
  have count := widened.counts func
  rw [Functions.updates?, Functions.updates?, found, Option.map_some, Option.map_eq_some_iff]
    at count
  obtain ⟨later, foundLater, same⟩ := count
  have grows := Functions.grows_countUpdate foundLater (same ▸ fits)
  refine ⟨widened.sized.of_grows grows ?_, widened.grows.trans grows⟩
  intro other param usage foundUsage
  rw [Functions.param?_countUpdate] at foundUsage
  exact (widened.sized.usages _ _ _ foundUsage).range

theorem sized_of_chain (chain : ReflTransGen solver.Updates functions after)
    : after.Sized width ∧ functions.Grows after := by
  induction chain with
  | refl => exact ⟨sized, Functions.Grows.refl functions⟩
  | tail _ last ih =>
      obtain ⟨sizedAfter, growsAfter⟩ := last.grows made ih.1
      exact ⟨sizedAfter, ih.2.trans growsAfter⟩

end Widening

-----------------------------------------------------------------------------------------
-- Sweeps
-----------------------------------------------------------------------------------------

/-- The entries are calls of parameters of the function. -/
def Lists (functions : Functions) (func : Callee) (calls : List (UInt32 × Forward Callee))
    : Prop :=
  ∀ entry ∈ calls, ∃ usage, functions.param? func entry.1 = some usage ∧ entry.2 ∈ usage.calls

/-- The parameter of an entry absorbs the call of the entry. -/
def Accounts (solver : Solver) (functions : Functions) (func : Callee)
    (entry : UInt32 × Forward Callee)
    : Prop :=
  ∀ usage, functions.param? func entry.1 = some usage
    → solver.Absorbs functions usage.range entry.2

/-- What a sweep finds out. A call of the function itself may see ranges that grow later, so only
the others are known to be absorbed at the end.
-/
structure Swept (solver : Solver) (func : Callee) (toFull : Bool)
    (calls : List (UInt32 × Forward Callee)) (functions : Functions) (answer : Option Functions)
    : Prop where
  still : answer = none → ∀ entry ∈ calls, solver.Accounts functions func entry
  chain : ∀ grown, answer = some grown → TransGen (solver.Widens func toFull) functions grown
  absorbed : ∀ grown, answer = some grown
    → ∀ entry ∈ calls, entry.2.callee ≠ func → solver.Accounts grown func entry

/-- An absorbed call of another function stays absorbed. -/
theorem Accounts.of_widened {solver : Solver} {width : Callee → UInt32} {func : Callee}
    {before after : Functions} {entry : UInt32 × Forward Callee}
    (accounts : solver.Accounts before func entry) (sized : before.Sized width)
    (widened : Widened width func before after) (other : entry.2.callee ≠ func)
    : solver.Accounts after func entry := by
  intro usage found
  obtain ⟨earlier, foundBefore, grows⟩ := widened.grows.exists_param? found
  obtain ⟨access, result, same, inside⟩ := accounts earlier foundBefore
  have before := (sized.usages _ _ _ foundBefore).range.bits_eq
  have after := (widened.sized.usages _ _ _ found).range.bits_eq
  refine ⟨access, ?_, same.trans (before.trans after.symm),
    Range.subset_trans inside grows.range⟩
  rw [← result, Solver.access, Solver.access, widened.others _ _ other]

theorem Lists.of_grows {functions after : Functions} {func : Callee}
    {calls : List (UInt32 × Forward Callee)} (lists : Lists functions func calls)
    (grows : functions.Grows after)
    : Lists after func calls := by
  intro entry member
  obtain ⟨usage, found, listed⟩ := lists entry member
  obtain ⟨grown, foundGrown, growsUsage⟩ := grows.param?_some found
  exact ⟨grown, foundGrown, growsUsage.calls ▸ listed⟩

theorem Lists.tail {functions : Functions} {func : Callee} {head : UInt32 × Forward Callee}
    {rest : List (UInt32 × Forward Callee)} (lists : Lists functions func (head :: rest))
    : Lists functions func rest :=
  fun entry member => lists entry (List.mem_cons_of_mem _ member)

section Sweeping

variable {bits : UInt32} {config : Config} {solver : Solver}
  (made : make bits config = .ok solver)

include made

/-- What the answer of a sweep means; by induction on the calls. -/
theorem swept_of_sweep {width : Callee → UInt32} {func : Callee} {toFull : Bool}
    {calls : List (UInt32 × Forward Callee)} {functions : Functions} {answer : Option Functions}
    (sized : functions.Sized width) (lists : Lists functions func calls)
    (result : solver.sweep func toFull calls functions = .ok answer)
    : solver.Swept func toFull calls functions answer := by
  induction calls generalizing functions answer with
  | nil =>
      cases result
      refine ⟨fun _ entry member => ?_, fun grown h => ?_, fun grown h => ?_⟩
      · cases member
      · cases h
      · cases h
  | cons head rest ih =>
      obtain ⟨param, call⟩ := head
      obtain ⟨usage, found, listed⟩ := lists (param, call) List.mem_cons_self
      obtain ⟨first, absorbing, result⟩ := exists_of_bind_eq_ok result
      obtain ⟨access, hasAccess, proper,
          ⟨inside, rfl⟩ | ⟨_, range, _, properRange, wider, covered, rfl⟩⟩ :=
        absorb_cases sized found made listed absorbing
      · -- The head is absorbed, and the rest decides.
        have accounts : solver.Accounts functions func (param, call) := by
          intro other foundOther
          rw [found, Option.some.injEq] at foundOther
          subst foundOther
          exact ⟨access, hasAccess,
            proper.bits_eq.trans (sized.usages _ _ _ found).range.bits_eq.symm, inside⟩
        have swept := ih sized lists.tail result
        refine ⟨?_, swept.chain, ?_⟩
        · intro none entry member
          rcases List.mem_cons.mp member with rfl | later
          · exact accounts
          · exact swept.still none entry later
        · intro grown some entry member other
          rcases List.mem_cons.mp member with rfl | later
          · have chain := (swept.chain grown some).to_reflTransGen
            exact accounts.of_widened sized (.of_chain made sized chain) other
          · exact swept.absorbed grown some entry later other
      · -- The head widens a range; the rest goes on from there.
        have first : solver.Widens func toFull functions (functions.setRange func param range) :=
          ⟨param, usage, call, found, listed, absorbing⟩
        have widened := first.widened made sized
        have accounts : call.callee ≠ func
            → solver.Accounts (functions.setRange func param range) func (param, call) := by
          intro other later foundLater
          rw [Functions.param?_setRange_self range found, Option.some.injEq] at foundLater
          subst foundLater
          refine ⟨access, ?_, proper.bits_eq.trans properRange.bits_eq.symm, covered⟩
          rw [← hasAccess, Solver.access, Solver.access, widened.others _ _ other]
        obtain ⟨later, sweeping, result⟩ := exists_of_bind_eq_ok result
        have swept := ih widened.sized (lists.tail.of_grows widened.grows) sweeping
        cases result
        refine ⟨?_, ?_, ?_⟩
        · intro h
          cases h
        · intro grown h
          cases h
          cases later with
          | none => exact .single first
          | some last => exact .head first (swept.chain last rfl)
        · intro grown h entry member other
          cases h
          cases later with
          | none =>
              rcases List.mem_cons.mp member with rfl | member
              · exact accounts other
              · exact swept.still rfl entry member
          | some last =>
              rcases List.mem_cons.mp member with rfl | member
              · have chain := (swept.chain last rfl).to_reflTransGen
                exact (accounts other).of_widened widened.sized
                  (.of_chain made widened.sized chain) other
              · exact swept.absorbed last rfl entry member other

/-- At one width a sweep has an answer; by induction on the calls. -/
theorem sweep_ok (func : Callee) (toFull : Bool) (calls : List (UInt32 × Forward Callee))
    {functions : Functions} (wf : functions.WellFormed bits) (lists : Lists functions func calls)
    : ∃ answer, solver.sweep func toFull calls functions = .ok answer := by
  induction calls generalizing functions with
  | nil => exact ⟨none, rfl⟩
  | cons head rest ih =>
      obtain ⟨param, call⟩ := head
      obtain ⟨usage, found, listed⟩ := lists (param, call) List.mem_cons_self
      obtain ⟨first, absorbing⟩ := absorb_ok made wf toFull found listed
      rw [sweep, absorbing, ok_bind]
      cases first with
      | none => exact ih wf lists.tail
      | some grown =>
          have widened := Widens.widened made wf ⟨param, usage, call, found, listed, absorbing⟩
          obtain ⟨later, sweeping⟩ := ih widened.sized (lists.tail.of_grows widened.grows)
          exact ⟨some (later.getD grown), by simp only [sweeping, ok_bind, pure_eq_ok]⟩

end Sweeping

end StackBounds.Solver
