import StackBounds.Proofs.Analysis
import StackBounds.Proofs.Containment
import StackBounds.Proofs.Storage

/-! The verdict: an allocation that is found safe stays in sight along every chain of calls, and
the bytes that are accessed through it are its own unless a memory operation runs with a length of
at least half the address space.
-/

namespace StackBounds

open Word

namespace Module

variable {unit : Module} {possible : FunctionId → Possible} {config : Config} {solver : Solver}
  {final : Functions}

-----------------------------------------------------------------------------------------
-- Verdicts
-----------------------------------------------------------------------------------------

/-- The stages of an analysis lead to a verdict when all allocations can be judged. -/
theorem exists_verdict_of_judged {locals : List (FunctionId × FunctionUsage Global)}
    {start : Functions} {safe : List (FunctionId × InstId)} (quiet : config.print = false)
    (listed : unit.analyzeLocally.result = .ok locals)
    (resolved : List.Forall₂
      (fun entry answer => answer.1 = .function entry.1
        ∧ (unit.resolveParams none entry.2).result = .ok answer.2)
      locals start.entries)
    (made : Solver.make unit.pointerWidth.bits config = .ok solver)
    (ran : (solver.run config.verify start).result = .ok final)
    (judged : (locals.mapM fun entry => (unit.conclude none solver final entry).result)
      >>= (fun concluded => pure (safeAllocas concluded)) = .ok safe)
    : ∃ verdict, (unit.analyze none config).result = .ok verdict ∧ verdict.safe = safe := by
  obtain ⟨concluded, concluding, judged⟩ := exists_of_bind_eq_ok judged
  obtain ⟨_, analyzed⟩ := result_analyze quiet listed resolved made ran concluding
  exact ⟨_, analyzed, Except.ok.inj judged⟩

/-- All bit vectors of the right widths, where constants and some chosen results are given numbers
only.
-/
def pinned (unit : Module) (pins : List (ValueId × List Int)) (id : FunctionId) : Possible :=
  fun name bits => {vector | ∃ func value, unit.function id = .ok func
    ∧ func.value name = .ok value
    ∧ bits = (Function.width unit.pointerWidth value).toNat
    ∧ (∀ imm, value = .constant imm → vector = BitVec.ofInt bits imm.toInt)
    ∧ ∀ numbers, (name, numbers) ∈ pins → ∃ number ∈ numbers, vector = BitVec.ofInt bits number}

theorem pinned_closed {pins : List (ValueId × List Int)} {id : FunctionId} {func : Function}
    (found : unit.function id = .ok func)
    (results : ∀ {name inst ty op bits} {vector : BitVec bits},
      func.value name = .ok (.result inst ty) → func.inst inst = .ok op
      → vector ∈ unit.pinned pins id name bits → op.Yields (unit.pinned pins id) vector)
    : (unit.pinned pins id).Closed func unit.pointerWidth := by
  refine ⟨?_, ?_, results⟩
  · rintro name value bits vector valued ⟨_, _, foundAgain, valuedAgain, width, _⟩
    cases found.symm.trans foundAgain
    cases valued.symm.trans valuedAgain
    exact width
  · rintro name imm bits vector valued ⟨_, _, foundAgain, valuedAgain, _, constant, _⟩
    cases found.symm.trans foundAgain
    cases valued.symm.trans valuedAgain
    exact constant imm rfl

/-- Everything that happens to an allocation that is judged safe stays inside its bounds. -/
theorem exists_contained {place : Place} {func : Function} {alloca : InstId}
    {usage : Usage Global} {judged : Judged} (solved : unit.Solved possible config solver final)
    (explains : unit.Explains possible Eq place usage)
    (allocates : func.Allocates unit.pointerWidth alloca)
    (result : (unit.judge none solver final func (alloca, usage)).result = .ok judged)
    (safe : judged.safe = true)
    : ∃ size whole settled, func.AllocaSize unit.pointerWidth alloca size
      ∧ size < half unit.pointerWidth.bits
      ∧ (∀ position, whole.Holds position ↔ 0 ≤ position ∧ position < size)
      ∧ unit.Contained possible solver final whole place (some 0) settled := by
  obtain ⟨size, resolved, range, whole, allocated, small, properWhole, notAll, elements,
    resolution, proper, grows, included, covers⟩ :=
    exists_size_of_judged rangesWellFormed_none solved.made solved.wellFormed explains.wellFormed
      allocates result safe
  have explained := resolveCalls_explains explains resolution
  have width := properWhole.bits_eq.trans proper.bits_eq.symm
  refine ⟨size, whole, ⟨range, resolved.calls⟩, allocated, small, elements, ?_, ?_, ?_⟩
  · exact ⟨explained.of_grows ⟨rfl, grows⟩ proper, covers⟩
  · exact fun all => notAll (properWhole.wellFormed.isAll_of_superset all width included)
  · intro position held
    rw [Int.zero_add]
    exact (proper.wellFormed.subset_iff_holds properWhole.wellFormed width.symm).mp included
      position held

-----------------------------------------------------------------------------------------
-- Safe allocations
-----------------------------------------------------------------------------------------

/-- The address of a safe allocation never gets lost, and it is used for its own bytes only exactly
when no memory operation on it runs with a length of at least half the address space.
-/
theorem analyze_safe_inBounds_iff {verdict : Verdict} {id : FunctionId} {alloca : InstId}
    (built : unit.Built) (numbered : unit.Numbered)
    (closed : ∀ {id func}, unit.function id = .ok func
      → (possible id).Closed func unit.pointerWidth)
    (analyzed : (unit.analyze none config).result = .ok verdict)
    (safe : (id, alloca) ∈ verdict.safe)
    : ∃ func base size, unit.function id = .ok func
      ∧ func.resultOf alloca = some base
      ∧ func.AllocaSize unit.pointerWidth alloca size
      ∧ ¬ unit.Lost possible ⟨id, base, some alloca⟩
      ∧ ((∀ byte, unit.Touches possible ⟨id, base, some alloca⟩ byte
          → ∃ position, byte = some position ∧ 0 ≤ position ∧ position < size)
        ↔ ¬ unit.Overlong possible ⟨id, base, some alloca⟩) := by
  obtain ⟨analysis⟩ := exists_analysis analyzed
  obtain ⟨func, usages, usage, judged, found, member, listed, result, isSafe⟩ :=
    analysis.exists_judged safe
  have solved := solved_of_run analysis.made (analysis.start_wellFormed rangesWellFormed_none)
    (analysis.start_explains built.oneResult closed) analysis.ran
  have explains := analysis.locals_explain built.oneResult closed member
  obtain ⟨_, base, foundAgain, allocates, results, explainsAlloca⟩ := explains.allocas _ listed
  cases found.symm.trans foundAgain
  obtain ⟨size, whole, settled, allocated, small, elements, contained⟩ :=
    exists_contained solved explainsAlloca allocates result isSafe
  refine ⟨func, base, size, found, results, allocated, not_lost numbered solved contained, ?_, ?_⟩
  · intro inside long
    obtain ⟨byte, touched, outside⟩ := exists_touches_of_overlong small long
    exact outside (inside byte touched)
  · intro short byte touched
    obtain ⟨position, same, held⟩ := holds_of_touches numbered solved contained short touched
    exact ⟨position, same, (elements position).mp held⟩

/-- Stores four bytes through its parameter. -/
def put : Function where
  sig := .declared "put" .internal [.ptr] .unit
  values := [.argument .ptr 0, .constant (.i32 7)]
  insts := [.store ⟨0⟩ ⟨1⟩, .ret none]
  blockCount := 1
  layout := [⟨⟨0⟩, [⟨0⟩, ⟨1⟩]⟩]

/-- Passes on the second half of an allocation of eight bytes. -/
def passHalf : Function where
  sig := .declared "passHalf" .exported [] .unit
  values := [.result ⟨0⟩ .ptr, .constant (.i64 4), .result ⟨1⟩ .ptr]
  insts := [.alloca (.array .i8 8) none, .ptrAdd ⟨0⟩ ⟨1⟩,
    .call ⟨.direct (.function ⟨0⟩), [⟨2⟩], [], .unit⟩, .ret none]
  blockCount := 1
  layout := [⟨⟨0⟩, [⟨0⟩, ⟨1⟩, ⟨2⟩, ⟨3⟩]⟩]

def halves : Module := ⟨"halves", ⟨.x86_64, .unknown, .linux⟩, [put, passHalf], []⟩

/-- Declares both functions and writes one after the other. -/
def halving : List Command :=
  [.declareFunction put.sig, .declareFunction passHalf.sig,
    .session ⟨0⟩ [.appendBlock, .selectBlock ⟨0⟩, .constant (.i32 7), .append (.store ⟨0⟩ ⟨1⟩),
      .append (.ret none)],
    .session ⟨1⟩ [.appendBlock, .selectBlock ⟨0⟩, .append (.alloca (.array .i8 8) none),
      .constant (.i64 4), .append (.ptrAdd ⟨0⟩ ⟨1⟩), .call (.function ⟨0⟩) [⟨2⟩] [],
      .append (.ret none), .finish]]

theorem halves_built : halves.Built :=
  ⟨"halves", halves.target, halving, by decide +kernel⟩

theorem halves_closed {id : FunctionId} {func : Function} (found : halves.function id = .ok func)
    : (halves.pinned [] id).Closed func halves.pointerWidth := by
  refine pinned_closed found ?_
  intro name inst ty op bits vector _ made _
  -- No instruction of the module computes a number.
  have listed : func ∈ [put, passHalf] := mem_of_function found
  have member := List.mem_of_getElem? (Function.inst_eq_ok_iff.mp made)
  simp only [List.mem_cons, List.not_mem_nil, or_false] at listed
  rcases listed with rfl | rfl
  · simp only [put, List.mem_cons, List.not_mem_nil, or_false] at member
    rcases member with rfl | rfl <;> trivial
  · simp only [passHalf, List.mem_cons, List.not_mem_nil, or_false] at member
    rcases member with rfl | rfl | rfl | rfl <;> trivial

/-- The solver's view of the two functions. -/
def halvesFunctions : Functions :=
  .ofList [(.function ⟨0⟩, ⟨.empty, .ofList [(0, ⟨⟨64, 0, 4⟩, []⟩)], 0⟩), (.function ⟨1⟩, .empty)]

theorem exists_verdict_halves
    : ∃ verdict, (halves.analyze none {}).result = .ok verdict
      ∧ verdict.safe = [(⟨1⟩, ⟨0⟩)] := by
  let usagesPut : FunctionUsage Global := ⟨.empty, .ofList [(0, ⟨⟨64, 0, 4⟩, []⟩)], 0⟩
  let usagesHalf : FunctionUsage Global :=
    ⟨.ofList [(⟨0⟩, ⟨⟨64, 0, 0⟩, [⟨.function ⟨0⟩, 0, ⟨64, 4, 5⟩⟩]⟩)], .empty, 0⟩
  have straightPut : put.IsStraight ⟨⟨0⟩, [⟨0⟩, ⟨1⟩]⟩ := ⟨rfl, rfl, rfl⟩
  have straightHalf : passHalf.IsStraight ⟨⟨0⟩, [⟨0⟩, ⟨1⟩, ⟨2⟩, ⟨3⟩]⟩ := ⟨rfl, rfl, rfl⟩
  have listed : halves.analyzeLocally.result = .ok [(⟨0⟩, usagesPut), (⟨1⟩, usagesHalf)] := by
    rw [analyzeLocally, Traced.result_mapM]
    change List.mapM _ [FunctionId.mk 0, ⟨1⟩] = _
    refine mapM_eq_ok_iff.mpr (.cons ?_ (.cons ?_ .nil))
    · rw [Traced.result_bind, straightPut.analyzeFunction rfl]
      decide +kernel
    · rw [Traced.result_bind, straightHalf.analyzeFunction rfl]
      decide +kernel
  have ran : ((Solver.mk (Range.top 64) 20).run true halvesFunctions).result
      = .ok halvesFunctions := Solver.run_of_visitAll true rfl
  exact exists_verdict_of_judged rfl listed
    (.cons ⟨rfl, by decide +kernel⟩ (.cons ⟨rfl, by decide +kernel⟩ .nil)) rfl ran
    (by decide +kernel)

/-- The last byte of the allocation is written through the call. -/
theorem halves_touches : halves.Touches (halves.pinned []) ⟨⟨1⟩, ⟨0⟩, some ⟨0⟩⟩ (some 7) := by
  have straightPut : put.IsStraight ⟨⟨0⟩, [⟨0⟩, ⟨1⟩]⟩ := ⟨rfl, rfl, rfl⟩
  have straightHalf : passHalf.IsStraight ⟨⟨0⟩, [⟨0⟩, ⟨1⟩, ⟨2⟩, ⟨3⟩]⟩ := ⟨rfl, rfl, rfl⟩
  have derived : passHalf.Derived (.straight passHalf ⟨0⟩) ⟨0⟩ ⟨2⟩ :=
    .result .base (MarkedFlow.executes_straight (rfl : passHalf.blockOf ⟨1⟩ = _)) rfl rfl
      List.mem_cons_self rfl
  have passed : halves.UsedAt ⟨⟨1⟩, ⟨0⟩, some ⟨0⟩⟩
      ⟨passHalf, .straight passHalf ⟨0⟩, ⟨2⟩, ⟨⟨2⟩, 0⟩,
        .call ⟨.direct (.function ⟨0⟩), [⟨2⟩], [], .unit⟩⟩ :=
    ⟨rfl, straightHalf.control, derived, MarkedFlow.executes_straight rfl, rfl, rfl⟩
  have root : passHalf.Points .w64 (halves.pinned [] ⟨1⟩) ⟨0⟩ ⟨0⟩ 0 := by
    refine .root ⟨_, rfl, ?_⟩
    rintro _ ⟨⟩
    exact ⟨_, rfl, rfl⟩
  have four : BitVec.ofInt 64 4 ∈ halves.pinned [] ⟨1⟩ ⟨1⟩ 64 := by
    refine ⟨passHalf, _, rfl, rfl, rfl, ?_, by simp⟩
    rintro _ ⟨⟩
    rfl
  have carried : halves.Carried (halves.pinned []) ⟨⟨1⟩, ⟨0⟩, some ⟨0⟩⟩ ⟨⟨0⟩, ⟨0⟩, none⟩ (some 4) :=
    .call .start passed rfl ⟨rfl, put, rfl, rfl, rfl⟩ ⟨⟨0⟩, _, .ptrAdd rfl rfl root four, rfl⟩
  have stored : halves.UsedAt ⟨⟨0⟩, ⟨0⟩, none⟩
      ⟨put, .straight put ⟨0⟩, ⟨0⟩, ⟨⟨0⟩, 1⟩, .store ⟨0⟩ ⟨1⟩⟩ :=
    ⟨rfl, straightPut.control, .base, MarkedFlow.executes_straight rfl, rfl, rfl⟩
  refine .access carried stored rfl ⟨⟨0⟩, 0, .root ⟨_, rfl, ?_⟩, rfl⟩
    (⟨_, rfl, rfl⟩ : (Extent.stored ⟨1⟩).Spans put .w64 _ 4) (by decide : 3 < 4)
  rintro _ ⟨⟩

theorem analyze_safe_inBounds_iff_halves
    : halves.Built
      ∧ halves.Numbered
      ∧ (∀ {id func}, halves.function id = .ok func
        → (halves.pinned [] id).Closed func halves.pointerWidth)
      ∧ (∃ verdict, (halves.analyze none {}).result = .ok verdict ∧ (⟨1⟩, ⟨0⟩) ∈ verdict.safe)
      ∧ ¬ halves.Lost (halves.pinned []) ⟨⟨1⟩, ⟨0⟩, some ⟨0⟩⟩
      ∧ halves.Touches (halves.pinned []) ⟨⟨1⟩, ⟨0⟩, some ⟨0⟩⟩ (some 7)
      ∧ ∀ byte, halves.Touches (halves.pinned []) ⟨⟨1⟩, ⟨0⟩, some ⟨0⟩⟩ byte
        → ∃ position, byte = some position ∧ 0 ≤ position ∧ position < 8 := by
  have numbered : halves.Numbered := ⟨by decide, by decide⟩
  obtain ⟨verdict, analyzed, safeEq⟩ := exists_verdict_halves
  have safe : (⟨1⟩, ⟨0⟩) ∈ verdict.safe := safeEq ▸ List.mem_singleton.mpr rfl
  obtain ⟨func, base, size, found, results, allocated, seen, inside⟩ :=
    analyze_safe_inBounds_iff halves_built numbered halves_closed analyzed safe
  cases found
  cases results
  obtain ⟨_, _, _, _, made, fixed, counted, rfl⟩ := allocated
  cases made
  cases fixed
  cases counted
  exact ⟨halves_built, numbered, halves_closed, ⟨verdict, analyzed, safe⟩, seen,
    halves_touches, inside.mpr (not_overlong (by decide))⟩

/-- Fills an allocation of eight bytes with a length of minus one or four. -/
def fill : Function where
  sig := .declared "f" .exported [.i1] .unit
  values := [.argument .i1 0, .result ⟨0⟩ .ptr, .constant (.i64 (-1)), .constant (.i64 4),
    .constant (.i8 0), .result ⟨1⟩ .i64]
  insts := [.alloca (.array .i8 8) none, .select ⟨0⟩ ⟨2⟩ ⟨3⟩, .memSet ⟨1⟩ ⟨4⟩ ⟨5⟩, .ret none]
  blockCount := 1
  layout := [⟨⟨0⟩, [⟨0⟩, ⟨1⟩, ⟨2⟩, ⟨3⟩]⟩]

def filled : Module := ⟨"m", ⟨.x86_64, .unknown, .linux⟩, [fill], []⟩

/-- The length is one of the two numbers. -/
def fillPins : List (ValueId × List Int) := [(⟨5⟩, [-1, 4])]

def filling : List Command :=
  [.declareFunction fill.sig,
    .session ⟨0⟩ [.appendBlock, .selectBlock ⟨0⟩, .append (.alloca (.array .i8 8) none),
      .constant (.i64 (-1)), .constant (.i64 4), .constant (.i8 0),
      .append (.select ⟨0⟩ ⟨2⟩ ⟨3⟩), .append (.memSet ⟨1⟩ ⟨4⟩ ⟨5⟩), .append (.ret none), .finish]]

theorem filled_built : filled.Built := ⟨"m", filled.target, filling, by decide +kernel⟩

theorem filled_closed {id : FunctionId} {func : Function} (found : filled.function id = .ok func)
    : (filled.pinned fillPins id).Closed func filled.pointerWidth := by
  obtain ⟨_ | _⟩ := id <;> cases found
  refine pinned_closed rfl ?_
  intro name inst ty op bits vector valued made can
  obtain ⟨_ | _ | _ | _ | _ | _ | _⟩ := name <;> cases valued <;> cases made
  · trivial
  · -- The selected number is the constant of one of the arms.
    obtain ⟨_, _, found, valued, width, _, pinned⟩ := can
    cases found
    cases valued
    obtain ⟨number, member, same⟩ := pinned [-1, 4] (by decide)
    rcases List.mem_cons.mp member with rfl | second
    · refine Or.inl ⟨fill, .constant (.i64 (-1)), rfl, rfl, width, ?_, by simp [fillPins]⟩
      rintro _ ⟨⟩
      exact same
    · cases List.mem_singleton.mp second
      refine Or.inr ⟨fill, .constant (.i64 4), rfl, rfl, width, ?_, by simp [fillPins]⟩
      rintro _ ⟨⟩
      exact same

theorem exists_verdict_filled
    : ∃ verdict, (filled.analyze none {}).result = .ok verdict
      ∧ verdict.safe = [(⟨0⟩, ⟨0⟩)] := by
  let usages : FunctionUsage Global := ⟨.ofList [(⟨0⟩, ⟨⟨64, 0, 4⟩, []⟩)], .empty, 0⟩
  let functions : Functions := .ofList [(.function ⟨0⟩, .empty)]
  have straight : fill.IsStraight ⟨⟨0⟩, [⟨0⟩, ⟨1⟩, ⟨2⟩, ⟨3⟩]⟩ := ⟨rfl, rfl, rfl⟩
  have listed : filled.analyzeLocally.result = .ok [(⟨0⟩, usages)] := by
    rw [analyzeLocally, Traced.result_mapM]
    change List.mapM _ [FunctionId.mk 0] = _
    refine mapM_eq_ok_iff.mpr (.cons ?_ .nil)
    rw [Traced.result_bind, straight.analyzeFunction rfl]
    decide +kernel
  have ran : ((Solver.mk (Range.top 64) 20).run true functions).result = .ok functions :=
    Solver.run_of_visitAll true rfl
  exact exists_verdict_of_judged rfl listed (.cons ⟨rfl, by decide +kernel⟩ .nil) rfl ran
    (by decide +kernel)

/-- A safe allocation of eight bytes, and the ninth byte is written: the length minus one is the
largest one.
-/
theorem exists_safe_outOfBounds_filled
    : filled.Built
      ∧ filled.Numbered
      ∧ (∀ {id func}, filled.function id = .ok func
        → (filled.pinned fillPins id).Closed func filled.pointerWidth)
      ∧ (∃ verdict, (filled.analyze none {}).result = .ok verdict ∧ (⟨0⟩, ⟨0⟩) ∈ verdict.safe)
      ∧ filled.function ⟨0⟩ = .ok fill
      ∧ fill.resultOf ⟨0⟩ = some ⟨1⟩
      ∧ fill.AllocaSize filled.pointerWidth ⟨0⟩ 8
      ∧ filled.Touches (filled.pinned fillPins) ⟨⟨0⟩, ⟨1⟩, some ⟨0⟩⟩ (some 8) := by
  obtain ⟨verdict, analyzed, safeEq⟩ := exists_verdict_filled
  have straight : fill.IsStraight ⟨⟨0⟩, [⟨0⟩, ⟨1⟩, ⟨2⟩, ⟨3⟩]⟩ := ⟨rfl, rfl, rfl⟩
  have used : filled.UsedAt ⟨⟨0⟩, ⟨1⟩, some ⟨0⟩⟩
      ⟨fill, .straight fill ⟨0⟩, ⟨1⟩, ⟨⟨2⟩, 0⟩, .memSet ⟨1⟩ ⟨4⟩ ⟨5⟩⟩ :=
    ⟨rfl, straight.control, .base, MarkedFlow.executes_straight rfl, rfl, rfl⟩
  have root : fill.Points .w64 (filled.pinned fillPins ⟨0⟩) ⟨1⟩ ⟨1⟩ 0 := by
    refine .root ⟨_, rfl, ?_⟩
    rintro _ ⟨⟩
    exact ⟨_, rfl, rfl⟩
  have spans : (Extent.bulk ⟨5⟩).Spans fill filled.pointerWidth (filled.pinned fillPins ⟨0⟩)
      (2 ^ 64 - 1) := by
    refine ⟨64, BitVec.ofInt 64 (-1), ⟨fill, _, rfl, rfl, rfl, ?_, ?_⟩, by decide⟩
    · rintro _ ⟨⟩
    · intro numbers member
      cases List.mem_singleton.mp member
      exact ⟨-1, by decide, rfl⟩
  exact ⟨filled_built, ⟨by decide, by decide⟩, filled_closed,
    ⟨verdict, analyzed, safeEq ▸ List.mem_singleton.mpr rfl⟩, rfl, rfl,
    ⟨_, _, _, _, rfl, rfl, rfl, rfl⟩,
    .access .start used rfl ⟨⟨1⟩, 0, root, rfl⟩ spans (by decide : 8 < 2 ^ 64 - 1)⟩

end Module

end StackBounds
