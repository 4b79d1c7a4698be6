import Mathlib.Data.Finset.Basic
import Mathlib.Data.List.Nodup
import StackBounds.Proofs.Evaluation

/-! Evaluation with one set of the values that are being evaluated. All calls share the set: a value
is entered before its operands are evaluated and left after them. Each entered value was outside
before, so calls are nested at most one deeper than there are values outside the set. What is
entered is always left, so the set comes back as it was given.
-/

namespace StackBounds

-----------------------------------------------------------------------------------------
-- The shared set
-----------------------------------------------------------------------------------------

/-- A computation that shares a set of values. It is `none` where calls would be nested deeper than
is allowed; a fault leaves no set behind.
-/
abbrev Guarded : Type → Type := StateT (Finset ValueId) (ExceptT Fault Option)

namespace Guarded

/-- A call that is nested too deep. -/
def exhausted {α : Type} : Guarded α := fun _ => ExceptT.mk none

/-- Enters a value, and tells whether it was outside. -/
def enter (id : ValueId) : Guarded Bool :=
  modifyGet fun visiting => (decide (id ∉ visiting), insert id visiting)

/-- Leaves a value. -/
def leave (id : ValueId) : Guarded Unit := modify (·.erase id)

/-- Enters a value for one computation and leaves it afterwards. Where the value is entered already
there is another one.
-/
def visit {α : Type} (id : ValueId) (inside again : Guarded α) : Guarded α := do
  if ← enter id then
    let found ← inside
    leave id
    pure found
  else
    again

variable {α β : Type} {visiting : Finset ValueId}

/-- A computation ends: with the answer and the set it was given, or with the fault. -/
def Restores (walk : Guarded α) (visiting : Finset ValueId) (answer : Except Fault α) : Prop :=
  (walk.run visiting).run = some (answer.map fun found => (found, visiting))

theorem restores_lift (answer : Except Fault α) (visiting : Finset ValueId)
    : Restores (liftM answer) visiting answer := by
  cases answer <;> rfl

theorem restores_pure (found : α) (visiting : Finset ValueId)
    : Restores (pure found) visiting (.ok found) :=
  rfl

theorem Restores.bind {first : Guarded α} {rest : α → Guarded β} {answer : Except Fault α}
    {next : α → Except Fault β} (ends : first.Restores visiting answer)
    (later : ∀ found, answer = .ok found → (rest found).Restores visiting (next found))
    : (first >>= rest).Restores visiting (answer >>= next) := by
  rw [Restores] at ends
  rw [Restores, StateT.run_bind, ExceptT.run_bind, ends]
  cases answer with
  | error fault => rfl
  | ok found => exact later found rfl

/-- A loop over a list; by induction on the list. -/
theorem restores_foldlM {step : β → α → Guarded β} {next : β → α → Except Fault β}
    (each : ∀ known item, (step known item).Restores visiting (next known item))
    (items : List α) (start : β)
    : (items.foldlM step start).Restores visiting (items.foldlM next start) := by
  induction items generalizing start with
  | nil => exact restores_pure start visiting
  | cons item rest ih =>
      rw [List.foldlM_cons, List.foldlM_cons]
      exact (each start item).bind fun found _ => ih found

section Visits

variable {id : ValueId} {inside again : Guarded α} {answer : Except Fault α}

/-- A visit from outside takes out the value that it has put in, whatever is computed inside. -/
theorem Restores.visit (ends : inside.Restores (insert id visiting) answer) (free : id ∉ visiting)
    : (Guarded.visit id inside again).Restores visiting answer := by
  have entered : (enter id).run visiting = pure (true, insert id visiting) := by
    simp [enter, free]
  have left : (leave id).run (insert id visiting) = pure ((), visiting) := by
    simp [leave, free]
  rw [Restores] at ends
  rw [Restores, Guarded.visit, StateT.run_bind, entered, pure_bind, if_pos rfl, StateT.run_bind,
    ExceptT.run_bind, ends]
  cases answer with
  | error fault => rfl
  | ok found =>
      change ((leave id >>= fun _ => pure found).run (insert id visiting)).run = _
      rw [StateT.run_bind, left]
      rfl

/-- A visit that comes back to a value leaves it in the set. -/
theorem Restores.visit_again (ends : again.Restores visiting answer) (member : id ∈ visiting)
    : (Guarded.visit id inside again).Restores visiting answer := by
  have entered : (enter id).run visiting = pure (false, visiting) := by
    simp [enter, member]
  simpa [Restores, Guarded.visit, entered] using ends

end Visits

end Guarded

namespace Function

open Guarded (Restores exhausted restores_lift restores_pure visit)

-----------------------------------------------------------------------------------------
-- Guarded evaluation
-----------------------------------------------------------------------------------------

/-- The signed range of a value; a value that is entered already may be any number. Calls are nested
up to a depth.
-/
def guardedRange (func : Function) (pointer : PointerWidth) : Nat → ValueId → Guarded Range
  | 0, _ => exhausted
  | depth + 1, id => do
    let value ← func.value id
    let bits := width pointer value
    match value with
    | .constant imm => Range.singleton bits imm.toInt
    | .argument _ _ => Range.full bits
    | .result inst _ =>
        visit id (do func.instRange bits (func.guardedRange pointer depth) (← func.inst inst))
          (Range.full bits)

/-- An address as a root and an offset; a value that is entered already has none. Calls are nested
up to a depth.
-/
def guardedRooted (func : Function) (pointer : PointerWidth)
    : Nat → ValueId → Guarded (Option Rooted)
  | 0, _ => exhausted
  | depth + 1, addr => do
    match ← func.value addr with
    | .result inst _ =>
        visit addr
          (do
            instRooted pointer addr (func.guardedRange pointer depth)
              (func.guardedRooted pointer depth) (← func.inst inst))
          (pure none)
    | _ => do pure (some ⟨addr, ← Range.singleton pointer.bits 0⟩)

/-- The byte offsets of an address from a base; full when they are not known. -/
def guardedOffset (func : Function) (pointer : PointerWidth) (depth : Nat) (addr base : ValueId)
    : Guarded Range := do
  match ← func.guardedRooted pointer depth addr with
  | some rooted =>
      if rooted.root = base then pure rooted.offset else Range.full pointer.bits
  | none => Range.full pointer.bits

-----------------------------------------------------------------------------------------
-- The values outside the set
-----------------------------------------------------------------------------------------

/-- The values of a function that are not being evaluated. -/
def unvisited (func : Function) (visiting : Finset ValueId) : List ValueId :=
  func.valueIds.filter (· ∉ visiting)

variable {func : Function} {pointer : PointerWidth} {visiting : Finset ValueId}

@[simp] theorem unvisited_empty (func : Function) : func.unvisited ∅ = func.valueIds := by
  simp [unvisited]

theorem mem_unvisited {id : ValueId} {value : Value} (found : func.value id = .ok value)
    : id ∈ func.unvisited visiting ↔ id ∉ visiting := by
  simp [unvisited, mem_valueIds_of_value found]

theorem valueIds_nodup (func : Function) : func.valueIds.Nodup :=
  List.nodup_range.map fun _ _ same => ValueId.mk.inj same

/-- Entering a value takes it off the values outside. -/
theorem unvisited_insert (func : Function) (visiting : Finset ValueId) (id : ValueId)
    : func.unvisited (insert id visiting) = (func.unvisited visiting).erase id := by
  rw [unvisited, unvisited, (func.valueIds_nodup.filter _).erase_eq_filter, List.filter_filter]
  refine List.filter_congr fun other _ => ?_
  grind

theorem length_unvisited_insert_lt {id : ValueId} (outside : id ∈ func.unvisited visiting)
    : (func.unvisited (insert id visiting)).length < (func.unvisited visiting).length := by
  rw [unvisited_insert]
  exact length_erase_lt outside

/-- A visit ends when what is inside does. One value fewer is outside from there, so the calls
inside may be nested less deep.
-/
theorem restores_visit {α : Type} {inside again : Guarded α} {here there : Except Fault α}
    {id : ValueId} {value : Value} {depth : Nat} (found : func.value id = .ok value)
    (enough : (func.unvisited visiting).length < depth + 1)
    (ends : (func.unvisited (insert id visiting)).length < depth
      → inside.Restores (insert id visiting) here)
    (endsAgain : again.Restores visiting there)
    : (visit id inside again).Restores visiting
        (if id ∈ func.unvisited visiting then here else there) := by
  by_cases member : id ∈ visiting
  · rw [if_neg ((mem_unvisited found).not.mpr (not_not_intro member))]
    exact endsAgain.visit_again member
  · have isOutside : id ∈ func.unvisited visiting := (mem_unvisited found).mpr member
    have fewer := length_unvisited_insert_lt isOutside
    rw [if_pos isOutside]
    exact (ends (by omega)).visit member

-----------------------------------------------------------------------------------------
-- Numbers
-----------------------------------------------------------------------------------------

/-- The range of a result, when its operands leave the set as it is. -/
theorem instRange_restores {operand : ValueId → Guarded Range}
    {answers : ValueId → Except Fault Range}
    (each : ∀ input, (operand input).Restores visiting (answers input)) (bits : UInt32) (op : Inst)
    : (func.instRange bits operand op).Restores visiting (func.instRange bits answers op) := by
  cases op with
  | binary op lhs rhs =>
      cases op with
      | and => exact restores_lift _ _
      | _ => exact (each lhs).bind fun _ _ => (each rhs).bind fun _ _ => restores_lift _ _
  | cast op arg target =>
      refine (each arg).bind fun _ _ => ?_
      cases op <;> exact restores_lift _ _
  | select cond then_ else_ =>
      exact (each then_).bind fun _ _ => (each else_).bind fun _ _ => restores_lift _ _
  | phi values blocks target =>
      refine (restores_lift _ _).bind fun start _ => ?_
      exact Guarded.restores_foldlM
        (fun _ value => (each value).bind fun _ _ => restores_lift _ _) values start
  | _ => exact restores_lift _ _

/-- Guarded numbers are those of the evaluation that counts the values outside the set; by induction
on the depth, which exceeds their number.
-/
theorem guardedRange_restores {depth : Nat} (enough : (func.unvisited visiting).length < depth)
    (id : ValueId)
    : (func.guardedRange pointer depth id).Restores visiting
        (func.rangeOf pointer (func.unvisited visiting) id) := by
  induction depth generalizing visiting id with
  | zero => exact absurd enough (Nat.not_lt_zero _)
  | succ depth ih =>
      rw [guardedRange, rangeOf]
      refine (restores_lift _ _).bind fun value found => ?_
      cases value with
      | constant imm => exact restores_lift _ _
      | argument ty index => exact restores_lift _ _
      | result inst ty =>
          simp only [dite_eq_ite, ← unvisited_insert]
          refine restores_visit found enough (fun deep => ?_) (restores_lift _ _)
          exact (restores_lift _ _).bind fun op _ => instRange_restores (ih deep) _ op

-----------------------------------------------------------------------------------------
-- Addresses
-----------------------------------------------------------------------------------------

theorem elemOffset_restores {index : Guarded Range} {answer : Except Fault Range}
    (number : index.Restores visiting answer) (elem : Ty)
    : (elemOffset pointer elem index).Restores visiting (elemOffset pointer elem answer) := by
  unfold elemOffset
  cases (elem.size pointer).fixed?.filter (· ≤ maxElemSize) with
  | some size =>
      exact number.bind fun _ _ => (restores_lift _ _).bind fun _ _ => restores_lift _ _
  | none => exact restores_lift _ _

section Operands

variable {rooted : ValueId → Guarded (Option Rooted)}
  {answers : ValueId → Except Fault (Option Rooted)}
  (each : ∀ input, (rooted input).Restores visiting (answers input))

include each

/-- A merge leaves the set as it is, also where it stops early; by induction on the addresses. -/
theorem mergeRooted_restores (merged : Option Rooted) (addrs : List ValueId)
    : (mergeRooted rooted merged addrs).Restores visiting (mergeRooted answers merged addrs) := by
  induction addrs generalizing merged with
  | nil => exact restores_pure merged visiting
  | cons addr rest ih =>
      rw [mergeRooted, mergeRooted]
      refine (each addr).bind fun answer _ => ?_
      cases answer with
      | none => exact restores_pure none visiting
      | some next =>
          cases merged with
          | none => exact ih (some next)
          | some known =>
              simp only
              split
              · exact (restores_lift _ _).bind fun offset _ => ih (some ⟨next.root, offset⟩)
              · exact restores_pure none visiting

/-- A result as an address, when its operands leave the set as it is. -/
theorem instRooted_restores {number : ValueId → Guarded Range}
    {numbers : ValueId → Except Fault Range}
    (counted : ∀ input, (number input).Restores visiting (numbers input)) (addr : ValueId)
    (op : Inst)
    : (instRooted pointer addr number rooted op).Restores visiting
        (instRooted pointer addr numbers answers op) := by
  have self : Restores (do
      let zero ← Range.singleton pointer.bits 0
      pure (some (Rooted.mk addr zero))) visiting
      (do pure (some (Rooted.mk addr (← Range.singleton pointer.bits 0)))) :=
    (restores_lift _ _).bind fun _ _ => restores_pure _ _
  cases op with
  | cast op arg target =>
      cases op with
      | bitcast => exact each arg
      | _ => exact self
  | ptrAdd base offset =>
      refine (counted offset).bind fun _ _ => (restores_lift _ _).bind fun _ _ => ?_
      exact (each base).bind fun _ _ => restores_lift _ _
  | elemPtr base index elem =>
      refine (elemOffset_restores (counted index) elem).bind fun _ _ => ?_
      exact (each base).bind fun _ _ => restores_lift _ _
  | select cond then_ else_ => exact mergeRooted_restores each none [then_, else_]
  | phi values blocks target => exact mergeRooted_restores each none values
  | _ => exact self

end Operands

/-- Guarded addresses are those of the evaluation that counts the values outside the set; by
induction on the depth, which exceeds their number.
-/
theorem guardedRooted_restores {depth : Nat} (enough : (func.unvisited visiting).length < depth)
    (addr : ValueId)
    : (func.guardedRooted pointer depth addr).Restores visiting
        (func.decompose pointer (func.unvisited visiting) addr) := by
  induction depth generalizing visiting addr with
  | zero => exact absurd enough (Nat.not_lt_zero _)
  | succ depth ih =>
      rw [guardedRooted, decompose]
      refine (restores_lift _ _).bind fun value found => ?_
      cases value with
      | result inst ty =>
          simp only [dite_eq_ite, ← unvisited_insert]
          refine restores_visit found enough (fun deep => ?_) (restores_pure none visiting)
          refine (restores_lift _ _).bind fun op _ => ?_
          exact instRooted_restores (ih deep) (guardedRange_restores deep) addr op
      | _ => exact (restores_lift _ _).bind fun _ _ => restores_pure _ _

-----------------------------------------------------------------------------------------
-- Every evaluation
-----------------------------------------------------------------------------------------

/-- From the empty set, guarded evaluation answers what is asked about numbers and addresses. -/
theorem guarded_answers_queries (func : Function) (pointer : PointerWidth) {depth : Nat}
    (enough : func.values.length < depth)
    : (∀ id, (func.guardedRange pointer depth id).Restores ∅ (func.signedRange pointer id))
      ∧ ∀ addr base, (func.guardedOffset pointer depth addr base).Restores ∅
        (func.offsetFrom pointer addr base) := by
  have deep : (func.unvisited ∅).length < depth := by
    rwa [unvisited_empty, valueIds, List.length_map, List.length_range]
  refine ⟨fun id => ?_, fun addr base => ?_⟩
  · rw [signedRange, ← unvisited_empty]
    exact guardedRange_restores deep id
  · rw [guardedOffset, offsetFrom, ← unvisited_empty]
    refine (guardedRooted_restores deep addr).bind fun answer _ => ?_
    cases answer with
    | none => exact restores_lift _ _
    | some rooted =>
        simp only
        split
        · exact restores_pure rooted.offset ∅
        · exact restores_lift _ _

/-- Guarded evaluation ends and restores its set. On every function, from every value or list of
values and every set, calls are nested at most one deeper than there are values outside the set:
numbers, addresses and merges of addresses come to an answer with the set they were given, or to a
fault. Both are those of the evaluation without a set. Where no reference dangles, a range that is
answered denotes a set, offsets have the width of addresses, and the only fault is a mismatch of two
widths, which takes a choice or a merge that does not fit.
-/
theorem guarded_ends_restored (func : Function) (pointer : PointerWidth)
    (visiting : Finset ValueId)
    : (∀ depth > (func.unvisited visiting).length,
        (∀ id, (func.guardedRange pointer depth id).Restores visiting
          (func.rangeOf pointer (func.unvisited visiting) id))
        ∧ (∀ addr, (func.guardedRooted pointer depth addr).Restores visiting
          (func.decompose pointer (func.unvisited visiting) addr))
        ∧ ∀ addrs, (mergeRooted (func.guardedRooted pointer depth) none addrs).Restores visiting
          (mergeRooted (func.decompose pointer (func.unvisited visiting)) none addrs))
      ∧ (func.NoDangling →
        (∀ id value, func.value id = .ok value
          → Outcome (func.MeetsMisfit pointer id) Range.WellFormed
            (func.rangeOf pointer (func.unvisited visiting) id))
        ∧ (∀ addr value, func.value addr = .ok value
          → Outcome (func.MeetsMisfit pointer addr) (HasWidth pointer)
            (func.decompose pointer (func.unvisited visiting) addr))
        ∧ ∀ addrs, (∀ addr ∈ addrs, ∃ value, func.value addr = .ok value)
          → Outcome (∃ addr ∈ addrs, func.MeetsMisfit pointer addr) (HasWidth pointer)
            (mergeRooted (func.decompose pointer (func.unvisited visiting)) none addrs)) := by
  refine ⟨fun depth enough => ?_, fun whole => ⟨?_, ?_, ?_⟩⟩
  · exact ⟨guardedRange_restores enough, guardedRooted_restores enough,
      mergeRooted_restores (guardedRooted_restores enough) none⟩
  · intro id value found
    exact (rangeOf_outcome whole pointer _ found).imp (fun misfit => misfit)
      fun _ proper => proper.wellFormed
  · intro addr value found
    exact decompose_outcome whole pointer _ found
  · intro addrs exist
    refine mergeRooted_outcome (fun addr member => ?_) (hasWidth_none pointer)
    obtain ⟨value, found⟩ := exist addr member
    exact (decompose_outcome whole pointer _ found).imp (fun misfit => ⟨addr, member, misfit⟩)
      fun _ proper => proper

/-- Values that depend on themselves, directly and through a merge, a choice between two
allocations, and a choice between two widths.
-/
def tangle : Function where
  sig := .declared "f" .exported [.i1] .unit
  values := [.argument .i1 0, .constant (.i64 1), .constant (.i32 1), .result ⟨0⟩ .ptr,
    .result ⟨1⟩ .ptr, .result ⟨2⟩ .ptr, .result ⟨3⟩ .i64, .result ⟨4⟩ .ptr, .result ⟨5⟩ .ptr,
    .result ⟨6⟩ .i64]
  insts := [.alloca .i64 none, .alloca .i64 none, .select ⟨0⟩ ⟨3⟩ ⟨4⟩, .binary .add ⟨6⟩ ⟨1⟩,
    .ptrAdd ⟨3⟩ ⟨6⟩, .phi [⟨3⟩, ⟨8⟩] [⟨0⟩, ⟨0⟩] .ptr, .select ⟨0⟩ ⟨1⟩ ⟨2⟩, .jump ⟨0⟩]
  blockCount := 1
  layout := [⟨⟨0⟩, [⟨0⟩, ⟨1⟩, ⟨2⟩, ⟨3⟩, ⟨4⟩, ⟨5⟩, ⟨6⟩, ⟨7⟩]⟩]

theorem tangle_noDangling : tangle.NoDangling := by
  refine ⟨fun id inst found operand member => ?_, fun id inst ty found => ?_⟩
  · have listed := List.mem_of_getElem? (inst_eq_ok_iff.mp found)
    have bounded : ∀ inst ∈ tangle.insts, ∀ operand ∈ inst.operands, operand.index < 10 := by
      decide
    have small := bounded inst listed operand member
    exact ⟨_, value_eq_ok_iff.mpr (List.getElem?_eq_getElem small)⟩
  · obtain ⟨_ | _ | _ | _ | _ | _ | _ | _ | _ | _ | index⟩ := id <;> cases found <;> exact ⟨_, rfl⟩

/-- Witness: while the choice between the allocations is being evaluated, nine values are outside.
A sum of itself, an address moved by it, an address that depends on itself and the merge of the
allocations leave the set as it is, and the choice between two widths is a mismatch.
-/
theorem guarded_ends_restored_tangle
    : tangle.NoDangling ∧ (tangle.unvisited {⟨5⟩}).length = 9
      ∧ (tangle.guardedRange .w64 10 ⟨6⟩).Restores {⟨5⟩} (.ok (Range.top 64))
      ∧ (tangle.guardedRooted .w64 10 ⟨7⟩).Restores {⟨5⟩} (.ok (some ⟨⟨3⟩, Range.top 64⟩))
      ∧ (tangle.guardedRooted .w64 10 ⟨8⟩).Restores {⟨5⟩} (.ok none)
      ∧ (mergeRooted (tangle.guardedRooted .w64 10) none [⟨3⟩, ⟨4⟩]).Restores {⟨5⟩} (.ok none)
      ∧ (tangle.guardedRange .w64 10 ⟨9⟩).Restores {⟨5⟩} (.error (.widthMismatch 64 32))
      ∧ tangle.MeetsMisfit .w64 ⟨9⟩ := by
  obtain ⟨ends, outcomes⟩ := tangle.guarded_ends_restored .w64 {⟨5⟩}
  have count : (tangle.unvisited {⟨5⟩}).length = 9 := by decide
  obtain ⟨numbers, addresses, merges⟩ := ends 10 (count ▸ Nat.lt_succ_self 9)
  have sum : tangle.rangeOf .w64 (tangle.unvisited {⟨5⟩}) ⟨6⟩ = .ok (Range.top 64) := by
    decide +kernel
  have moved : tangle.decompose .w64 (tangle.unvisited {⟨5⟩}) ⟨7⟩
      = .ok (some ⟨⟨3⟩, Range.top 64⟩) := by
    decide +kernel
  have cycle : tangle.decompose .w64 (tangle.unvisited {⟨5⟩}) ⟨8⟩ = .ok none := by
    decide +kernel
  have merge : mergeRooted (tangle.decompose .w64 (tangle.unvisited {⟨5⟩})) none [⟨3⟩, ⟨4⟩]
      = .ok none := by
    decide +kernel
  have mismatch : tangle.rangeOf .w64 (tangle.unvisited {⟨5⟩}) ⟨9⟩
      = .error (.widthMismatch 64 32) := by
    decide +kernel
  have outcome := (outcomes tangle_noDangling).1 ⟨9⟩ _ rfl
  rw [mismatch] at outcome
  cases outcome with
  | mismatch misfit _ =>
      exact ⟨tangle_noDangling, count, sum ▸ numbers ⟨6⟩, moved ▸ addresses ⟨7⟩,
        cycle ▸ addresses ⟨8⟩, merge ▸ merges [⟨3⟩, ⟨4⟩], mismatch ▸ numbers ⟨9⟩, misfit⟩

end Function

end StackBounds
