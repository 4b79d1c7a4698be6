import Mathlib.Logic.Relation
import StackBounds.Proofs.Range.Cover
import StackBounds.Proofs.Range.SignedSums
import StackBounds.Proofs.Tables
import StackBounds.Solver.Run

/-! What the solver does to its functions: a step that has an answer only widens ranges, and on
usages that denote sets of one width every step has an answer.
-/

namespace StackBounds

-----------------------------------------------------------------------------------------
-- Usages that denote sets, and growth
-----------------------------------------------------------------------------------------

/-- The accessed range and the offsets of the calls denote sets of the width, and every call has
an offset.
-/
structure Usage.WellFormed {γ : Type} (bits : UInt32) (usage : Usage γ) : Prop where
  range : usage.range.OfWidth bits
  offset : ∀ call ∈ usage.calls, call.offset.OfWidth bits
  moved : ∀ call ∈ usage.calls, ¬ call.offset.IsNone

theorem Usage.WellFormed.offset_range {γ : Type} {bits : UInt32} {usage : Usage γ}
    (wf : usage.WellFormed bits) {call : Forward γ} (member : call ∈ usage.calls)
    : call.offset.OfWidth usage.range.bits :=
  wf.range.bits_eq.symm ▸ wf.offset call member

/-- The usages of each function are well-formed at the width of the function. -/
structure Functions.Sized (width : Callee → UInt32) (functions : Functions) : Prop where
  usages : ∀ func param usage, functions.param? func param = some usage
    → usage.WellFormed (width func)

/-- The usages of all functions are well-formed at one width. -/
abbrev Functions.WellFormed (bits : UInt32) (functions : Functions) : Prop :=
  functions.Sized fun _ => bits

instance {γ : Type} (bits : UInt32) (usage : Usage γ) : Decidable (usage.WellFormed bits) :=
  decidable_of_iff
    (usage.range.OfWidth bits ∧ (∀ call ∈ usage.calls, call.offset.OfWidth bits)
      ∧ ∀ call ∈ usage.calls, ¬ call.offset.IsNone)
    ⟨fun h => ⟨h.1, h.2.1, h.2.2⟩, fun h => ⟨h.range, h.offset, h.moved⟩⟩

/-- Well-formed functions, entry by entry. -/
theorem Functions.WellFormed.of_entries {bits : UInt32} {functions : Functions}
    (usages : ∀ entry ∈ functions.entries, ∀ param ∈ entry.2.params.entries,
      param.2.WellFormed bits)
    : functions.WellFormed bits := by
  refine ⟨fun func param usage found => ?_⟩
  obtain ⟨info, foundInfo, foundUsage⟩ := Option.bind_eq_some_iff.mp found
  exact usages _ (Table.mem_of_get? foundInfo) _ (Table.mem_of_get? foundUsage)

/-- The accessed range is wider, with the same calls. -/
structure Usage.Grows {γ : Type} (before after : Usage γ) : Prop where
  calls : after.calls = before.calls
  range : before.range ⊆ after.range

/-- The parameters have grown and been counted, the allocations are the same. -/
structure FunctionUsage.Grows {γ : Type} (before after : FunctionUsage γ) : Prop where
  allocas : after.allocas = before.allocas
  params : before.params.Related Usage.Grows after.params
  updates : before.updates ≤ after.updates

/-- Every function is still there, and has grown. -/
def Functions.Grows (before after : Functions) : Prop :=
  before.Related FunctionUsage.Grows after

theorem Usage.Grows.refl {γ : Type} (usage : Usage γ) : usage.Grows usage :=
  ⟨rfl, Range.subset_refl _⟩

theorem Usage.Grows.trans {γ : Type} (first second third : Usage γ) (below : first.Grows second)
    (above : second.Grows third)
    : first.Grows third :=
  ⟨above.calls.trans below.calls, Range.subset_trans below.range above.range⟩

theorem FunctionUsage.Grows.refl {γ : Type} (info : FunctionUsage γ) : info.Grows info :=
  ⟨rfl, .refl Usage.Grows.refl _, UInt32.le_refl _⟩

theorem FunctionUsage.Grows.trans {γ : Type} (first second third : FunctionUsage γ)
    (below : first.Grows second) (above : second.Grows third)
    : first.Grows third :=
  ⟨above.allocas.trans below.allocas, .trans Usage.Grows.trans below.params above.params,
    UInt32.le_trans below.updates above.updates⟩

namespace Functions

theorem Grows.refl (functions : Functions) : functions.Grows functions :=
  Table.Related.refl FunctionUsage.Grows.refl functions

theorem Grows.trans {first second third : Functions} (below : first.Grows second)
    (above : second.Grows third)
    : first.Grows third :=
  Table.Related.trans FunctionUsage.Grows.trans below above

/-- A parameter that has grown is found with a wider range. -/
theorem Grows.param?_some {before after : Functions} (grows : before.Grows after) {func : Callee}
    {param : UInt32} {usage : Usage Callee} (found : before.param? func param = some usage)
    : ∃ grown, after.param? func param = some grown ∧ usage.Grows grown := by
  obtain ⟨info, foundInfo, foundUsage⟩ := Option.bind_eq_some_iff.mp found
  obtain ⟨later, foundLater, growsInfo⟩ := Table.Related.get?_some grows foundInfo
  obtain ⟨grown, foundGrown, growsUsage⟩ := Table.Related.get?_some growsInfo.params foundUsage
  exact ⟨grown, by rw [param?, foundLater, Option.bind_some, foundGrown], growsUsage⟩

/-- Nothing else is found after growth. -/
theorem Grows.param?_none {before after : Functions} (grows : before.Grows after) {func : Callee}
    {param : UInt32} (missing : before.param? func param = none)
    : after.param? func param = none := by
  cases foundInfo : before.get? func with
  | none => rw [param?, Table.Related.get?_none grows foundInfo, Option.bind_none]
  | some info =>
      rw [param?, foundInfo, Option.bind_some] at missing
      obtain ⟨later, foundLater, growsInfo⟩ := Table.Related.get?_some grows foundInfo
      rw [param?, foundLater, Option.bind_some]
      exact Table.Related.get?_none growsInfo.params missing

/-- A parameter of the grown functions was there before. -/
theorem Grows.exists_param? {before after : Functions} (grows : before.Grows after)
    {func : Callee} {param : UInt32} {grown : Usage Callee}
    (found : after.param? func param = some grown)
    : ∃ usage, before.param? func param = some usage ∧ usage.Grows grown := by
  cases foundBefore : before.param? func param with
  | none => simp [grows.param?_none foundBefore] at found
  | some usage =>
      obtain ⟨later, foundLater, growsUsage⟩ := grows.param?_some foundBefore
      rw [found, Option.some.injEq] at foundLater
      exact ⟨usage, rfl, foundLater ▸ growsUsage⟩

section Changes

variable {functions : Functions} {func other : Callee} {param : UInt32}

theorem param?_setRange_self {usage : Usage Callee} (range : Range)
    (found : functions.param? func param = some usage)
    : (functions.setRange func param range).param? func param = some { usage with range } := by
  obtain ⟨info, foundInfo, foundUsage⟩ := Option.bind_eq_some_iff.mp found
  rw [param?, setRange, Table.get?_modify_self, foundInfo, Option.map_some, Option.bind_some,
    FunctionUsage.setRange, Table.get?_modify_self, foundUsage, Option.map_some]

theorem param?_setRange_of_ne (functions : Functions) (range : Range) {func other : Callee}
    {param parameter : UInt32} (differ : ¬ (other = func ∧ parameter = param))
    : (functions.setRange func param range).param? other parameter
      = functions.param? other parameter := by
  by_cases same : other = func
  · subst same
    have differParam : parameter ≠ param := fun h => differ ⟨rfl, h⟩
    rw [param?, param?, setRange, Table.get?_modify_self]
    cases functions.get? other with
    | none => rfl
    | some info =>
        rw [Option.map_some, Option.bind_some, Option.bind_some, FunctionUsage.setRange,
          Table.get?_modify_of_ne _ differParam]
  · rw [param?, param?, setRange, Table.get?_modify_of_ne _ same]

theorem param?_countUpdate (functions : Functions) (func other : Callee) (param : UInt32)
    : (functions.countUpdate func).param? other param = functions.param? other param := by
  by_cases same : other = func
  · subst same
    rw [param?, param?, countUpdate, Table.get?_modify_self]
    cases functions.get? other <;> rfl
  · rw [param?, param?, countUpdate, Table.get?_modify_of_ne _ same]

theorem grows_setRange {usage : Usage Callee} {range : Range}
    (found : functions.param? func param = some usage) (wider : usage.range ⊆ range)
    : functions.Grows (functions.setRange func param range) := by
  obtain ⟨info, foundInfo, foundUsage⟩ := Option.bind_eq_some_iff.mp found
  refine Table.Related.modify FunctionUsage.Grows.refl fun value foundValue => ?_
  rw [foundInfo, Option.some.injEq] at foundValue
  subst foundValue
  refine ⟨rfl, Table.Related.modify Usage.Grows.refl fun value foundValue => ?_,
    UInt32.le_refl _⟩
  rw [foundUsage, Option.some.injEq] at foundValue
  subst foundValue
  exact ⟨rfl, wider⟩

theorem toNat_updates_countUpdate {info : FunctionUsage Callee}
    (fits : info.updates.toNat + 1 < UInt32.size)
    : info.countUpdate.updates.toNat = info.updates.toNat + 1 := by
  rw [FunctionUsage.countUpdate, UInt32.toNat_add]
  exact Nat.mod_eq_of_lt fits

theorem grows_countUpdate {info : FunctionUsage Callee}
    (found : functions.get? func = some info) (fits : info.updates.toNat + 1 < UInt32.size)
    : functions.Grows (functions.countUpdate func) := by
  refine Table.Related.modify FunctionUsage.Grows.refl fun value foundValue => ?_
  rw [found, Option.some.injEq] at foundValue
  subst foundValue
  refine ⟨rfl, .refl Usage.Grows.refl _, ?_⟩
  rw [UInt32.le_iff_toNat_le, toNat_updates_countUpdate fits]
  exact Nat.le_succ _

end Changes

/-- How often a function has been counted. -/
def updates? (functions : Functions) (func : Callee) : Option UInt32 :=
  (functions.get? func).map (·.updates)

theorem updates?_setRange (functions : Functions) (func other : Callee) (param : UInt32)
    (range : Range)
    : (functions.setRange func param range).updates? other = functions.updates? other := by
  by_cases same : other = func
  · subst same
    rw [updates?, updates?, setRange, Table.get?_modify_self]
    cases functions.get? other <;> rfl
  · rw [updates?, updates?, setRange, Table.get?_modify_of_ne _ same]

/-- Growth keeps the functions well-formed as long as the ranges keep denoting sets. -/
theorem Sized.of_grows {width : Callee → UInt32} {before after : Functions}
    (sized : before.Sized width) (grows : before.Grows after)
    (ranges : ∀ func param usage, after.param? func param = some usage
      → usage.range.OfWidth (width func))
    : after.Sized width := by
  refine ⟨fun func param usage found => ?_⟩
  obtain ⟨earlier, foundBefore, growsUsage⟩ := grows.exists_param? found
  have proper := sized.usages func param earlier foundBefore
  exact ⟨ranges func param usage found, growsUsage.calls ▸ proper.offset,
    growsUsage.calls ▸ proper.moved⟩

end Functions

namespace Solver

variable {bits : UInt32} {config : Config} {solver : Solver}

theorem valid_of_make (made : make bits config = .ok solver) : Word.Valid bits := by
  obtain ⟨range, full, _⟩ := exists_of_bind_eq_ok made
  obtain ⟨_, signed, _⟩ := exists_of_bind_eq_ok full
  unfold Word.requireSigned at signed
  split at signed
  · rename_i bounds
    exact ⟨UInt32.le_iff_toNat_le.mp bounds.1, UInt32.le_iff_toNat_le.mp bounds.2⟩
  · cases signed

theorem unknown_of_make (made : make bits config = .ok solver)
    : solver.unknown = Range.top bits := by
  have valid := valid_of_make made
  unfold make at made
  rw [Range.full_eq valid, ok_bind] at made
  cases made
  rfl

theorem limit_of_make (made : make bits config = .ok solver)
    : solver.limit = config.maxIterations := by
  obtain ⟨range, _, rest⟩ := exists_of_bind_eq_ok made
  cases rest
  rfl

section Accesses

variable {functions : Functions} {call : Forward Callee} {usage : Usage Callee}

theorem access_of_isNone (found : functions.param? call.callee call.param = some usage)
    (none : usage.range.IsNone)
    : solver.access functions call = .ok usage.range := by
  simp [access, found, Range.isEmpty_iff.mpr none]

/-- A callee that accesses something, but not anything, moves it by the offsets. -/
theorem access_of_isArc (found : functions.param? call.callee call.param = some usage)
    (arc : usage.range.IsArc)
    : solver.access functions call = usage.range.addSigned call.offset := by
  have some : usage.range.isEmpty = false := by
    simpa using fun h => arc.some (Range.isEmpty_iff.mp h)
  simp [access, found, some, arc.wellFormed.isFull_eq, arc.notAll]

variable (made : make bits config = .ok solver)

include made

/-- A missing parameter accesses anything. -/
theorem access_of_none (missing : functions.param? call.callee call.param = none)
    : solver.access functions call = .ok (Range.top bits) := by
  rw [access, missing, pure_eq_ok, unknown_of_make made]

/-- A callee that may access anything does so from every offset. -/
theorem access_of_isAll (found : functions.param? call.callee call.param = some usage)
    (wf : usage.range.WellFormed) (all : usage.range.IsAll)
    : solver.access functions call = .ok (Range.top bits) := by
  have some : usage.range.isEmpty = false := by
    simpa using fun h => wf.not_isAll_of_isNone (Range.isEmpty_iff.mp h) all
  simp [access, found, some, wf.isFull_eq, all, unknown_of_make made]

/-- An access denotes a set, of whatever width. -/
theorem access_wellFormed {width : Callee → UInt32} {access : Range}
    (sized : functions.Sized width) (offset : call.offset.WellFormed)
    (result : solver.access functions call = .ok access)
    : access.WellFormed := by
  have wfTop := (Range.ofWidth_top (valid_of_make made)).wellFormed
  cases found : functions.param? call.callee call.param with
  | none =>
      cases (access_of_none made found).symm.trans result
      exact wfTop
  | some usage =>
      have wf := (sized.usages _ _ _ found).range.wellFormed
      by_cases none : usage.range.IsNone
      · cases (access_of_isNone found none).symm.trans result
        exact wf
      by_cases all : usage.range.IsAll
      · cases (access_of_isAll made found wf all).symm.trans result
        exact wfTop
      · rw [access_of_isArc found ⟨wf, none, all⟩] at result
        exact (Range.addSigned_ofWidth wf offset result).wellFormed

end Accesses

section Answers

variable {width : Callee → UInt32} {functions : Functions} {func : Callee} {param : UInt32}
  {usage : Usage Callee} (sized : functions.Sized width)
  (found : functions.param? func param = some usage)

include sized found

/-- A range that grows includes what was known and what is accessed. -/
theorem growth_spec {toFull : Bool} {access range : Range} (proper : access.OfWidth (width func))
    (grown : growth toFull usage.range access = .ok range)
    : range.OfWidth (width func) ∧ usage.range ⊆ range ∧ access ⊆ range := by
  have known := (sized.usages _ _ _ found).range
  have valid := known.bits_eq ▸ known.wellFormed.valid
  rw [growth] at grown
  split at grown
  · have all := Range.isAll_top valid
    rw [known.bits_eq, Range.full_eq valid, Except.ok.injEq] at grown
    subst grown
    exact ⟨Range.ofWidth_top valid, Range.subset_of_isAll all known.bits_eq,
      Range.subset_of_isAll all proper.bits_eq⟩
  · obtain ⟨cover, covered, properCover, -, left, right⟩ :=
      Range.cover_spec known.wellFormed proper.wellFormed
        (known.bits_eq.trans proper.bits_eq.symm)
    cases covered.symm.trans grown
    exact ⟨known.bits_eq ▸ properCover, left, right⟩

/-- A call is accounted for in one of two ways: the access is inside the known range, or the
range is replaced by one that includes both. Either way the access has the width of the function.
-/
theorem absorb_cases {call : Forward Callee} {toFull : Bool} {answer : Option Functions}
    (made : make bits config = .ok solver) (member : call ∈ usage.calls)
    (result : solver.absorb func toFull functions param call = .ok answer)
    : ∃ access, solver.access functions call = .ok access ∧ access.OfWidth (width func)
        ∧ ((access ⊆ usage.range ∧ answer = none)
          ∨ (¬ access ⊆ usage.range ∧ ∃ range, growth toFull usage.range access = .ok range
            ∧ range.OfWidth (width func) ∧ usage.range ⊆ range ∧ access ⊆ range
            ∧ answer = some (functions.setRange func param range))) := by
  have usable := sized.usages _ _ _ found
  simp only [absorb, found] at result
  obtain ⟨access, accessed, result⟩ := exists_of_bind_eq_ok result
  obtain ⟨inside, decided, result⟩ := exists_of_bind_eq_ok result
  have wf := access_wellFormed made sized (usable.offset call member).wellFormed accessed
  have same := Range.bits_eq_of_contains decided
  have proper : access.OfWidth (width func) := ⟨wf, same.symm.trans usable.range.bits_eq⟩
  refine ⟨access, accessed, proper, ?_⟩
  cases inside with
  | true =>
      cases result
      exact Or.inl ⟨(Range.contains_eq_true_iff usable.range.wellFormed wf same).mp decided, rfl⟩
  | false =>
      obtain ⟨range, grown, result⟩ := exists_of_bind_eq_ok result
      cases result
      obtain ⟨properRange, known, covered⟩ := growth_spec sized found proper grown
      exact Or.inr ⟨(Range.contains_eq_false_iff usable.range.wellFormed wf same).mp decided,
        range, grown, properRange, known, covered, rfl⟩

end Answers

section Steps

variable {functions : Functions} (made : make bits config = .ok solver)
  (wf : functions.WellFormed bits)

include made wf

/-- A callee accesses the signed sum of its own accesses and the offsets. -/
theorem access_of_some {call : Forward Callee} {usage : Usage Callee}
    (offset : call.offset.OfWidth bits) (moved : ¬ call.offset.IsNone)
    (found : functions.param? call.callee call.param = some usage)
    : ∃ access, solver.access functions call = .ok access
        ∧ Range.SignedSum usage.range call.offset access := by
  have valid := valid_of_make made
  have range := (wf.usages _ _ _ found).range
  by_cases none : usage.range.IsNone
  · refine ⟨usage.range, access_of_isNone found none, ?_⟩
    exact Range.signedSum_of_isNone range.wellFormed offset.wellFormed (Or.inl none)
      ⟨range.wellFormed, rfl⟩ none
  by_cases all : usage.range.IsAll
  · refine ⟨Range.top bits, access_of_isAll made found range.wellFormed all, ?_⟩
    exact Range.signedSum_of_isAll offset.wellFormed all moved
      (by rw [range.bits_eq]; exact Range.ofWidth_top valid) (Range.isAll_top valid)
  · rw [access_of_isArc found ⟨range.wellFormed, none, all⟩]
    exact Range.addSigned_spec range.wellFormed offset.wellFormed
      (offset.bits_eq.trans range.bits_eq.symm)

/-- Every call of a usage has an access of the width. -/
theorem access_spec {usage : Usage Callee} {call : Forward Callee}
    (proper : usage.WellFormed bits) (member : call ∈ usage.calls)
    : ∃ access, solver.access functions call = .ok access ∧ access.OfWidth bits := by
  have valid := valid_of_make made
  have offset := proper.offset call member
  have moved := proper.moved call member
  cases foundCallee : functions.param? call.callee call.param with
  | none => exact ⟨Range.top bits, access_of_none made foundCallee, Range.ofWidth_top valid⟩
  | some target =>
      obtain ⟨access, result, meets⟩ := access_of_some made wf offset moved foundCallee
      have width := (wf.usages _ _ _ foundCallee).range.bits_eq
      exact ⟨access, result, width ▸ meets.ofWidth⟩

/-- Every call of a usage can be accounted for. -/
theorem absorb_ok {func : Callee} {param : UInt32} {usage : Usage Callee}
    {call : Forward Callee} (toFull : Bool)
    (found : functions.param? func param = some usage) (member : call ∈ usage.calls)
    : ∃ answer, solver.absorb func toFull functions param call = .ok answer := by
  have known := (wf.usages _ _ _ found).range
  obtain ⟨access, result, proper⟩ := access_spec made wf (wf.usages _ _ _ found) member
  have width : usage.range.bits = access.bits := known.bits_eq.trans proper.bits_eq.symm
  obtain ⟨inside, decided, _⟩ := Range.contains_spec known.wellFormed proper.wellFormed width
  simp only [absorb, found, result, decided, ok_bind]
  cases inside with
  | true => exact ⟨none, rfl⟩
  | false =>
      cases toFull with
      | true =>
          exact ⟨some (functions.setRange func param (Range.top usage.range.bits)),
            by simp [growth, Range.full_eq known.wellFormed.valid]⟩
      | false =>
          obtain ⟨range, covered, _⟩ :=
            Range.cover_spec known.wellFormed proper.wellFormed width
          exact ⟨some (functions.setRange func param range), by simp [growth, covered]⟩

end Steps

end Solver

end StackBounds
