import Mathlib.Data.List.Forall2
import Mathlib.Logic.Relation
import StackBounds.Event
import StackBounds.Fresh

/-! Computations over lists: what it means that all their steps have answers. Walks along chains:
what leads to an end passes each item once.
-/

namespace StackBounds

variable {α β σ : Type}

/-- Positions ascend. -/
theorem pairwise_zipIdx (items : List α)
    : items.zipIdx.Pairwise fun first second => first.2 < second.2 := by
  apply List.pairwise_map.mp
  rw [List.zipIdx_map_snd]
  exact List.pairwise_lt_range'

/-- A list of computations has answers when each of them has one. -/
theorem mapM_eq_ok_iff {step : α → Except Fault β} {inputs : List α} {answers : List β}
    : inputs.mapM step = .ok answers
      ↔ List.Forall₂ (fun input answer => step input = .ok answer) inputs answers := by
  induction inputs generalizing answers with
  | nil =>
      rw [List.mapM_nil, List.forall₂_nil_left_iff, pure_eq_ok, Except.ok.injEq, eq_comm]
  | cons input rest ih =>
      rw [List.mapM_cons]
      constructor
      · intro h
        obtain ⟨answer, first, h⟩ := exists_of_bind_eq_ok h
        obtain ⟨others, later, h⟩ := exists_of_bind_eq_ok h
        cases h
        exact .cons first (ih.mp later)
      · intro related
        cases related with
        | cons first later => rw [first, ok_bind, ih.mpr later, ok_bind, pure_eq_ok]

theorem exists_mapM_eq_ok {step : α → Except Fault β} {inputs : List α}
    (answered : ∀ input ∈ inputs, ∃ answer, step input = .ok answer)
    : ∃ answers, inputs.mapM step = .ok answers := by
  induction inputs with
  | nil => exact ⟨[], rfl⟩
  | cons input rest ih =>
      obtain ⟨answer, first⟩ := answered input List.mem_cons_self
      obtain ⟨others, later⟩ := ih fun other member =>
        answered other (List.mem_cons_of_mem _ member)
      exact ⟨answer :: others, by rw [List.mapM_cons, first, ok_bind, later, ok_bind, pure_eq_ok]⟩

theorem map_eq_map_of_forall₂ {relation : α → β → Prop} {first : α → σ} {second : β → σ}
    (agree : ∀ input answer, relation input answer → second answer = first input)
    {inputs : List α} {answers : List β} (related : List.Forall₂ relation inputs answers)
    : answers.map second = inputs.map first := by
  induction related with
  | nil => rfl
  | cons head _ ih => rw [List.map_cons, List.map_cons, agree _ _ head, ih]

/-- Every answer belongs to an input. -/
theorem exists_input {relation : α → β → Prop} {inputs : List α} {answers : List β}
    (related : List.Forall₂ relation inputs answers) {answer : β} (member : answer ∈ answers)
    : ∃ input ∈ inputs, relation input answer := by
  induction related with
  | nil => cases member
  | cons first _ ih =>
      rcases List.mem_cons.mp member with rfl | later
      · exact ⟨_, List.mem_cons_self, first⟩
      · obtain ⟨input, inside, holds⟩ := ih later
        exact ⟨input, List.mem_cons_of_mem _ inside, holds⟩

/-- Every input has its answer. -/
theorem exists_answer {relation : α → β → Prop} {inputs : List α} {answers : List β}
    (related : List.Forall₂ relation inputs answers) {input : α} (member : input ∈ inputs)
    : ∃ answer ∈ answers, relation input answer := by
  induction related with
  | nil => cases member
  | cons first _ ih =>
      rcases List.mem_cons.mp member with rfl | later
      · exact ⟨_, List.mem_cons_self, first⟩
      · obtain ⟨answer, inside, holds⟩ := ih later
        exact ⟨answer, List.mem_cons_of_mem _ inside, holds⟩

-----------------------------------------------------------------------------------------
-- Computations whose answers are kept or dropped
-----------------------------------------------------------------------------------------

section Keeping

variable {step : α → Except Fault (Option β)} {inputs : List α} {answers : List β}

theorem filterMapM_cons_eq_ok_iff {input : α}
    : (input :: inputs).filterMapM step = .ok answers
      ↔ ∃ first others, step input = .ok first ∧ inputs.filterMapM step = .ok others
        ∧ answers = first.toList ++ others := by
  rw [List.filterMapM_cons]
  cases step input with
  | error fault => simp
  | ok first => cases first <;> cases inputs.filterMapM step <;> simp [eq_comm]

/-- What is kept of the answers of a list of computations. -/
theorem mem_filterMapM (result : inputs.filterMapM step = .ok answers) {answer : β}
    : answer ∈ answers ↔ ∃ input ∈ inputs, step input = .ok (some answer) := by
  induction inputs generalizing answers with
  | nil =>
      cases result
      simp
  | cons input rest ih =>
      obtain ⟨first, others, head, tail, rfl⟩ := filterMapM_cons_eq_ok_iff.mp result
      simp [ih tail, head, Option.mem_toList]

theorem exists_of_filterMapM (result : inputs.filterMapM step = .ok answers) {input : α}
    (member : input ∈ inputs)
    : ∃ answer, step input = .ok answer := by
  induction inputs generalizing answers with
  | nil => cases member
  | cons head rest ih =>
      obtain ⟨first, others, found, tail, _⟩ := filterMapM_cons_eq_ok_iff.mp result
      rcases List.mem_cons.mp member with rfl | later
      · exact ⟨first, found⟩
      · exact ih tail later

/-- What is kept stands in the order of the inputs. -/
theorem filterMapM_sublist {first : α → σ} {second : β → σ}
    (agree : ∀ input answer, step input = .ok (some answer) → second answer = first input)
    (result : inputs.filterMapM step = .ok answers)
    : (answers.map second).Sublist (inputs.map first) := by
  induction inputs generalizing answers with
  | nil =>
      cases result
      exact .slnil
  | cons input rest ih =>
      obtain ⟨found, others, head, tail, rfl⟩ := filterMapM_cons_eq_ok_iff.mp result
      cases found with
      | none => exact .cons _ (ih tail)
      | some kept =>
          rw [Option.toList_some, List.singleton_append, List.map_cons, List.map_cons,
            agree _ _ head]
          exact .cons_cons _ (ih tail)

theorem exists_filterMapM_eq_ok (answered : ∀ input ∈ inputs, ∃ answer, step input = .ok answer)
    : ∃ answers, inputs.filterMapM step = .ok answers := by
  induction inputs with
  | nil => exact ⟨[], rfl⟩
  | cons input rest ih =>
      obtain ⟨answer, head⟩ := answered input List.mem_cons_self
      obtain ⟨others, tail⟩ := ih fun other member =>
        answered other (List.mem_cons_of_mem _ member)
      exact ⟨_, filterMapM_cons_eq_ok_iff.mpr ⟨answer, others, head, tail, rfl⟩⟩

/-- A list of computations fails where one of them does. -/
theorem exists_of_filterMapM_eq_error {fault : Fault}
    (result : inputs.filterMapM step = .error fault)
    : ∃ input ∈ inputs, step input = .error fault := by
  induction inputs with
  | nil => cases result
  | cons input rest ih =>
      rw [List.filterMapM_cons] at result
      cases first : step input with
      | error other =>
          rw [first] at result
          cases result
          exact ⟨input, List.mem_cons_self, first⟩
      | ok answer =>
          have later : rest.filterMapM step = .error fault := by
            cases tail : rest.filterMapM step with
            | error other => cases answer <;> simpa [first, tail] using result
            | ok others => cases answer <;> simp [first, tail] at result
          obtain ⟨other, member, failed⟩ := ih later
          exact ⟨other, List.mem_cons_of_mem _ member, failed⟩

/-- In another order the same answers are kept, in another order. -/
theorem exists_filterMapM_of_perm {others : List α} (perm : inputs.Perm others)
    (result : inputs.filterMapM step = .ok answers)
    : ∃ same, others.filterMapM step = .ok same ∧ answers.Perm same := by
  induction perm generalizing answers with
  | nil => exact ⟨answers, result, .refl _⟩
  | cons input _ ih =>
      obtain ⟨first, tail, head, rest, rfl⟩ := filterMapM_cons_eq_ok_iff.mp result
      obtain ⟨same, kept, permuted⟩ := ih rest
      exact ⟨_, filterMapM_cons_eq_ok_iff.mpr ⟨first, same, head, kept, rfl⟩,
        permuted.append_left _⟩
  | swap input other rest =>
      obtain ⟨first, _, head, tail, rfl⟩ := filterMapM_cons_eq_ok_iff.mp result
      obtain ⟨second, kept, next, rest, rfl⟩ := filterMapM_cons_eq_ok_iff.mp tail
      have swapped := filterMapM_cons_eq_ok_iff.mpr ⟨first, kept, head, rest, rfl⟩
      exact ⟨_, filterMapM_cons_eq_ok_iff.mpr ⟨second, _, next, swapped, rfl⟩,
        List.perm_append_comm_assoc _ _ _⟩
  | trans _ _ ihFirst ihSecond =>
      obtain ⟨middle, kept, first⟩ := ihFirst result
      obtain ⟨same, final, second⟩ := ihSecond kept
      exact ⟨same, final, first.trans second⟩

end Keeping

-----------------------------------------------------------------------------------------
-- Computations that report
-----------------------------------------------------------------------------------------

/-- The answers of a list of computations do not depend on their events. -/
theorem Traced.result_mapM (step : α → Traced β) (inputs : List α)
    : (inputs.mapM step).result = inputs.mapM fun input => (step input).result := by
  have loop (inputs : List α) (answers : List β)
      : (List.mapM.loop step inputs answers).result
        = List.mapM.loop (fun input => (step input).result) inputs answers := by
    induction inputs generalizing answers with
    | nil => rfl
    | cons input rest ih =>
        simp only [List.mapM.loop, Traced.result_bind]
        cases (step input).result with
        | error fault => rfl
        | ok answer => exact ih (answer :: answers)
  exact loop inputs []

-----------------------------------------------------------------------------------------
-- Chains with one way on
-----------------------------------------------------------------------------------------

section Chains

open Relation (ReflTransGen TransGen)

variable {next : α → α → Prop} {first second last : α}

/-- In a chain with one way on, what leads to an end does not lead back to itself. -/
theorem not_transGen_self (unique : Relator.RightUnique next)
    (chain : ReflTransGen next first last) (ends : ∀ other, ¬ next last other)
    : ¬ TransGen next first first := by
  induction chain using ReflTransGen.head_induction_on with
  | refl =>
      intro loop
      obtain ⟨other, step, _⟩ := TransGen.head'_iff.mp loop
      exact ends other step
  | head step _ later =>
      intro loop
      obtain ⟨other, again, back⟩ := TransGen.head'_iff.mp loop
      cases unique step again
      exact later (TransGen.tail' back step)

variable [BEq α] [LawfulBEq α] {fresh : List α}

/-- A chain that ends does not come back to an item that it passed. -/
theorem mem_erase_of_chain (unique : Relator.RightUnique next) (step : next first second)
    (chain : ReflTransGen next second last) (ends : ∀ other, ¬ next last other)
    (inside : ∀ passed, ReflTransGen next first passed → passed ∈ fresh) (passed : α)
    (passes : ReflTransGen next second passed)
    : passed ∈ fresh.erase first := by
  apply (List.mem_erase_of_ne ?_).mpr (inside passed (.head step passes))
  rintro rfl
  exact not_transGen_self unique (.head step chain) ends (.head' step passes)

/-- A walk with as many steps left as there are fresh items can enter one of them. -/
theorem exists_limit_of_mem {item : α} (member : item ∈ fresh) {limit : Nat}
    (enough : fresh.length ≤ limit)
    : ∃ rest, limit = rest + 1 ∧ (fresh.erase item).length ≤ rest := by
  have fewer := length_erase_lt member
  exact ⟨limit - 1, by omega, by omega⟩

end Chains

end StackBounds
