import StackBounds.Proofs.ResolvedCalls
import StackBounds.Proofs.Summary.Symbols

/-! Walks along aliases are cut neither too early nor too late. A chain that ends has no loop, so
the bound on the number of steps and the set of fresh summaries do not cut it; a walk around a loop
is cut, and answers as if there were no function.
-/

namespace StackBounds

open Relation (ReflTransGen)

namespace Module

variable {unit : Module} {symbol other : Global} {func : FunctionId}

-----------------------------------------------------------------------------------------
-- Chains in a module
-----------------------------------------------------------------------------------------

/-- What a call returns is the unit type, unless the chain reaches a function; by induction on the
steps.
-/
theorem returnTyWithin_cases {steps : Nat} {ty : Ty}
    (result : unit.returnTyWithin steps symbol = .ok ty)
    : ty = .unit ∨ ∃ func, ReflTransGen unit.Link symbol (.function func) := by
  induction steps generalizing symbol with
  | zero =>
      cases result
      exact Or.inl rfl
  | succ steps later =>
      cases symbol with
      | function id => exact Or.inr ⟨id, .refl⟩
      | aliased id =>
          obtain ⟨link, found, result⟩ := exists_of_bind_eq_ok result
          exact (later result).imp_right fun ⟨func, chain⟩ => ⟨func, .head (.intro found) chain⟩

section Existing

variable (aliases : ∀ link ∈ unit.aliases, link.aliasee ∈ unit.globals)

include aliases

theorem mem_globals_of_aliasee {id : AliasId} {link : Alias} (found : unit.aliasAt id = .ok link)
    : link.aliasee ∈ unit.globals :=
  aliases link (List.mem_of_getElem? (aliasAt_eq_ok_iff.mp found))

/-- A chain stays in the module. -/
theorem mem_globals_of_chain (member : symbol ∈ unit.globals)
    (chain : ReflTransGen unit.Link symbol other)
    : other ∈ unit.globals := by
  induction chain with
  | refl => exact member
  | tail _ step _ =>
      cases step with
      | intro found => exact mem_globals_of_aliasee aliases found

theorem exists_returnTyWithin (member : symbol ∈ unit.globals) (steps : Nat)
    : ∃ ty, unit.returnTyWithin steps symbol = .ok ty := by
  induction steps generalizing symbol with
  | zero => exact ⟨.unit, rfl⟩
  | succ steps later =>
      obtain ⟨_, _, _, named, _⟩ := attributes_of_mem member
      cases symbol with
      | function id =>
          obtain ⟨func, found, _⟩ := exists_of_bind_eq_ok named
          exact ⟨func.sig.ret, by rw [returnTyWithin, found, ok_bind, pure_eq_ok]⟩
      | aliased id =>
          obtain ⟨link, found, _⟩ := exists_of_bind_eq_ok named
          rw [returnTyWithin, found, ok_bind]
          exact later (mem_globals_of_aliasee aliases found)

/-- A call is bound to the function at the end of its chain if the whole chain is bound here. -/
theorem exists_boundFunction_iff (member : symbol ∈ unit.globals)
    : ∃ answer, unit.boundFunction symbol = .ok answer
      ∧ ∀ func, answer = some func
        ↔ ReflTransGen unit.Link symbol (.function func)
          ∧ ∀ passed, ReflTransGen unit.Link symbol passed → unit.BoundHere passed := by
  obtain ⟨answer, result⟩ :=
    exists_boundFunctionWithin aliases member (unit.aliases.length + 1)
  refine ⟨answer, result, fun func => ?_⟩
  rw [← leads_iff, ← boundFunction_eq_some_iff, boundFunction, result, Except.ok.injEq]

/-- A call returns what the function at the end of its chain does, and nothing if there is none. -/
theorem exists_returnTy (member : symbol ∈ unit.globals)
    : ∃ ty, unit.returnTy symbol = .ok ty
      ∧ (∀ id func, ReflTransGen unit.Link symbol (.function id) → unit.function id = .ok func
        → ty = func.sig.ret)
      ∧ ((∀ id, ¬ ReflTransGen unit.Link symbol (.function id)) → ty = .unit) := by
  obtain ⟨ty, result⟩ := exists_returnTyWithin aliases member (unit.aliases.length + 1)
  refine ⟨ty, result, fun id func chain found => ?_, fun without => ?_⟩
  · have reached := returnTy_of_chain chain
    rw [returnTy, result, found, ok_bind, pure_eq_ok, Except.ok.injEq] at reached
    exact reached
  · obtain nothing | ⟨func, chain⟩ := returnTyWithin_cases result
    · exact nothing
    · exact absurd chain (without func)

end Existing

end Module

namespace SummaryIndex

variable {index : SummaryIndex} {id target : SummaryId}

-----------------------------------------------------------------------------------------
-- Chains in an index
-----------------------------------------------------------------------------------------

/-- The summary of an alias and that of its aliasee. -/
inductive Link (index : SummaryIndex) : SummaryId → SummaryId → Prop
  | intro {id aliasee : SummaryId} {summary : Summary} (found : index.summary id = .ok summary)
    (kind : summary.kind = .aliased aliasee)
    : index.Link id aliasee

/-- The symbol is reachable from the roots of the program and cannot be preempted. -/
def Usable (index : SummaryIndex) (id : SummaryId) : Prop :=
  ∃ summary, index.summary id = .ok summary ∧ summary.live = true ∧ summary.dsoLocal = true

/-- The summary is that of a function. -/
def NamesCode (index : SummaryIndex) (id : SummaryId) : Prop :=
  ∃ summary, index.summary id = .ok summary ∧ summary.kind.isFunction = true

theorem link_rightUnique (index : SummaryIndex) : Relator.RightUnique index.Link := by
  rintro id first second ⟨found, kind⟩ ⟨foundAgain, kindAgain⟩
  cases found.symm.trans foundAgain
  cases kind.symm.trans kindAgain
  rfl

theorem not_link_of_namesCode (code : index.NamesCode id) (other : SummaryId)
    : ¬ index.Link id other := by
  rintro ⟨found, kind⟩
  obtain ⟨summary, again, code⟩ := code
  cases found.symm.trans again
  simp [kind, SummaryKind.isFunction] at code

/-- What a summary resolves to is at the end of its chain, with usable summaries on the way; by
induction on the fresh summaries.
-/
theorem chain_of_resolveFrom (fresh : List SummaryId)
    (resolved : index.resolveFrom fresh id = .ok (some target))
    : ReflTransGen index.Link id target ∧ index.NamesCode target
      ∧ ∀ passed, ReflTransGen index.Link id passed → index.Usable passed := by
  induction size : fresh.length using Nat.strongRecOn generalizing fresh id with
  | ind _ ih =>
      rw [resolveFrom] at resolved
      obtain ⟨summary, found, resolved⟩ := exists_of_bind_eq_ok resolved
      split at resolved
      · rename_i inside
        split at resolved
        · rename_i usable
          have here : index.Usable id := ⟨summary, found, Bool.and_eq_true_iff.mp usable⟩
          split at resolved
          · rename_i accesses kind
            cases resolved
            have code : index.NamesCode target := ⟨summary, found, by rw [kind]; rfl⟩
            refine ⟨.refl, code, fun passed chain => ?_⟩
            obtain rfl | ⟨_, step, _⟩ := chain.cases_head
            · exact here
            · exact absurd step (not_link_of_namesCode code _)
          · rename_i aliasee kind
            have step : index.Link id aliasee := .intro found kind
            obtain ⟨chain, code, all⟩ :=
              ih _ (size ▸ length_erase_lt inside) (fresh.erase id) resolved rfl
            refine ⟨.head step chain, code, fun passed chain => ?_⟩
            obtain rfl | ⟨_, again, rest⟩ := chain.cases_head
            · exact here
            · exact all passed (index.link_rightUnique step again ▸ rest)
          · cases resolved
        · cases resolved
      · cases resolved

/-- A chain of usable summaries is followed to its end as long as all of it is fresh. It does not
come back to a summary that was passed, because it ends.
-/
theorem resolveFrom_of_chain (chain : ReflTransGen index.Link id target)
    (code : index.NamesCode target)
    (usable : ∀ passed, ReflTransGen index.Link id passed → index.Usable passed)
    {fresh : List SummaryId}
    (inside : ∀ passed, ReflTransGen index.Link id passed → passed ∈ fresh)
    : index.resolveFrom fresh id = .ok (some target) := by
  induction chain using ReflTransGen.head_induction_on generalizing fresh with
  | refl =>
      obtain ⟨summary, found, live, dsoLocal⟩ := usable _ .refl
      obtain ⟨_, again, code⟩ := code
      cases found.symm.trans again
      rw [resolveFrom, found, ok_bind]
      cases kind : summary.kind with
      | function accesses => simp [inside _ .refl, live, dsoLocal]
      | aliased aliasee => simp [kind, SummaryKind.isFunction] at code
      | object => simp [kind, SummaryKind.isFunction] at code
  | @head first second step chain later =>
      have rest := later (fun passed chain => usable passed (.head step chain))
        (mem_erase_of_chain index.link_rightUnique step chain (not_link_of_namesCode code) inside)
      obtain ⟨summary, found, live, dsoLocal⟩ := usable _ .refl
      cases step with
      | intro again kind =>
          cases found.symm.trans again
          rw [resolveFrom, found, ok_bind]
          simp [inside _ .refl, live, dsoLocal, kind, rest]

theorem mem_ids_iff : id ∈ index.ids ↔ id.index < index.summaries.length := by
  constructor
  · intro member
    obtain ⟨number, inside, rfl⟩ := List.mem_map.mp member
    exact List.mem_range.mp inside
  · intro bound
    exact List.mem_map.mpr ⟨id.index, List.mem_range.mpr bound, rfl⟩

/-- A chain stays in the index. -/
theorem mem_ids_of_chain (aliases : index.AliasesExist) (member : id ∈ index.ids)
    (chain : ReflTransGen index.Link id target)
    : target ∈ index.ids := by
  induction chain with
  | refl => exact member
  | tail _ step _ =>
      cases step with
      | intro found kind =>
          have listed := List.mem_of_getElem? (summary_eq_ok_iff.mp found)
          exact mem_ids_iff.mpr (aliases _ listed _ kind)

/-- A summary resolves to the function at the end of its chain if the whole chain is usable. -/
theorem exists_resolve_iff (aliases : index.AliasesExist) (member : id ∈ index.ids)
    : ∃ answer, index.resolve id = .ok answer
      ∧ ∀ target, answer = some target
        ↔ ReflTransGen index.Link id target ∧ index.NamesCode target
          ∧ ∀ passed, ReflTransGen index.Link id passed → index.Usable passed := by
  obtain ⟨answer, result⟩ := resolveFrom_ok aliases index.ids (mem_ids_iff.mp member)
  refine ⟨answer, result, fun target => ⟨?_, ?_⟩⟩
  · rintro rfl
    exact chain_of_resolveFrom index.ids result
  · rintro ⟨chain, code, usable⟩
    have followed := resolveFrom_of_chain chain code usable
      fun passed chain => mem_ids_of_chain aliases member chain
    exact Except.ok.inj (result.symm.trans followed)

end SummaryIndex

-----------------------------------------------------------------------------------------
-- All walks
-----------------------------------------------------------------------------------------

/-- The walks along aliases have answers, which follow the chains exactly. In a module whose aliases
name its own symbols, a call is bound to a function if and only if its chain reaches the function
and all symbols on the way are bound here, and it returns what the function at the end of the chain
returns, or nothing. In an index whose aliases lead to summaries, a summary resolves to another if
and only if its chain reaches that of a function with usable summaries all the way.
-/
theorem alias_walks_follow_chains {unit : Module} {index : SummaryIndex}
    (symbols : ∀ link ∈ unit.aliases, link.aliasee ∈ unit.globals)
    (summaries : index.AliasesExist)
    : (∀ symbol ∈ unit.globals,
        (∃ answer, unit.boundFunction symbol = .ok answer
          ∧ ∀ func, answer = some func
            ↔ ReflTransGen unit.Link symbol (.function func)
              ∧ ∀ passed, ReflTransGen unit.Link symbol passed → unit.BoundHere passed)
        ∧ ∃ ty, unit.returnTy symbol = .ok ty
          ∧ (∀ id func, ReflTransGen unit.Link symbol (.function id)
            → unit.function id = .ok func → ty = func.sig.ret)
          ∧ ((∀ id, ¬ ReflTransGen unit.Link symbol (.function id)) → ty = .unit))
      ∧ ∀ id ∈ index.ids, ∃ answer, index.resolve id = .ok answer
        ∧ ∀ target, answer = some target
          ↔ ReflTransGen index.Link id target ∧ index.NamesCode target
            ∧ ∀ passed, ReflTransGen index.Link id passed → index.Usable passed :=
  ⟨fun _ member => ⟨Module.exists_boundFunction_iff symbols member,
    Module.exists_returnTy symbols member⟩,
    fun _ member => SummaryIndex.exists_resolve_iff summaries member⟩

/-- A chain through all aliases of a module, to a function that returns a number. -/
def chained : Module where
  name := "m"
  target := ⟨.x86_64, .unknown, .linux⟩
  functions := [{
    sig := .declared "f" .exported [] .i64
    values := [.constant (.i64 7)]
    insts := [.ret (some ⟨0⟩)]
    blockCount := 1
    layout := [⟨⟨0⟩, [⟨0⟩]⟩] }]
  aliases := [⟨"a", .exported, true, .aliased ⟨2⟩⟩, ⟨"b", .exported, true, .function ⟨0⟩⟩,
    ⟨"c", .exported, true, .aliased ⟨1⟩⟩]

/-- A chain through all aliases of an index, to a function. -/
def chainedIndex : SummaryIndex where
  summaries := [⟨⟨1⟩, "m", .exported, true, true, .aliased ⟨2⟩⟩,
    ⟨⟨2⟩, "m", .exported, true, true, .function []⟩,
    ⟨⟨3⟩, "m", .exported, true, true, .aliased ⟨1⟩⟩]

/-- Witness: both chains are followed to their ends. -/
theorem alias_walks_follow_chains_chained
    : chained.boundFunction (.aliased ⟨0⟩) = .ok (some ⟨0⟩)
      ∧ chained.returnTy (.aliased ⟨0⟩) = .ok .i64
      ∧ chainedIndex.resolve ⟨0⟩ = .ok (some ⟨1⟩) := by
  have symbols : ∀ link ∈ chained.aliases, link.aliasee ∈ chained.globals := by decide
  have summaries : chainedIndex.AliasesExist := by
    simp [SummaryIndex.AliasesExist, chainedIndex]
  obtain ⟨follows, resolves⟩ := alias_walks_follow_chains symbols summaries
  obtain ⟨⟨answer, bound, answers⟩, ty, returned, reached, _⟩ := follows (.aliased ⟨0⟩) (by decide)
  obtain ⟨target, resolved, targets⟩ := resolves ⟨0⟩ (by decide)
  have chain : ReflTransGen chained.Link (.aliased ⟨0⟩) (.function ⟨0⟩) :=
    .head (.intro rfl) (.head (.intro rfl) (.head (.intro rfl) .refl))
  have boundHere : ∀ symbol ∈ chained.globals, chained.isBoundHere symbol = .ok true := by decide
  have usable : ∀ summary ∈ chainedIndex.summaries,
      summary.live = true ∧ summary.dsoLocal = true := by decide
  obtain rfl := (answers ⟨0⟩).mpr ⟨chain, fun passed chain => Module.isBoundHere_iff.mp
    (boundHere passed (Module.mem_globals_of_chain symbols (by decide) chain))⟩
  obtain rfl := reached ⟨0⟩ _ chain rfl
  obtain rfl := (targets ⟨1⟩).mpr ⟨.head (.intro rfl rfl) (.head (.intro rfl rfl) .refl),
    ⟨_, rfl, rfl⟩, fun passed chain => by
      have inside := SummaryIndex.mem_ids_of_chain summaries (by decide) chain
      obtain ⟨summary, found, listed⟩ :=
        SummaryIndex.exists_summary (SummaryIndex.mem_ids_iff.mp inside)
      exact ⟨summary, found, usable summary listed⟩⟩
  exact ⟨bound, returned, resolved⟩

end StackBounds
