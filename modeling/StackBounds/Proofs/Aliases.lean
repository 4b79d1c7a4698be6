import Mathlib.Tactic.MkIffOfInductiveProp
import StackBounds.Proofs.Computations
import StackBounds.Proofs.Views

/-! Chains of aliases in a module. A chain that ends at a function passes each symbol once, so the
bound on the number of steps does not cut it; following it finds its end if all its symbols are
bound here.
-/

namespace StackBounds.Module

open Relation (ReflTransGen)

/-- An alias and what it is another name of. -/
inductive Link (unit : Module) : Global → Global → Prop
  | intro {id : AliasId} {link : Alias} (found : unit.aliasAt id = .ok link)
    : unit.Link (.aliased id) link.aliasee

/-- The definition of the symbol in this module is the one that runs. -/
structure BoundHere (unit : Module) (symbol : Global) : Prop where
  defined : unit.isDeclaration symbol = .ok false
  notInterposable : ∃ linkage, unit.linkageOf symbol = .ok linkage ∧ linkage.isInterposable = false
  dsoLocal : unit.isDsoLocal symbol = .ok true

/-- A symbol leads to a function: the chain from it ends there, and all symbols on it are bound
here.
-/
@[mk_iff]
structure Leads (unit : Module) (symbol : Global) (func : FunctionId) : Prop where
  chain : ReflTransGen unit.Link symbol (.function func)
  bound : ∀ passed, ReflTransGen unit.Link symbol passed → unit.BoundHere passed

variable {unit : Module} {symbol other : Global} {func : FunctionId}

theorem isBoundHere_iff : unit.isBoundHere symbol = .ok true ↔ unit.BoundHere symbol := by
  constructor
  · intro bound
    obtain ⟨declaration, declared, bound⟩ := exists_of_bind_eq_ok bound
    obtain ⟨linkage, linked, bound⟩ := exists_of_bind_eq_ok bound
    obtain ⟨dsoLocal, placed, bound⟩ := exists_of_bind_eq_ok bound
    simp only [pure_eq_ok, Except.ok.injEq, Bool.and_eq_true, Bool.not_eq_true'] at bound
    obtain ⟨⟨rfl, notInterposable⟩, rfl⟩ := bound
    exact ⟨declared, ⟨linkage, linked, notInterposable⟩, placed⟩
  · rintro ⟨declared, ⟨linkage, linked, notInterposable⟩, placed⟩
    simp [isBoundHere, declared, linked, placed, notInterposable]

-----------------------------------------------------------------------------------------
-- Chains
-----------------------------------------------------------------------------------------

theorem link_rightUnique (unit : Module) : Relator.RightUnique unit.Link := by
  rintro symbol first second ⟨found⟩ ⟨again⟩
  cases found.symm.trans again
  rfl

/-- Only an alias leads on. -/
theorem not_link_function (other : Global) : ¬ unit.Link (.function func) other := by
  rintro ⟨⟩

theorem Leads.here (bound : unit.BoundHere (.function func))
    : unit.Leads (.function func) func := by
  refine ⟨.refl, fun passed chain => ?_⟩
  obtain rfl | ⟨_, step, _⟩ := chain.cases_head
  · exact bound
  · exact absurd step (not_link_function _)

theorem Leads.through {id : AliasId} {link : Alias} (bound : unit.BoundHere (.aliased id))
    (found : unit.aliasAt id = .ok link) (leads : unit.Leads link.aliasee func)
    : unit.Leads (.aliased id) func := by
  refine ⟨.head (.intro found) leads.chain, fun passed chain => ?_⟩
  obtain rfl | ⟨_, step, rest⟩ := chain.cases_head
  · exact bound
  · exact leads.bound passed (unit.link_rightUnique (.intro found) step ▸ rest)

/-- A chain to a function passes aliases of the module, and the function. -/
theorem mem_of_chain (chain : ReflTransGen unit.Link symbol (.function func))
    (passes : ReflTransGen unit.Link symbol other)
    : other ∈ .function func :: unit.aliasIds.map .aliased := by
  obtain later | before := ReflTransGen.total_of_right_unique unit.link_rightUnique passes chain
  · obtain rfl | ⟨_, step, _⟩ := later.cases_head
    · exact List.mem_cons_self
    · cases step with
      | intro found =>
          exact List.mem_cons_of_mem _ (List.mem_map_of_mem (mem_aliasIds found))
  · obtain rfl | ⟨_, step, _⟩ := before.cases_head
    · exact List.mem_cons_self
    · exact absurd step (not_link_function _)

-----------------------------------------------------------------------------------------
-- Following them
-----------------------------------------------------------------------------------------

/-- The end of a chain says what a call returns, whether its symbols are bound here or not; by
induction on the chain, with as many steps left as there are fresh symbols.
-/
theorem returnTyWithin_of_chain (chain : ReflTransGen unit.Link symbol (.function func))
    {fresh : List Global}
    (inside : ∀ passed, ReflTransGen unit.Link symbol passed → passed ∈ fresh)
    {limit : Nat} (enough : fresh.length ≤ limit)
    : unit.returnTyWithin limit symbol = (do pure (← unit.function func).sig.ret) := by
  induction chain using ReflTransGen.head_induction_on generalizing fresh limit with
  | refl =>
      obtain ⟨limit, rfl, _⟩ := exists_limit_of_mem (inside _ .refl) enough
      rfl
  | head step chain later =>
      obtain ⟨limit, rfl, left⟩ := exists_limit_of_mem (inside _ .refl) enough
      have still := mem_erase_of_chain unit.link_rightUnique step chain not_link_function inside
      have rest := later still left
      cases step with
      | intro found => rw [returnTyWithin, found, ok_bind, rest]

/-- A chain is followed to its end if all its symbols are bound here. -/
theorem Leads.boundFunctionWithin (leads : unit.Leads symbol func) {fresh : List Global}
    (inside : ∀ passed, ReflTransGen unit.Link symbol passed → passed ∈ fresh)
    {limit : Nat} (enough : fresh.length ≤ limit)
    : unit.boundFunctionWithin limit symbol = .ok (some func) := by
  obtain ⟨chain, bound⟩ := leads
  induction chain using ReflTransGen.head_induction_on generalizing fresh limit with
  | refl =>
      obtain ⟨limit, rfl, _⟩ := exists_limit_of_mem (inside _ .refl) enough
      have here := isBoundHere_iff.mpr (bound _ .refl)
      simp only [Module.boundFunctionWithin, here, ok_bind, ↓reduceIte, pure_eq_ok]
  | head step chain later =>
      obtain ⟨limit, rfl, left⟩ := exists_limit_of_mem (inside _ .refl) enough
      have still := mem_erase_of_chain unit.link_rightUnique step chain not_link_function inside
      have rest := later still left fun passed chain => bound passed (.head step chain)
      have here := isBoundHere_iff.mpr (bound _ .refl)
      cases step with
      | intro found =>
          simp only [Module.boundFunctionWithin, here, ok_bind, ↓reduceIte, found, rest]

theorem length_passable (unit : Module) (func : FunctionId)
    : (.function func :: unit.aliasIds.map .aliased : List Global).length
      = unit.aliases.length + 1 := by
  simp [aliasIds]

theorem returnTy_of_chain (chain : ReflTransGen unit.Link symbol (.function func))
    : unit.returnTy symbol = (do pure (← unit.function func).sig.ret) :=
  returnTyWithin_of_chain chain (fun _ passes => mem_of_chain chain passes)
    (Nat.le_of_eq (unit.length_passable func))

/-- The end of a chain is the function that a call runs. -/
theorem Leads.boundFunction (leads : unit.Leads symbol func)
    : unit.boundFunction symbol = .ok (some func) :=
  leads.boundFunctionWithin (fun _ passes => mem_of_chain leads.chain passes)
    (Nat.le_of_eq (unit.length_passable func))

/-- A call that is bound here follows a chain; by induction on the number of steps. -/
theorem leads_of_boundFunctionWithin {limit : Nat}
    (bound : unit.boundFunctionWithin limit symbol = .ok (some func))
    : unit.Leads symbol func := by
  induction limit generalizing symbol with
  | zero => cases bound
  | succ limit ih =>
      obtain ⟨here, tested, bound⟩ := exists_of_bind_eq_ok bound
      cases here with
      | false => cases bound
      | true =>
          cases symbol with
          | function id =>
              cases bound
              exact .here (isBoundHere_iff.mp tested)
          | aliased id =>
              obtain ⟨link, found, bound⟩ := exists_of_bind_eq_ok bound
              exact .through (isBoundHere_iff.mp tested) found (ih bound)

theorem boundFunction_eq_some_iff
    : unit.boundFunction symbol = .ok (some func) ↔ unit.Leads symbol func :=
  ⟨leads_of_boundFunctionWithin, Leads.boundFunction⟩

end StackBounds.Module
