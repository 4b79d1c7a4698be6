import Mathlib.Data.List.Nodup
import StackBounds.Program.Module
import StackBounds.Proofs.Computations

/-! The views of functions and modules: what is found under a number or a name, what uses a value
and what an instruction results in.
-/

namespace StackBounds

theorem set_eq_self {α : Type} {items : List α} {index : Nat} {item : α}
    (found : items[index]? = some item)
    : items.set index item = items := by
  obtain ⟨bound, rfl⟩ := List.getElem?_eq_some_iff.mp found
  exact List.set_getElem_self bound

/-- A list whose items say where they stand has none of them twice. -/
theorem nodup_of_getElem?_inj {α : Type} {items : List α}
    (unique : ∀ (first second : Nat) item, items[first]? = some item → items[second]? = some item
      → first = second)
    : items.Nodup := by
  refine List.pairwise_iff_getElem.mpr fun first second low high before same => ?_
  have again : items[second]? = some items[first] := same ▸ List.getElem?_eq_getElem high
  exact Nat.ne_of_lt before (unique first second _ (List.getElem?_eq_getElem low) again)

/-- A use comes before another one: in an earlier instruction, or as an earlier operand. -/
def UseSite.Before (first second : UseSite) : Prop :=
  first.inst.index < second.inst.index
    ∨ (first.inst = second.inst ∧ first.operand < second.operand)

namespace Function

variable {func : Function}

theorem value_eq_ok_iff {id : ValueId} {value : Value}
    : func.value id = .ok value ↔ func.values[id.index]? = some value := by
  unfold Function.value
  cases func.values[id.index]? <;> simp

theorem inst_eq_ok_iff {id : InstId} {inst : Inst}
    : func.inst id = .ok inst ↔ func.insts[id.index]? = some inst := by
  unfold Function.inst
  cases func.insts[id.index]? <;> simp

/-- No instruction has two results. -/
def OneResult (func : Function) : Prop :=
  ∀ ⦃id other inst ty otherTy⦄, func.value id = .ok (.result inst ty)
    → func.value other = .ok (.result inst otherTy) → id = other

theorem resultOf_eq (one : func.OneResult) {id : ValueId} {inst : InstId} {ty : Ty}
    (found : func.value id = .ok (.result inst ty))
    : func.resultOf inst = some id := by
  have present := value_eq_ok_iff.mp found
  unfold resultOf
  cases first : func.values.findIdx? fun value => value.inst? == some inst with
  | none =>
      have absent := List.findIdx?_eq_none_iff.mp first _ (List.mem_of_getElem? present)
      simp [Value.inst?] at absent
  | some index =>
      obtain ⟨bound, matching, _⟩ := List.findIdx?_eq_some_iff_getElem.mp first
      cases firstValue : func.values[index] with
      | result firstInst firstTy =>
          have same : firstInst = inst := by simpa [firstValue, Value.inst?] using matching
          subst same
          have foundFirst : func.value ⟨index⟩ = .ok (.result firstInst firstTy) :=
            value_eq_ok_iff.mpr (List.getElem?_eq_some_iff.mpr ⟨bound, firstValue⟩)
          exact congrArg some (one foundFirst found)
      | argument _ _ => simp [firstValue, Value.inst?] at matching
      | constant _ => simp [firstValue, Value.inst?] at matching

/-- The uses of a value are the operands that are the value. -/
theorem mem_uses {value : ValueId} {site : UseSite}
    : site ∈ func.uses value
      ↔ ∃ op, func.inst site.inst = .ok op ∧ op.operands[site.operand]? = some value := by
  simp only [uses, List.mem_flatMap, List.mem_filterMap, Prod.exists, List.mem_zipIdx_iff_getElem?,
    inst_eq_ok_iff]
  constructor
  · rintro ⟨op, index, found, operand, position, stands, test⟩
    split at test
    · rename_i same
      cases test
      exact ⟨op, found, same ▸ stands⟩
    · cases test
  · rintro ⟨op, found, stands⟩
    exact ⟨op, _, found, value, _, stands, by simp⟩

/-- The uses of a value are found in order. -/
theorem uses_pairwise (func : Function) (value : ValueId)
    : (func.uses value).Pairwise UseSite.Before := by
  rw [uses, List.pairwise_flatMap]
  constructor
  · intro entry _
    refine List.pairwise_filterMap.mpr ((pairwise_zipIdx _).imp ?_)
    intro first second before site found other foundOther
    simp only [Option.ite_none_right_eq_some, Option.some.injEq] at found foundOther
    rw [← found.2, ← foundOther.2]
    exact Or.inr ⟨rfl, before⟩
  · refine (pairwise_zipIdx _).imp ?_
    intro first second before site member other memberOther
    obtain ⟨_, _, found⟩ := List.mem_filterMap.mp member
    obtain ⟨_, _, foundOther⟩ := List.mem_filterMap.mp memberOther
    simp only [Option.ite_none_right_eq_some, Option.some.injEq] at found foundOther
    rw [← found.2, ← foundOther.2]
    exact Or.inl before

theorem exists_inst_iff {id : InstId}
    : (∃ inst, func.inst id = .ok inst) ↔ id.index < func.insts.length := by
  simp only [inst_eq_ok_iff]
  constructor
  · rintro ⟨inst, found⟩
    exact (List.getElem?_eq_some_iff.mp found).1
  · intro bound
    exact ⟨_, List.getElem?_eq_getElem bound⟩

theorem mem_instIds {id : InstId} : id ∈ func.instIds ↔ ∃ inst, func.inst id = .ok inst := by
  rw [exists_inst_iff, instIds, List.mem_map]
  constructor
  · rintro ⟨number, bound, rfl⟩
    exact List.mem_range.mp bound
  · intro bound
    exact ⟨id.index, List.mem_range.mpr bound, rfl⟩

theorem instIds_nodup (func : Function) : func.instIds.Nodup :=
  List.nodup_range.map fun _ _ same => InstId.mk.inj same

/-- A result leads back to the value that it is. -/
theorem exists_result {id : ValueId} {inst : InstId} (result : func.resultOf inst = some id)
    : ∃ ty, func.value id = .ok (.result inst ty) := by
  obtain ⟨index, first, rfl⟩ := Option.map_eq_some_iff.mp result
  obtain ⟨bound, matching, _⟩ := List.findIdx?_eq_some_iff_getElem.mp first
  cases value : func.values[index] with
  | result other ty =>
      have same : other = inst := by simpa [value, Value.inst?] using matching
      subst same
      exact ⟨ty, value_eq_ok_iff.mpr (List.getElem?_eq_some_iff.mpr ⟨bound, value⟩)⟩
  | argument _ _ => simp [value, Value.inst?] at matching
  | constant _ => simp [value, Value.inst?] at matching

end Function

-----------------------------------------------------------------------------------------
-- Symbols
-----------------------------------------------------------------------------------------

/-- Where no key comes twice, a search finds what has the key. -/
theorem findIdx?_eq_some_iff_of_nodup {α : Type} {items : List α} {key : α → String}
    (distinct : (items.map key).Nodup) {name : String} {index : Nat}
    : items.findIdx? (fun item => key item == name) = some index
      ↔ ∃ item, items[index]? = some item ∧ key item = name := by
  constructor
  · intro first
    obtain ⟨bound, matching, _⟩ := List.findIdx?_eq_some_iff_getElem.mp first
    exact ⟨items[index], List.getElem?_eq_getElem bound, beq_iff_eq.mp matching⟩
  · rintro ⟨item, found, same⟩
    obtain ⟨bound, rfl⟩ := List.getElem?_eq_some_iff.mp found
    refine List.findIdx?_eq_some_iff_getElem.mpr ⟨bound, beq_iff_eq.mpr same, ?_⟩
    intro earlier before matching
    have apart := List.pairwise_iff_getElem.mp (List.pairwise_map.mp distinct)
    exact apart earlier index (Nat.lt_trans before bound) bound before
      ((beq_iff_eq.mp matching).trans same.symm)

namespace Module

variable {unit : Module}

theorem function_eq_ok_iff {id : FunctionId} {func : Function}
    : unit.function id = .ok func ↔ unit.functions[id.index]? = some func := by
  unfold function
  cases unit.functions[id.index]? <;> simp

theorem aliasAt_eq_ok_iff {id : AliasId} {link : Alias}
    : unit.aliasAt id = .ok link ↔ unit.aliases[id.index]? = some link := by
  unfold aliasAt
  cases unit.aliases[id.index]? <;> simp

theorem mem_of_function {id : FunctionId} {func : Function}
    (found : unit.function id = .ok func)
    : func ∈ unit.functions :=
  List.mem_of_getElem? (function_eq_ok_iff.mp found)

theorem mem_functionIds {id : FunctionId} {func : Function} (found : unit.function id = .ok func)
    : id ∈ unit.functionIds := by
  have bound := (List.getElem?_eq_some_iff.mp (function_eq_ok_iff.mp found)).1
  exact List.mem_map.mpr ⟨id.index, List.mem_range.mpr bound, rfl⟩

theorem mem_aliasIds {id : AliasId} {link : Alias} (found : unit.aliasAt id = .ok link)
    : id ∈ unit.aliasIds := by
  have bound := (List.getElem?_eq_some_iff.mp (aliasAt_eq_ok_iff.mp found)).1
  exact List.mem_map.mpr ⟨id.index, List.mem_range.mpr bound, rfl⟩

theorem mem_globals_of_function {id : FunctionId} {func : Function}
    (found : unit.function id = .ok func)
    : .function id ∈ unit.globals :=
  List.mem_append_left _ (List.mem_map_of_mem (mem_functionIds found))

theorem mem_globals_of_aliasAt {id : AliasId} {link : Alias} (found : unit.aliasAt id = .ok link)
    : .aliased id ∈ unit.globals :=
  List.mem_append_right _ (List.mem_map_of_mem (mem_aliasIds found))

theorem mem_globals_of_returnTy {symbol : Global} {ty : Ty}
    (typed : unit.returnTy symbol = .ok ty)
    : symbol ∈ unit.globals := by
  cases symbol with
  | function id =>
      obtain ⟨func, found, _⟩ := exists_of_bind_eq_ok typed
      exact mem_globals_of_function found
  | aliased id =>
      obtain ⟨link, found, _⟩ := exists_of_bind_eq_ok typed
      exact mem_globals_of_aliasAt found

theorem globals_subset {next : Module}
    (functions : unit.functions.length ≤ next.functions.length)
    (aliases : unit.aliases.length ≤ next.aliases.length)
    : unit.globals ⊆ next.globals := by
  intro symbol member
  simp only [globals, functionIds, aliasIds, List.map_map, List.mem_append, List.mem_map,
    List.mem_range, Function.comp_apply] at member ⊢
  rcases member with ⟨number, bound, rfl⟩ | ⟨number, bound, rfl⟩
  · exact Or.inl ⟨number, Nat.lt_of_lt_of_le bound functions, rfl⟩
  · exact Or.inr ⟨number, Nat.lt_of_lt_of_le bound aliases, rfl⟩

/-- The names of the symbols. -/
def names (unit : Module) : List String :=
  unit.functions.map (·.sig.name) ++ unit.aliases.map (·.name)

theorem nameOf_function_iff {id : FunctionId} {name : String}
    : unit.nameOf (.function id) = .ok name
      ↔ ∃ func, unit.functions[id.index]? = some func ∧ func.sig.name = name := by
  constructor
  · intro named
    obtain ⟨func, found, named⟩ := exists_of_bind_eq_ok named
    cases named
    exact ⟨func, function_eq_ok_iff.mp found, rfl⟩
  · rintro ⟨func, found, rfl⟩
    rw [nameOf, function_eq_ok_iff.mpr found, ok_bind, pure_eq_ok]

theorem nameOf_aliased_iff {id : AliasId} {name : String}
    : unit.nameOf (.aliased id) = .ok name
      ↔ ∃ link, unit.aliases[id.index]? = some link ∧ link.name = name := by
  constructor
  · intro named
    obtain ⟨link, found, named⟩ := exists_of_bind_eq_ok named
    cases named
    exact ⟨link, aliasAt_eq_ok_iff.mp found, rfl⟩
  · rintro ⟨link, found, rfl⟩
    rw [nameOf, aliasAt_eq_ok_iff.mpr found, ok_bind, pure_eq_ok]

/-- A name leads to the symbol that has it. -/
theorem lookup_eq_some_iff (distinct : unit.names.Nodup) {name : String} {symbol : Global}
    : unit.lookup name = some symbol ↔ unit.nameOf symbol = .ok name := by
  obtain ⟨functions, aliases, apart⟩ := List.nodup_append.mp distinct
  rw [lookup]
  cases first : unit.functions.findIdx? fun func => func.sig.name == name with
  | some index =>
      have found := (findIdx?_eq_some_iff_of_nodup functions).mp first
      simp only [Option.some.injEq]
      constructor
      · rintro rfl
        exact nameOf_function_iff.mpr found
      · intro named
        cases symbol with
        | function id =>
            have again := (findIdx?_eq_some_iff_of_nodup functions).mpr
              (nameOf_function_iff.mp named)
            cases first.symm.trans again
            rfl
        | aliased id =>
            obtain ⟨func, foundFunc, same⟩ := found
            obtain ⟨link, foundLink, sameLink⟩ := nameOf_aliased_iff.mp named
            exact absurd (same.trans sameLink.symm)
              (apart _ (List.mem_map_of_mem (List.mem_of_getElem? foundFunc)) _
                (List.mem_map_of_mem (List.mem_of_getElem? foundLink)))
  | none =>
      simp only
      cases symbol with
      | function id =>
          refine iff_of_false (by simp) ?_
          intro named
          have again := (findIdx?_eq_some_iff_of_nodup functions).mpr
            (nameOf_function_iff.mp named)
          cases first.symm.trans again
      | aliased id =>
          rw [nameOf_aliased_iff, ← findIdx?_eq_some_iff_of_nodup aliases]
          simp only [Option.map_eq_some_iff, Global.aliased.injEq]
          constructor
          · rintro ⟨index, found, rfl⟩
            exact found
          · intro found
            exact ⟨id.index, found, rfl⟩

end Module

end StackBounds
