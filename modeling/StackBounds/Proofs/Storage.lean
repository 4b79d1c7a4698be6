import StackBounds.Proofs.Building
import StackBounds.Proofs.Tables

/-! Stored functions. However a function grows, its tables describe its values, instructions and
blocks: so reading a table finds what a search through the function finds.
-/

namespace StackBounds

theorem getElem?_concat_eq_some_iff {α : Type} {items : List α} {last item : α} {index : Nat}
    : (items ++ [last])[index]? = some item
      ↔ items[index]? = some item ∨ (index = items.length ∧ last = item) := by
  rcases Nat.lt_trichotomy index items.length with before | rfl | after
  · simp [List.getElem?_append_left before, Nat.ne_of_lt before]
  · simp
  · have beyond : (items ++ [last]).length ≤ index := by
      rw [List.length_append, List.length_singleton]
      exact after
    rw [List.getElem?_eq_none beyond, List.getElem?_eq_none (Nat.le_of_lt after)]
    simp [Nat.ne_of_gt after]

namespace StoredFunction

variable {stored : StoredFunction} {id : InstId} {value : ValueId} {inst : Inst} {block : BlockId}

-----------------------------------------------------------------------------------------
-- Reading after growing
-----------------------------------------------------------------------------------------

theorem mem_keys_foldl_addUser {operands : List ValueId} {users : Table ValueId (Table InstId Unit)}
    {other : InstId}
    : other ∈ (((operands.foldl (addUser id) users).get? value).getD .empty).keys
      ↔ other ∈ ((users.get? value).getD .empty).keys ∨ (other = id ∧ value ∈ operands) := by
  induction operands generalizing users with
  | nil => simp
  | cons operand rest ih =>
      rw [List.foldl_cons, ih, List.mem_cons]
      by_cases same : value = operand
      · subst same
        rw [addUser, Table.get?_insert_self, Option.getD_some, Table.mem_keys_insert_iff]
        tauto
      · rw [addUser, Table.get?_insert_of_ne _ same]
        simp [same]

theorem mem_usersOf_withInst {other : InstId}
    : other ∈ (stored.withInst inst block).usersOf value
      ↔ other ∈ stored.usersOf value
        ∨ (other = ⟨stored.insts.length⟩ ∧ value ∈ inst.operands) :=
  mem_keys_foldl_addUser

theorem operandsOf_withInst (stored : StoredFunction) (inst : Inst) (block : BlockId) (id : InstId)
    : (stored.withInst inst block).operandsOf id
      = if id = ⟨stored.insts.length⟩ then inst.operands else stored.operandsOf id := by
  obtain ⟨index⟩ := id
  simp only [operandsOf, withInst, makeInst, InstId.mk.injEq]
  split
  · simp [*]
  · rcases Nat.lt_or_ge index stored.insts.length with before | after
    · rw [List.getElem?_append_left before]
    · have beyond : (stored.insts ++ [inst]).length ≤ index := by
        rw [List.length_append, List.length_singleton]
        omega
      rw [List.getElem?_eq_none beyond, List.getElem?_eq_none after]

theorem instsOf_withInst (stored : StoredFunction) (inst : Inst) (block other : BlockId)
    : (stored.withInst inst block).instsOf other
      = if other = block then stored.instsOf block ++ [⟨stored.insts.length⟩]
        else stored.instsOf other := by
  simp only [instsOf, withInst]
  split
  · rename_i same
    rw [same, Table.get?_insert_self, Option.getD_some]
  · rename_i differ
    rw [Table.get?_insert_of_ne _ differ]

theorem blockOf_withInst (stored : StoredFunction) (inst : Inst) (block : BlockId) (id : InstId)
    : (stored.withInst inst block).blockOf id
      = if id = ⟨stored.insts.length⟩ then some block else stored.blockOf id := by
  simp only [blockOf, withInst]
  split
  · rename_i same
    rw [same, Table.get?_insert_self]
  · rename_i differ
    rw [Table.get?_insert_of_ne _ differ]

theorem resultOf_withResult (stored : StoredFunction) (id : InstId) (ty : Ty) (other : InstId)
    : (stored.withResult id ty).resultOf other
      = if other = id then some ⟨stored.values.length⟩ else stored.resultOf other := by
  simp only [resultOf, withResult]
  split
  · rename_i same
    rw [same, Table.get?_insert_self]
  · rename_i differ
    rw [Table.get?_insert_of_ne _ differ]

-----------------------------------------------------------------------------------------
-- What builders keep
-----------------------------------------------------------------------------------------

/-- The tables describe the function. The blocks are placed in the order in which they are made;
every instruction is entered in one block, and once, and that block is its place; the readers of a
value are the instructions that have it as an operand; the result of an instruction is the value
that says so; and the value of a constant is the one that holds it.
-/
structure Consistent (stored : StoredFunction) : Prop where
  blocks : stored.blocks = (List.range stored.blockCount).map BlockId.mk
  listed : ∀ block, block ∉ stored.blocks → stored.instsOf block = []
  once : ∀ block, (stored.instsOf block).Nodup
  standing : ∀ id block, stored.blockOf id = some block ↔ id ∈ stored.instsOf block
  placed : ∀ id, (∃ block, stored.blockOf id = some block) ↔ id.index < stored.insts.length
  users : ∀ value id, id ∈ stored.usersOf value ↔ value ∈ stored.operandsOf id
  results : ∀ id value, stored.resultOf id = some value
    ↔ ∃ ty, stored.values[value.index]? = some (.result id ty)
  made : ∀ id value, stored.resultOf id = some value → id.index < stored.insts.length
  immediates : ∀ imm value, stored.immediate? imm = some value
    ↔ stored.values[value.index]? = some (.constant imm)

theorem consistent_ofSignature (sig : Signature) : (ofSignature sig).Consistent := by
  have arguments {index : Nat} {value : Value}
      (found : (ofSignature sig).values[index]? = some value)
      : value.inst? = none ∧ value.immediate? = none := by
    obtain ⟨_, _, rfl⟩ := List.mem_map.mp (List.mem_of_getElem? found)
    exact ⟨rfl, rfl⟩
  refine ⟨rfl, fun _ _ => rfl, fun _ => List.nodup_nil, fun id block => ?_, fun id => ?_,
    fun value id => ?_, fun id value => ?_, fun id value found => ?_, fun imm value => ?_⟩
  · exact iff_of_false (fun found => by cases found) List.not_mem_nil
  · exact iff_of_false (fun ⟨_, found⟩ => by cases found) (Nat.not_lt_zero _)
  · exact iff_of_false List.not_mem_nil List.not_mem_nil
  · refine iff_of_false (fun found => by cases found) ?_
    rintro ⟨ty, found⟩
    cases (arguments found).1
  · cases found
  · refine iff_of_false (fun found => by cases found) ?_
    intro found
    cases (arguments found).2

/-- Only placed blocks have instructions. -/
theorem Consistent.mem_blocks (consistent : stored.Consistent) (inside : id ∈ stored.instsOf block)
    : block ∈ stored.blocks := by
  by_contra absent
  rw [consistent.listed block absent] at inside
  cases inside

theorem Consistent.withBlock (consistent : stored.Consistent) : stored.withBlock.Consistent := by
  refine { consistent with blocks := ?_, listed := ?_ }
  · simp [StoredFunction.withBlock, consistent.blocks, List.range_succ]
  · intro block absent
    refine consistent.listed block fun old => absent (List.mem_append_left _ old)

/-- The next instruction does not stand anywhere. -/
theorem Consistent.next_unplaced (consistent : stored.Consistent) (block : BlockId)
    : ⟨stored.insts.length⟩ ∉ stored.instsOf block := by
  intro inside
  have standing := (consistent.standing _ _).mpr inside
  exact Nat.lt_irrefl _ ((consistent.placed _).mp ⟨block, standing⟩)

theorem Consistent.next_reads_nothing (consistent : stored.Consistent) (value : ValueId)
    : ⟨stored.insts.length⟩ ∉ stored.usersOf value := by
  intro reads
  have operand := (consistent.users _ _).mp reads
  simp [operandsOf] at operand

theorem Consistent.withInst (consistent : stored.Consistent) (inst : Inst)
    (placed : block ∈ stored.blocks)
    : (stored.withInst inst block).Consistent := by
  have length : (stored.withInst inst block).insts.length = stored.insts.length + 1 := by
    simp [StoredFunction.withInst, makeInst]
  refine {
    blocks := consistent.blocks
    listed := ?_
    once := ?_
    standing := ?_
    placed := ?_
    users := ?_
    results := consistent.results
    made := ?_
    immediates := consistent.immediates
  }
  · intro other absent
    have differ : other ≠ block := fun same => absent (same ▸ placed)
    rw [instsOf_withInst, if_neg differ]
    exact consistent.listed other absent
  · intro other
    rw [instsOf_withInst]
    split
    · refine List.nodup_append.mpr ⟨consistent.once block, List.nodup_singleton _, ?_⟩
      rintro old inside _ new rfl
      exact consistent.next_unplaced block (List.mem_singleton.mp new ▸ inside)
    · exact consistent.once other
  · intro id other
    rw [blockOf_withInst, instsOf_withInst]
    by_cases new : id = ⟨stored.insts.length⟩
    · subst new
      have absent := consistent.next_unplaced
      by_cases same : other = block
      · simp [same]
      · simpa [same, Ne.symm same] using absent other
    · rw [if_neg new, consistent.standing]
      split
      · rename_i same
        simp [same, new]
      · rfl
  · intro id
    rw [blockOf_withInst, length]
    split
    · rename_i new
      simp [new]
    · rename_i old
      have differ : id.index ≠ stored.insts.length := fun same => old (congrArg InstId.mk same)
      rw [consistent.placed]
      omega
  · intro value id
    rw [mem_usersOf_withInst, operandsOf_withInst]
    split
    · rename_i new
      subst new
      simp [consistent.next_reads_nothing value]
    · rename_i old
      simp [old, consistent.users value id]
  · intro id value result
    rw [length]
    exact Nat.lt_succ_of_lt (consistent.made id value result)

theorem Consistent.withResult (consistent : stored.Consistent) {id : InstId} (ty : Ty)
    (first : stored.resultOf id = none) (made : id.index < stored.insts.length)
    : (stored.withResult id ty).Consistent := by
  have values : (stored.withResult id ty).values = stored.values ++ [.result id ty] := rfl
  refine { consistent with results := ?_, made := ?_, immediates := ?_ }
  · intro other value
    rw [resultOf_withResult, values]
    simp only [getElem?_concat_eq_some_iff, Value.result.injEq, exists_or, ← consistent.results]
    split
    · rename_i same
      subst same
      obtain ⟨index⟩ := value
      simp [first, eq_comm]
    · rename_i differ
      simp [Ne.symm differ]
  · intro other value
    rw [resultOf_withResult]
    split
    · rename_i same
      exact fun _ => same ▸ made
    · exact consistent.made other value
  · intro imm value
    rw [values, getElem?_concat_eq_some_iff, ← consistent.immediates]
    simp [immediate?, StoredFunction.withResult, makeValue]

theorem Consistent.makeConstant (consistent : stored.Consistent) (imm : Immediate)
    : (stored.makeConstant imm).1.Consistent := by
  unfold StoredFunction.makeConstant
  split
  · exact consistent
  · rename_i absent
    refine { consistent with results := ?_, immediates := ?_ }
    · intro id value
      simp only [makeValue, getElem?_concat_eq_some_iff, reduceCtorEq, and_false, or_false]
      exact consistent.results id value
    · intro other value
      simp only [makeValue, getElem?_concat_eq_some_iff, Value.constant.injEq,
        ← consistent.immediates]
      simp only [immediate?, List.lookup_cons]
      split
      · rename_i same
        obtain rfl : other = imm := beq_iff_eq.mp same
        obtain ⟨index⟩ := value
        have unheld : stored.immediates.lookup other = none := absent
        simp [unheld, eq_comm]
      · rename_i differ
        have other_ne : imm ≠ other := by
          rintro rfl
          simp at differ
        simp [other_ne]

/-- Growing keeps the tables consistent. -/
theorem Consistent.of_grows {appends : Inst → Prop} {changed : StoredFunction}
    (grows : stored.Grows appends changed) (consistent : stored.Consistent)
    : changed.Consistent := by
  cases grows with
  | block => exact consistent.withBlock
  | constant imm => exact consistent.makeConstant imm
  | inst _ placed => exact consistent.withInst _ placed
  | result ty _ placed first =>
      refine (consistent.withInst _ placed).withResult ty first ?_
      simp [StoredFunction.withInst, makeInst]

-----------------------------------------------------------------------------------------
-- Agreement with searches
-----------------------------------------------------------------------------------------

/-- Reading a table finds what a search through the function finds. -/
structure Agrees (stored : StoredFunction) : Prop where
  users : ∀ value, stored.usersOf value = stored.function.users value
  uses : ∀ value, stored.uses value = stored.function.uses value
  results : ∀ id, stored.resultOf id = stored.function.resultOf id
  lists : ∀ block, stored.instsOf block = stored.function.instsOf block
  places : ∀ id, stored.blockOf id = stored.function.blockOf id

theorem usersOf_ascending (stored : StoredFunction) (value : ValueId)
    : (stored.usersOf value).Pairwise fun first second => first.index < second.index := by
  have keys := ((stored.users.get? value).getD .empty).ascending
  exact List.pairwise_map.mpr (keys.imp fun before => Nat.compare_eq_lt.mp before)

theorem users_ascending (func : Function) (value : ValueId)
    : (func.users value).Pairwise fun first second => first.index < second.index := by
  refine List.pairwise_filterMap.mpr ((pairwise_zipIdx _).imp ?_)
  intro first second before id found other foundOther
  simp only [Option.ite_none_right_eq_some, Option.some.injEq] at found foundOther
  rw [← found.2, ← foundOther.2]
  exact before

theorem mem_users {func : Function} {id : InstId}
    : id ∈ func.users value
      ↔ ∃ inst, func.insts[id.index]? = some inst ∧ value ∈ inst.operands := by
  simp only [Function.users, List.mem_filterMap, Prod.exists, List.mem_zipIdx_iff_getElem?,
    List.contains_iff_mem, Option.ite_none_right_eq_some, Option.some.injEq]
  constructor
  · rintro ⟨inst, index, found, reads, rfl⟩
    exact ⟨inst, found, reads⟩
  · rintro ⟨inst, found, reads⟩
    exact ⟨inst, id.index, found, reads, rfl⟩

theorem mem_operandsOf
    : value ∈ stored.operandsOf id
      ↔ ∃ inst, stored.insts[id.index]? = some inst ∧ value ∈ inst.operands := by
  unfold operandsOf
  cases stored.insts[id.index]? <;> simp

/-- Two ascending lists of the same instructions are the same one. -/
theorem Consistent.usersOf_eq (consistent : stored.Consistent) (value : ValueId)
    : stored.usersOf value = stored.function.users value := by
  have apart {insts : List InstId}
      (ascending : insts.Pairwise fun first second => first.index < second.index)
      : insts.Nodup :=
    ascending.imp fun less same => Nat.ne_of_lt less (congrArg InstId.index same)
  have table := stored.usersOf_ascending value
  have search := users_ascending stored.function value
  refine List.Perm.eq_of_pairwise (fun first second _ _ less greater => ?_) table search
    ((List.perm_ext_iff_of_nodup (apart table) (apart search)).mpr fun id => ?_)
  · exact absurd less (Nat.lt_asymm greater)
  · rw [consistent.users, mem_operandsOf, mem_users]
    rfl

/-- What is left out of a list contributes nothing. -/
theorem flatMap_filterMap {α β γ : Type} {items : List α} {select : α → Option β}
    {found : β → List γ} {all : α → List γ}
    (same : ∀ item ∈ items, ((select item).map found).getD [] = all item)
    : (items.filterMap select).flatMap found = items.flatMap all := by
  induction items with
  | nil => rfl
  | cons item rest ih =>
      have here := same item List.mem_cons_self
      have later := ih fun other member => same other (List.mem_cons_of_mem _ member)
      rw [List.filterMap_cons, List.flatMap_cons, ← later, ← here]
      cases select item <;> rfl

theorem Consistent.uses_eq (consistent : stored.Consistent) (value : ValueId)
    : stored.uses value = stored.function.uses value := by
  rw [uses, consistent.usersOf_eq, Function.users, Function.uses]
  refine flatMap_filterMap ?_
  rintro ⟨inst, index⟩ member
  have found : stored.insts[index]? = some inst := List.mem_zipIdx_iff_getElem?.mp member
  by_cases reads : value ∈ inst.operands
  · simp [reads, operandsOf, found]
  · have unread : inst.operands.contains value = false := by simpa using reads
    simp only [unread, Bool.false_eq_true, ↓reduceIte, Option.map_none, Option.getD_none]
    refine (List.filterMap_eq_nil_iff.mpr ?_).symm
    rintro ⟨operand, position⟩ stands
    have present := List.mem_of_getElem? (List.mem_zipIdx_iff_getElem?.mp stands)
    exact if_neg fun same : operand = value => reads (same ▸ present)

theorem mem_layout {placed : PlacedBlock}
    : placed ∈ stored.function.layout
      ↔ placed.id ∈ stored.blocks ∧ placed.insts = stored.instsOf placed.id := by
  rw [function, List.mem_map]
  constructor
  · rintro ⟨block, member, rfl⟩
    exact ⟨member, rfl⟩
  · rintro ⟨member, insts⟩
    exact ⟨placed.id, member, by rw [← insts]⟩

theorem Consistent.instsOf_eq (consistent : stored.Consistent) (block : BlockId)
    : stored.instsOf block = stored.function.instsOf block := by
  unfold Function.instsOf
  cases first : stored.function.layout.find? fun placed => placed.id == block with
  | none =>
      refine consistent.listed block fun member => ?_
      have listed : ⟨block, stored.instsOf block⟩ ∈ stored.function.layout :=
        mem_layout.mpr ⟨member, rfl⟩
      simpa using List.find?_eq_none.mp first _ listed
  | some placed =>
      have same : placed.id = block := by simpa using List.find?_some first
      exact same ▸ (mem_layout.mp (List.mem_of_find?_eq_some first)).2.symm

/-- The first block that holds an instruction is the only one. -/
theorem Consistent.blockOf_eq (consistent : stored.Consistent) (id : InstId)
    : stored.blockOf id = stored.function.blockOf id := by
  unfold Function.blockOf
  cases first : stored.function.layout.find? fun placed => placed.insts.contains id with
  | none =>
      refine Option.eq_none_iff_forall_ne_some.mpr fun block stands => ?_
      have inside := (consistent.standing id block).mp stands
      have listed : ⟨block, stored.instsOf block⟩ ∈ stored.function.layout :=
        mem_layout.mpr ⟨consistent.mem_blocks inside, rfl⟩
      exact List.find?_eq_none.mp first _ listed (List.contains_iff_mem.mpr inside)
  | some placed =>
      have insts := (mem_layout.mp (List.mem_of_find?_eq_some first)).2
      have inside : id ∈ placed.insts := by simpa using List.find?_some first
      exact (consistent.standing id placed.id).mpr (insts ▸ inside)

theorem Consistent.oneResult (consistent : stored.Consistent) : stored.function.OneResult := by
  intro id other inst ty otherTy found foundOther
  have result := (consistent.results inst id).mpr ⟨ty, Function.value_eq_ok_iff.mp found⟩
  have again := (consistent.results inst other).mpr
    ⟨otherTy, Function.value_eq_ok_iff.mp foundOther⟩
  exact Option.some.inj (result.symm.trans again)

theorem Consistent.resultOf_eq (consistent : stored.Consistent) (id : InstId)
    : stored.resultOf id = stored.function.resultOf id := by
  refine Option.ext fun value => ?_
  rw [consistent.results]
  constructor
  · rintro ⟨ty, found⟩
    exact Function.resultOf_eq consistent.oneResult (Function.value_eq_ok_iff.mpr found)
  · intro result
    obtain ⟨ty, found⟩ := Function.exists_result result
    exact ⟨ty, Function.value_eq_ok_iff.mp found⟩

theorem Consistent.agrees (consistent : stored.Consistent) : stored.Agrees where
  users := consistent.usersOf_eq
  uses := consistent.uses_eq
  results := consistent.resultOf_eq
  lists := consistent.instsOf_eq
  places := consistent.blockOf_eq

end StoredFunction

-----------------------------------------------------------------------------------------
-- Built modules
-----------------------------------------------------------------------------------------

/-- The tables of every function that commands make are consistent. -/
theorem ModuleBuilder.consistent_of_obey {name : String} {target : Target}
    {commands : List Module.Command} {builder : ModuleBuilder}
    (obeyed : (empty name target).obey commands = .ok builder)
    : ∀ stored ∈ builder.functions, stored.Consistent :=
  forall_functions StoredFunction.consistent_ofSignature
    (fun _ _ _ grows consistent => consistent.of_grows grows)
    (changes_of_obey False False.elim obeyed) fun _ member => by cases member

/-- The functions of a built module were stored with consistent tables. -/
theorem Module.exists_stored_of_build {name : String} {target : Target} {commands : List Command}
    {unit : Module} (built : build name target commands = .ok unit) {func : Function}
    (member : func ∈ unit.functions)
    : ∃ stored : StoredFunction, stored.Consistent ∧ stored.function = func := by
  obtain ⟨builder, obeyed, rfl⟩ := exists_of_build built
  obtain ⟨stored, inside, same⟩ := List.mem_map.mp member
  exact ⟨stored, ModuleBuilder.consistent_of_obey obeyed stored inside, same⟩

/-- In a built module, no instruction has two results. -/
theorem Module.Built.oneResult {unit : Module} (built : unit.Built)
    : ∀ func ∈ unit.functions, func.OneResult := by
  obtain ⟨name, target, commands, built⟩ := built
  intro func member
  obtain ⟨stored, consistent, rfl⟩ := exists_stored_of_build built member
  exact consistent.oneResult

end StackBounds
