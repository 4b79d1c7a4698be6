import StackBounds.Proofs.Storage

/-! Modules that builders make are coherent. Whatever is done with builders, in every function the
tables find what there is to find: each instruction stands once in one block and has at most one
result, no constant is held twice and uses are listed in order; and in the module a name leads to
the one symbol that has it.
-/

namespace StackBounds

open Relation (ReflTransGen)

-----------------------------------------------------------------------------------------
-- Functions
-----------------------------------------------------------------------------------------

namespace StoredFunction

variable {stored : StoredFunction}

/-- The tables of a function fit together. The uses of a value are the operands that are the value,
in order; an instruction stands in one block, and once; the result of an instruction is the value
that says so; the value of a constant is the one that holds it, and no other one does; and every
block is placed once.
-/
structure Coherent (stored : StoredFunction) : Prop where
  uses : ∀ value site, site ∈ stored.uses value
    ↔ ∃ inst, stored.function.inst site.inst = .ok inst
      ∧ inst.operands[site.operand]? = some value
  ordered : ∀ value, (stored.uses value).Pairwise UseSite.Before
  placed : ∀ id, (∃ inst, stored.function.inst id = .ok inst)
    ↔ ∃ block ∈ stored.blocks, id ∈ stored.instsOf block
  once : ∀ block, (stored.instsOf block).Nodup
  standing : ∀ id block, stored.blockOf id = some block ↔ id ∈ stored.instsOf block
  results : ∀ inst id, stored.resultOf inst = some id
    ↔ ∃ ty, stored.function.value id = .ok (.result inst ty)
  immediates : ∀ imm id, stored.immediate? imm = some id
    ↔ stored.function.value id = .ok (.constant imm)
  constants : ∀ id other imm, stored.function.value id = .ok (.constant imm)
    → stored.function.value other = .ok (.constant imm) → id = other
  blocks : stored.blocks.Nodup ∧ ∀ block, block ∈ stored.blocks ↔ block.index < stored.blockCount

theorem Consistent.coherent (consistent : stored.Consistent) : stored.Coherent where
  uses value site := by
    rw [consistent.uses_eq]
    exact Function.mem_uses
  ordered value := by
    rw [consistent.uses_eq]
    exact stored.function.uses_pairwise value
  placed id := by
    rw [Function.exists_inst_iff]
    refine (consistent.placed id).symm.trans ?_
    constructor
    · rintro ⟨block, stands⟩
      have inside := (consistent.standing id block).mp stands
      exact ⟨block, consistent.mem_blocks inside, inside⟩
    · rintro ⟨block, _, inside⟩
      exact ⟨block, (consistent.standing id block).mpr inside⟩
  once := consistent.once
  standing := consistent.standing
  results inst id := by
    simp only [consistent.results, Function.value_eq_ok_iff]
    rfl
  immediates imm id := by
    rw [consistent.immediates, Function.value_eq_ok_iff]
    rfl
  constants id other imm found foundOther := by
    have holds := (consistent.immediates imm id).mpr (Function.value_eq_ok_iff.mp found)
    have again := (consistent.immediates imm other).mpr (Function.value_eq_ok_iff.mp foundOther)
    exact Option.some.inj (holds.symm.trans again)
  blocks := by
    rw [consistent.blocks]
    refine ⟨List.nodup_range.map fun _ _ same => BlockId.mk.inj same, fun block => ?_⟩
    rw [List.mem_map]
    constructor
    · rintro ⟨number, bound, rfl⟩
      exact List.mem_range.mp bound
    · intro bound
      exact ⟨block.index, List.mem_range.mpr bound, rfl⟩

end StoredFunction

-----------------------------------------------------------------------------------------
-- Names
-----------------------------------------------------------------------------------------

namespace ModuleBuilder

variable {builder next : ModuleBuilder} {composed : Prop}

/-- A name is entered for the symbol that has it. -/
def Named (builder : ModuleBuilder) : Prop :=
  ∀ name symbol, builder.lookup name = some symbol ↔ builder.unit.nameOf symbol = .ok name

theorem nameOf_function_iff (id : FunctionId) (name : String)
    : builder.unit.nameOf (.function id) = .ok name
      ↔ (builder.functions.map (·.sig.name))[id.index]? = some name := by
  rw [Module.nameOf_function_iff]
  simp [unit, StoredFunction.function, Option.map_eq_some_iff]

theorem nameOf_aliased_iff (id : AliasId) (name : String)
    : builder.unit.nameOf (.aliased id) = .ok name
      ↔ (builder.aliases.map (·.name))[id.index]? = some name := by
  rw [Module.nameOf_aliased_iff]
  simp [unit, Option.map_eq_some_iff]

/-- Names are the same where functions and aliases have the same ones. -/
theorem nameOf_iff_of_same {symbol : Global} {name : String}
    (functions : next.functions.map (·.sig.name) = builder.functions.map (·.sig.name))
    (aliases : next.aliases.map (·.name) = builder.aliases.map (·.name))
    : next.unit.nameOf symbol = .ok name ↔ builder.unit.nameOf symbol = .ok name := by
  cases symbol with
  | function id => rw [nameOf_function_iff, nameOf_function_iff, functions]
  | aliased id => rw [nameOf_aliased_iff, nameOf_aliased_iff, aliases]

theorem Named.of_same (named : builder.Named)
    (functions : next.functions.map (·.sig.name) = builder.functions.map (·.sig.name))
    (aliases : next.aliases.map (·.name) = builder.aliases.map (·.name))
    (declared : next.declared = builder.declared)
    : next.Named := by
  intro name symbol
  rw [nameOf_iff_of_same functions aliases, ← named, lookup, lookup, declared]

/-- A new name is entered for a new symbol. -/
theorem Named.declare (named : builder.Named) {name : String} {symbol : Global}
    (free : builder.lookup name = none)
    (declared : next.declared = (name, symbol) :: builder.declared)
    (names : ∀ other otherName, next.unit.nameOf other = .ok otherName
      ↔ builder.unit.nameOf other = .ok otherName ∨ (other = symbol ∧ otherName = name))
    : next.Named := by
  intro otherName other
  rw [names, ← named, lookup, declared, List.lookup_cons]
  split
  · rename_i same
    obtain rfl : otherName = name := beq_iff_eq.mp same
    rw [free]
    simp [eq_comm]
  · rename_i differ
    have apart : otherName ≠ name := by
      rintro rfl
      simp at differ
    simp [apart, lookup]

theorem named_empty (name : String) (target : Target) : (empty name target).Named := by
  intro symbolName symbol
  refine iff_of_false (fun found => by cases found) ?_
  cases symbol with
  | function id => simp [nameOf_function_iff, empty]
  | aliased id => simp [nameOf_aliased_iff, empty]

/-- Every change keeps the names entered. -/
theorem Named.of_changes (named : builder.Named) (changes : builder.Changes composed next)
    : next.Named := by
  cases changes with
  | @function sig free =>
      refine named.declare free rfl fun other otherName => ?_
      cases other with
      | function id =>
          obtain ⟨index⟩ := id
          rw [nameOf_function_iff, nameOf_function_iff, List.map_append, List.map_singleton,
            getElem?_concat_eq_some_iff]
          simp [StoredFunction.ofSignature, eq_comm]
      | aliased id => simp [nameOf_aliased_iff]
  | @aliased link free =>
      refine named.declare free rfl fun other otherName => ?_
      cases other with
      | function id => simp [nameOf_function_iff]
      | aliased id =>
          obtain ⟨index⟩ := id
          rw [nameOf_aliased_iff, nameOf_aliased_iff, List.map_append, List.map_singleton,
            getElem?_concat_eq_some_iff]
          simp [eq_comm]
  | redirect found kept =>
      refine named.of_same rfl ?_ rfl
      rw [List.map_set, kept]
      exact set_eq_self (by rw [List.getElem?_map, found]; rfl)
  | code found grows =>
      refine named.of_same ?_ rfl rfl
      rw [setFunction, List.map_set, grows.sig_eq]
      exact set_eq_self (by rw [List.getElem?_map, found]; rfl)

/-- No two symbols have the same name, since a name is entered for one symbol only. -/
theorem Named.apart (named : builder.Named) : builder.unit.names.Nodup := by
  have unique {name : String} {first second : Global} (has : builder.unit.nameOf first = .ok name)
      (hasToo : builder.unit.nameOf second = .ok name)
      : first = second :=
    Option.some.inj (((named name first).mpr has).symm.trans ((named name second).mpr hasToo))
  have functions : builder.unit.functions.map (·.sig.name)
      = builder.functions.map (·.sig.name) := by
    simp [unit, StoredFunction.function]
  rw [Module.names, functions]
  refine List.nodup_append.mpr ⟨nodup_of_getElem?_inj ?_, nodup_of_getElem?_inj ?_, ?_⟩
  · intro first second name has hasToo
    cases unique ((nameOf_function_iff ⟨first⟩ name).mpr has)
      ((nameOf_function_iff ⟨second⟩ name).mpr hasToo)
    rfl
  · intro first second name has hasToo
    cases unique ((nameOf_aliased_iff ⟨first⟩ name).mpr has)
      ((nameOf_aliased_iff ⟨second⟩ name).mpr hasToo)
    rfl
  · rintro name member _ memberToo rfl
    obtain ⟨first, has⟩ := List.mem_iff_getElem?.mp member
    obtain ⟨second, hasToo⟩ := List.mem_iff_getElem?.mp memberToo
    cases unique ((nameOf_function_iff ⟨first⟩ name).mpr has)
      ((nameOf_aliased_iff ⟨second⟩ name).mpr hasToo)

-----------------------------------------------------------------------------------------
-- Coherence
-----------------------------------------------------------------------------------------

/-- The functions of a module are coherent, a name leads to the symbol that has it, and no two
symbols have the same name.
-/
structure Coherent (builder : ModuleBuilder) : Prop where
  functions : ∀ stored ∈ builder.functions, stored.Coherent
  named : ∀ name symbol, builder.lookup name = some symbol ↔ builder.unit.nameOf symbol = .ok name
  apart : builder.unit.names.Nodup

/-- The tables of the functions and the names that are entered agree with searches through the
module.
-/
structure Agrees (builder : ModuleBuilder) : Prop where
  functions : ∀ stored ∈ builder.functions, stored.Agrees
  names : ∀ name, builder.lookup name = builder.unit.lookup name

variable {name : String} {target : Target} {commands : List Module.Command}

theorem named_of_obey (obeyed : (empty name target).obey commands = .ok builder)
    : builder.Named := by
  have changes := changes_of_obey False False.elim obeyed
  clear obeyed
  induction changes with
  | refl => exact named_empty name target
  | tail _ change ih => exact ih.of_changes change

theorem declareFunction_fails_iff (named : builder.Named) (sig : Signature)
    : (∃ error, builder.declareFunction sig = .error error)
      ↔ ∃ symbol, builder.unit.nameOf symbol = .ok sig.name := by
  simp only [← named sig.name, ← Option.isSome_iff_exists, declareFunction]
  split
  · rename_i taken
    exact iff_of_true ⟨_, rfl⟩ taken
  · rename_i free
    refine iff_of_false ?_ free
    rintro ⟨error, never⟩
    cases never

theorem declareAlias_fails_iff (named : builder.Named) (symbolName : String) (linkage : Linkage)
    (aliasee : Global)
    : (∃ error, builder.declareAlias symbolName linkage aliasee = .error error)
      ↔ (∃ symbol, builder.unit.nameOf symbol = .ok symbolName) ∨ linkage = .external := by
  simp only [← named symbolName, ← Option.isSome_iff_exists, declareAlias]
  split
  · rename_i taken
    exact iff_of_true ⟨_, rfl⟩ (Or.inl taken)
  · rename_i free
    split
    · rename_i external
      exact iff_of_true ⟨_, rfl⟩ (Or.inr external)
    · rename_i defined
      refine iff_of_false ?_ (not_or.mpr ⟨free, defined⟩)
      rintro ⟨error, never⟩
      cases never

/-- Whatever builders do, their tables are coherent and find what a search through the module finds.
A function cannot be declared exactly if its name is taken, an alias also if it would be external,
and then the module and the names that are entered stay as they are.
-/
theorem obey_coherent (obeyed : (empty name target).obey commands = .ok builder)
    : builder.Coherent ∧ builder.Agrees
      ∧ (∀ sig, ((∃ error, builder.declareFunction sig = .error error)
          ↔ ∃ symbol, builder.unit.nameOf symbol = .ok sig.name)
        ∧ ∀ error, builder.declareFunction sig = .error error
          → (empty name target).obey (commands ++ [.declareFunction sig]) = .ok builder)
      ∧ ∀ symbolName linkage aliasee,
        ((∃ error, builder.declareAlias symbolName linkage aliasee = .error error)
          ↔ (∃ symbol, builder.unit.nameOf symbol = .ok symbolName) ∨ linkage = .external)
        ∧ ∀ error, builder.declareAlias symbolName linkage aliasee = .error error
          → (empty name target).obey (commands ++ [.declareAlias symbolName linkage aliasee])
            = .ok builder := by
  have consistent := consistent_of_obey obeyed
  have named := named_of_obey obeyed
  have more (command : Module.Command)
      : (empty name target).obey (commands ++ [command]) = command.run builder := by
    rw [obey] at obeyed ⊢
    rw [List.foldlM_append, obeyed, ok_bind]
    exact bind_pure (command.run builder)
  refine ⟨⟨fun stored member => (consistent stored member).coherent, named, named.apart⟩,
    ⟨fun stored member => (consistent stored member).agrees, fun symbolName => ?_⟩,
    fun sig => ⟨declareFunction_fails_iff named sig, fun error failed => ?_⟩,
    fun symbolName linkage aliasee =>
      ⟨declareAlias_fails_iff named symbolName linkage aliasee, fun error failed => ?_⟩⟩
  · exact Option.ext fun symbol =>
      (named symbolName symbol).trans (Module.lookup_eq_some_iff named.apart).symm
  · rw [more, Module.Command.run, failed]
    rfl
  · rw [more, Module.Command.run, failed]
    rfl

/-- Declares a function and an alias of it, declares the function once more, stores a value through
the parameter before there is one, and makes the value in a second session.
-/
def storing : List Module.Command :=
  [.declareFunction (.declared "f" .exported [.ptr] .unit),
    .declareAlias "a" .exported (.function ⟨0⟩),
    .declareFunction (.declared "f" .exported [] .unit),
    .session ⟨0⟩ [.appendBlock, .selectBlock ⟨0⟩, .append (.store ⟨0⟩ ⟨1⟩)],
    .session ⟨0⟩ [.constant (.i32 7), .selectBlock ⟨0⟩, .append (.ret none), .finish]]

/-- Witness: the value is used by the instruction that came before it, and the name of the function
stays taken.
-/
theorem obey_coherent_storing
    : ∃ builder, (empty "m" ⟨.x86_64, .unknown, .linux⟩).obey storing = .ok builder
      ∧ builder.Coherent ∧ builder.Agrees
      ∧ builder.functions.map (·.uses ⟨1⟩) = [[⟨⟨0⟩, 0⟩]]
      ∧ builder.functions.map (·.blockOf ⟨1⟩) = [some ⟨0⟩]
      ∧ builder.functions.map (·.immediate? (.i32 7)) = [some ⟨1⟩]
      ∧ builder.lookup "a" = some (.aliased ⟨0⟩)
      ∧ (empty "m" ⟨.x86_64, .unknown, .linux⟩).obey
          (storing ++ [.declareAlias "f" .exported (.function ⟨0⟩)]) = .ok builder := by
  have computed : ((empty "m" ⟨.x86_64, .unknown, .linux⟩).obey storing).toOption.any
    (fun builder =>
      builder.functions.map (·.uses ⟨1⟩) = [[⟨⟨0⟩, 0⟩]]
        ∧ builder.functions.map (·.blockOf ⟨1⟩) = [some ⟨0⟩]
        ∧ builder.functions.map (·.immediate? (.i32 7)) = [some ⟨1⟩]
        ∧ builder.lookup "a" = some (.aliased ⟨0⟩)
        ∧ builder.lookup "f" = some (.function ⟨0⟩)) = true := by
    decide +kernel
  cases obeyed : (empty "m" ⟨.x86_64, .unknown, .linux⟩).obey storing with
  | error fault =>
      rw [obeyed] at computed
      cases computed
  | ok builder =>
      rw [obeyed] at computed
      obtain ⟨uses, places, immediates, other, taken⟩ := of_decide_eq_true computed
      obtain ⟨coherent, agrees, _, aliases⟩ := obey_coherent obeyed
      refine ⟨builder, rfl, coherent, agrees, uses, places, immediates, other, ?_⟩
      refine (aliases "f" .exported (.function ⟨0⟩)).2 (.duplicateSymbol "f") ?_
      rw [declareAlias, if_pos (by rw [taken]; rfl)]
      rfl

end ModuleBuilder

end StackBounds
