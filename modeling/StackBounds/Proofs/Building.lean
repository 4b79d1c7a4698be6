import Mathlib.Logic.Relation
import StackBounds.Program.Builder
import StackBounds.Proofs.Views

/-! Modules as they are built: symbols are declared, aliases are changed, and sessions append code
to functions. Whatever is asked of a builder, it makes one of a few changes.
-/

namespace StackBounds

open Relation (ReflTransGen)

-----------------------------------------------------------------------------------------
-- Commands
-----------------------------------------------------------------------------------------

/-- The symbol that a call names. -/
def Call.callee? (call : Call) : Option Global :=
  match call.target with
  | .direct callee => some callee
  | .indirect _ => none

/-- The symbol that an instruction calls. -/
def Inst.callee? : Inst → Option Global
  | .call made => made.callee?
  | .invoke made _ _ => made.callee?
  | _ => none

namespace Build

/-- A command to an open session. -/
inductive Command
  | args
  | appendBlock
  | selectBlock (block : BlockId)
  | constant (imm : Immediate)
  | append (inst : Inst)
  | phi (incoming : List (ValueId × BlockId))
  | call (callee : Global) (args : List ValueId) (byValue : List (Nat × Ty))
  | callIndirect (callee : ValueId) (args : List ValueId) (ret : Ty)
  | invoke (callee : Global) (args : List ValueId) (normal unwind : BlockId)
  | finish

/-- Obeys a command, and drops the answer. -/
def Command.run : Command → Build Unit
  | .args => discard Build.args
  | .appendBlock => discard Build.appendBlock
  | .selectBlock block => Build.selectBlock block
  | .constant imm => discard (Build.constant imm)
  | .append inst => discard (Build.append inst)
  | .phi incoming => discard (Build.phi incoming)
  | .call callee values byValue => discard (Build.call callee values byValue)
  | .callIndirect callee values ret => discard (Build.callIndirect callee values ret)
  | .invoke callee values normal unwind => discard (Build.invoke callee values normal unwind)
  | .finish => discard Build.finish

/-- Symbols are called by the commands for calls, which look them up. -/
def Command.composes : Command → Bool
  | .append inst => inst.callee?.isNone
  | _ => true

end Build

namespace Module

/-- A command to the builder of a module. A session appends code to one function. -/
inductive Command
  | declareFunction (sig : Signature)
  | declareAlias (name : String) (linkage : Linkage) (aliasee : Global)
  | setAliasDsoLocal (id : AliasId) (dsoLocal : Bool)
  | setAliasee (id : AliasId) (aliasee : Global)
  | session (func : FunctionId) (commands : List Build.Command)

namespace Command

/-- Obeys a command. A symbol that cannot be declared leaves the builder as it is. -/
def run : Command → ModuleBuilder → Except Fault ModuleBuilder
  | .declareFunction sig, builder =>
    match builder.declareFunction sig with
    | .ok (next, _) => pure next
    | .error _ => pure builder
  | .declareAlias name linkage aliasee, builder =>
    match builder.declareAlias name linkage aliasee with
    | .ok (next, _) => pure next
    | .error _ => pure builder
  | .setAliasDsoLocal id dsoLocal, builder => builder.setAliasDsoLocal id dsoLocal
  | .setAliasee id aliasee, builder => builder.setAliasee id aliasee
  | .session func commands, builder => do
    let ((), ended) ← (commands.forM Build.Command.run).run ⟨builder, func, none⟩
    pure ended.builder

/-- Symbols are called by the commands for calls, which look them up. -/
def composes : Command → Bool
  | .session _ commands => commands.all Build.Command.composes
  | _ => true

end Command

end Module

/-- Obeys commands, one after the other. -/
def ModuleBuilder.obey (builder : ModuleBuilder) (commands : List Module.Command)
    : Except Fault ModuleBuilder :=
  commands.foldlM (fun builder command => command.run builder) builder

namespace Module

/-- The module that commands build. -/
def build (name : String) (target : Target) (commands : List Command) : Except Fault Module := do
  pure (← (ModuleBuilder.empty name target).obey commands).unit

/-- The module was built. -/
def Built (unit : Module) : Prop :=
  ∃ name target commands, build name target commands = .ok unit

/-- The module was built, and every symbol that it calls was looked up. -/
def Composed (unit : Module) : Prop :=
  ∃ name target commands, commands.all Command.composes = true
    ∧ build name target commands = .ok unit

theorem exists_of_build {name : String} {target : Target} {commands : List Command} {unit : Module}
    (built : build name target commands = .ok unit)
    : ∃ builder, (ModuleBuilder.empty name target).obey commands = .ok builder
      ∧ builder.unit = unit := by
  obtain ⟨builder, obeyed, built⟩ := exists_of_bind_eq_ok built
  cases built
  exact ⟨builder, obeyed, rfl⟩

end Module

-----------------------------------------------------------------------------------------
-- What a session can do
-----------------------------------------------------------------------------------------

namespace StoredFunction

/-- The function with one more block, which is placed after all others. -/
def withBlock (stored : StoredFunction) : StoredFunction :=
  { stored with
    blockCount := stored.blockCount + 1
    blocks := stored.blocks ++ [⟨stored.blockCount⟩] }

/-- The function with one more instruction, which is placed at the end of a block. -/
def withInst (stored : StoredFunction) (inst : Inst) (block : BlockId) : StoredFunction :=
  { (stored.makeInst inst).1 with
    lists := stored.lists.insert block (stored.instsOf block ++ [⟨stored.insts.length⟩])
    places := stored.places.insert ⟨stored.insts.length⟩ block }

/-- The function with the result of an instruction. -/
def withResult (stored : StoredFunction) (id : InstId) (ty : Ty) : StoredFunction :=
  { (stored.makeValue (.result id ty)).1 with
    results := stored.results.insert id ⟨stored.values.length⟩ }

/-- How a step of a session changes the open function. An appended instruction is the last one, and
the last one of a placed block; if it has a result, that is a new value. It has the given property.
-/
inductive Grows (appends : Inst → Prop) (stored : StoredFunction) : StoredFunction → Prop
  | block : stored.Grows appends stored.withBlock
  | constant (imm : Immediate) : stored.Grows appends (stored.makeConstant imm).1
  | inst {inst block} (appended : appends inst) (placed : block ∈ stored.blocks)
    : stored.Grows appends (stored.withInst inst block)
  | result {inst block} (ty : Ty) (appended : appends inst) (placed : block ∈ stored.blocks)
    (first : stored.resultOf ⟨stored.insts.length⟩ = none)
    : stored.Grows appends ((stored.withInst inst block).withResult ⟨stored.insts.length⟩ ty)

theorem Grows.sig_eq {appends : Inst → Prop} {stored changed : StoredFunction}
    (grows : stored.Grows appends changed)
    : changed.sig = stored.sig := by
  cases grows with
  | constant imm =>
      unfold makeConstant
      split <;> rfl
  | _ => rfl

end StoredFunction

namespace Build

variable {session next : Session} {appends : Inst → Prop}

/-- A step of a session leaves the module as it is, or changes the open function. -/
inductive Changes (appends : Inst → Prop) (session next : Session) : Prop
  | nothing (same : next.builder = session.builder)
  | function {stored changed} (found : session.builder.function session.func = .ok stored)
    (grows : stored.Grows appends changed)
    (same : next.builder = session.builder.setFunction session.func changed)

theorem run_function {stored : StoredFunction} (found : function.run session = .ok (stored, next))
    : session.builder.function session.func = .ok stored ∧ next = session := by
  obtain ⟨_, result, found⟩ := exists_of_bind_eq_ok found
  cases found
  exact ⟨result, rfl⟩

theorem exists_of_discard {α : Type} {build : Build α}
    (ran : (discard build).run session = .ok ((), next))
    : ∃ answer, build.run session = .ok (answer, next) := by
  obtain ⟨⟨answer, after⟩, result, ran⟩ := exists_of_bind_eq_ok ran
  cases ran
  exact ⟨answer, result⟩

theorem exists_of_bind {α β : Type} {first : Build α} {rest : α → Build β} {answer : β}
    (ran : (first >>= rest).run session = .ok (answer, next))
    : ∃ value middle, first.run session = .ok (value, middle)
      ∧ (rest value).run middle = .ok (answer, next) := by
  obtain ⟨⟨value, middle⟩, result, ran⟩ := exists_of_bind_eq_ok ran
  exact ⟨value, middle, result, ran⟩

theorem exists_of_lift {α : Type} {computed : Except Fault α} {answer : α}
    (ran : (liftM computed : Build α).run session = .ok (answer, next))
    : computed = .ok answer ∧ next = session := by
  obtain ⟨value, result, ran⟩ := exists_of_bind_eq_ok ran
  cases ran
  exact ⟨result, rfl⟩

theorem appendBlock_changes {block : BlockId} (ran : appendBlock.run session = .ok (block, next))
    : Changes appends session next := by
  obtain ⟨stored, _, found, afterFound⟩ := exists_of_bind ran
  obtain ⟨found, rfl⟩ := run_function found
  obtain ⟨placed, _, placing, afterPlaced⟩ := exists_of_bind afterFound
  obtain ⟨placing, rfl⟩ := exists_of_lift placing
  cases afterPlaced
  unfold StoredFunction.placeBlock at placing
  split at placing
  · cases placing
  · cases placing
    exact .function found .block rfl

theorem constant_changes {imm : Immediate} {value : ValueId}
    (ran : (constant imm).run session = .ok (value, next))
    : Changes appends session next := by
  obtain ⟨stored, _, found, afterFound⟩ := exists_of_bind ran
  obtain ⟨found, rfl⟩ := run_function found
  cases afterFound
  exact .function found (.constant imm) rfl

theorem append_changes {inst : Inst} {value : Option ValueId} (appended : appends inst)
    (ran : (append inst).run session = .ok (value, next))
    : Changes appends session next := by
  obtain ⟨stored, _, found, afterFound⟩ := exists_of_bind ran
  obtain ⟨found, rfl⟩ := run_function found
  obtain ⟨ty, _, typed, afterTyped⟩ := exists_of_bind afterFound
  obtain ⟨_, rfl⟩ := exists_of_lift typed
  obtain ⟨_, _, got, afterGot⟩ := exists_of_bind afterTyped
  cases got
  split at afterGot
  · cases afterGot
  rename_i block _
  obtain ⟨placed, _, placing, afterPlaced⟩ := exists_of_bind afterGot
  obtain ⟨placing, rfl⟩ := exists_of_lift placing
  obtain ⟨member, rfl⟩ : block ∈ stored.blocks ∧ placed = stored.withInst inst block := by
    unfold StoredFunction.placeInst at placing
    split at placing
    · cases placing
    · rename_i known
      split at placing
      · cases placing
      · cases placing
        have inside : stored.blocks.contains block = true := by
          rwa [Bool.not_eq_true, Bool.not_eq_false'] at known
        exact ⟨List.contains_iff_mem.mp inside, rfl⟩
  split at afterPlaced
  · cases afterPlaced
    exact .function found (.inst appended member) rfl
  · obtain ⟨⟨made, result⟩, _, making, afterMade⟩ := exists_of_bind afterPlaced
    obtain ⟨making, rfl⟩ := exists_of_lift making
    cases afterMade
    unfold StoredFunction.makeResult at making
    split at making
    · cases making
    · rename_i fresh
      cases making
      exact .function found
        (.result _ appended member (Option.not_isSome_iff_eq_none.mp fresh)) rfl

/-- A call is made after its symbol has been looked up. -/
theorem directCall_run {callee : Global} {args : List ValueId} {byValue : List (Nat × Ty)}
    {made : Call} (ran : (directCall callee args byValue).run session = .ok (made, next))
    : next = session
      ∧ ∀ symbol, made.callee? = some symbol → symbol ∈ session.builder.unit.globals := by
  obtain ⟨_, _, got, afterGot⟩ := exists_of_bind ran
  cases got
  obtain ⟨ty, _, typed, afterTyped⟩ := exists_of_bind afterGot
  obtain ⟨typed, rfl⟩ := exists_of_lift typed
  cases afterTyped
  refine ⟨rfl, ?_⟩
  rintro _ ⟨⟩
  exact Module.mem_globals_of_returnTy typed

/-- Looking at the ends of blocks changes nothing; by induction on the blocks. -/
theorem forM_isTerminated_same {func : Function} {layout : List PlacedBlock}
    (ran : (layout.forM fun block => (do
      if ← isTerminated func block then pure () else throw (.unterminated block.id.index)
      : Build Unit)).run session = .ok ((), next))
    : next = session := by
  induction layout with
  | nil =>
      cases ran
      rfl
  | cons block rest ih =>
      obtain ⟨_, _, first, later⟩ := exists_of_bind ran
      obtain ⟨ended, _, tested, first⟩ := exists_of_bind first
      obtain ⟨_, rfl⟩ := exists_of_lift tested
      cases ended with
      | false => cases first
      | true =>
          cases first
          exact ih later

/-- A command changes the open function at most. If it composes, it calls symbols of the module
only.
-/
theorem Command.run_changes {command : Command} {composed : Prop}
    (composes : composed → command.composes = true)
    (ran : command.run.run session = .ok ((), next))
    : Changes (fun inst => composed
        → ∀ callee, inst.callee? = some callee → callee ∈ session.builder.unit.globals)
      session next := by
  cases command with
  | args =>
      obtain ⟨_, read⟩ := exists_of_discard ran
      obtain ⟨_, _, found, afterFound⟩ := exists_of_bind read
      obtain ⟨_, rfl⟩ := run_function found
      cases afterFound
      exact .nothing rfl
  | appendBlock =>
      obtain ⟨_, appended⟩ := exists_of_discard ran
      exact appendBlock_changes appended
  | selectBlock block =>
      cases ran
      exact .nothing rfl
  | constant imm =>
      obtain ⟨_, made⟩ := exists_of_discard ran
      exact constant_changes made
  | append inst =>
      obtain ⟨_, appended⟩ := exists_of_discard ran
      refine append_changes (fun isComposed callee calls => ?_) appended
      cases (Option.isNone_iff_eq_none.mp (composes isComposed)).symm.trans calls
  | phi incoming =>
      obtain ⟨_, merged⟩ := exists_of_discard ran
      cases incoming with
      | nil => cases merged
      | cons first rest =>
          obtain ⟨_, _, found, afterFound⟩ := exists_of_bind merged
          obtain ⟨_, rfl⟩ := run_function found
          obtain ⟨_, _, typed, appended⟩ := exists_of_bind afterFound
          obtain ⟨_, rfl⟩ := exists_of_lift typed
          refine append_changes (fun _ callee calls => ?_) appended
          cases calls
  | call callee args byValue =>
      obtain ⟨_, called⟩ := exists_of_discard ran
      obtain ⟨_, _, looked, appended⟩ := exists_of_bind called
      obtain ⟨rfl, named⟩ := directCall_run looked
      refine append_changes ?_ appended
      exact fun _ => named
  | callIndirect callee args ret =>
      obtain ⟨_, appended⟩ := exists_of_discard ran
      refine append_changes (fun _ callee calls => ?_) appended
      cases calls
  | invoke callee args normal unwind =>
      obtain ⟨_, called⟩ := exists_of_discard ran
      obtain ⟨_, _, looked, appended⟩ := exists_of_bind called
      obtain ⟨rfl, named⟩ := directCall_run looked
      refine append_changes ?_ appended
      exact fun _ => named
  | finish =>
      obtain ⟨_, finished⟩ := exists_of_discard ran
      obtain ⟨_, _, found, afterFound⟩ := exists_of_bind finished
      obtain ⟨_, rfl⟩ := run_function found
      obtain ⟨_, _, ended, afterEnded⟩ := exists_of_bind afterFound
      obtain rfl := forM_isTerminated_same ended
      cases afterEnded
      exact .nothing rfl

end Build

-----------------------------------------------------------------------------------------
-- What a builder can do
-----------------------------------------------------------------------------------------

namespace ModuleBuilder

variable {builder next : ModuleBuilder} {composed : Prop}

/-- How a builder changes: a symbol with a new name is declared, an alias is changed that keeps its
name, or the code of a function grows. In modules that are composed, only their symbols are called.
-/
inductive Changes (composed : Prop) (builder : ModuleBuilder) : ModuleBuilder → Prop
  | function {sig : Signature} (free : builder.lookup sig.name = none)
    : builder.Changes composed { builder with
        functions := builder.functions ++ [.ofSignature sig]
        declared := (sig.name, .function ⟨builder.functions.length⟩) :: builder.declared }
  | aliased {link : Alias} (free : builder.lookup link.name = none)
    : builder.Changes composed { builder with
        aliases := builder.aliases ++ [link]
        declared := (link.name, .aliased ⟨builder.aliases.length⟩) :: builder.declared }
  | redirect {id : AliasId} {link changed : Alias}
    (found : builder.aliases[id.index]? = some link) (kept : changed.name = link.name)
    : builder.Changes composed { builder with aliases := builder.aliases.set id.index changed }
  | code {id : FunctionId} {stored changed : StoredFunction}
    (found : builder.functions[id.index]? = some stored)
    (grows : stored.Grows (fun inst => composed
      → ∀ callee, inst.callee? = some callee → callee ∈ builder.unit.globals) changed)
    : builder.Changes composed (builder.setFunction id changed)

theorem function_eq_ok_iff {id : FunctionId} {stored : StoredFunction}
    : builder.function id = .ok stored ↔ builder.functions[id.index]? = some stored := by
  unfold function
  cases builder.functions[id.index]? <;> simp

theorem modifyAlias_changes {id : AliasId} {change : Alias → Alias}
    (kept : ∀ link, (change link).name = link.name)
    (changed : builder.modifyAlias id change = .ok next)
    : builder.Changes composed next := by
  obtain ⟨link, found, changed⟩ := exists_of_bind_eq_ok changed
  cases changed
  exact .redirect (Module.aliasAt_eq_ok_iff.mp found) (kept link)

/-- A session makes one change after the other; by induction on its commands. -/
theorem changes_of_session {session ended : Session} {commands : List Build.Command}
    (composes : composed → commands.all Build.Command.composes = true)
    (ran : (commands.forM Build.Command.run).run session = .ok ((), ended))
    : ReflTransGen (Changes composed) session.builder ended.builder := by
  induction commands generalizing session with
  | nil =>
      cases ran
      exact .refl
  | cons command rest ih =>
      simp only [List.all_cons, Bool.and_eq_true] at composes
      obtain ⟨_, middle, first, later⟩ := Build.exists_of_bind ran
      have onward := ih (fun isComposed => (composes isComposed).2) later
      cases Build.Command.run_changes (fun isComposed => (composes isComposed).1) first with
      | nothing same => exact same ▸ onward
      | function found grows same =>
          refine .head ?_ onward
          rw [same]
          exact .code (function_eq_ok_iff.mp found) grows

end ModuleBuilder

namespace Module.Command

variable {builder next : ModuleBuilder} {composed : Prop}

theorem run_changes {command : Command} (composes : composed → command.composes = true)
    (ran : command.run builder = .ok next)
    : ReflTransGen (ModuleBuilder.Changes composed) builder next := by
  cases command with
  | declareFunction sig =>
      simp only [run, ModuleBuilder.declareFunction] at ran
      split at ran
      · rename_i declared
        split at declared
        · cases declared
        · rename_i free
          cases declared
          cases ran
          exact .single (.function (Option.not_isSome_iff_eq_none.mp free))
      · cases ran
        exact .refl
  | declareAlias name linkage aliasee =>
      simp only [run, ModuleBuilder.declareAlias] at ran
      split at ran
      · rename_i declared
        split at declared
        · cases declared
        · rename_i free
          split at declared
          · cases declared
          · cases declared
            cases ran
            exact .single (.aliased (Option.not_isSome_iff_eq_none.mp free))
      · cases ran
        exact .refl
  | setAliasDsoLocal id dsoLocal =>
      change builder.modifyAlias id _ = _ at ran
      refine .single (ModuleBuilder.modifyAlias_changes ?_ ran)
      exact fun _ => rfl
  | setAliasee id aliasee =>
      change builder.modifyAlias id _ = _ at ran
      refine .single (ModuleBuilder.modifyAlias_changes ?_ ran)
      exact fun _ => rfl
  | session func commands =>
      obtain ⟨⟨_, ended⟩, session, ran⟩ := exists_of_bind_eq_ok ran
      cases ran
      exact ModuleBuilder.changes_of_session composes session

end Module.Command

namespace ModuleBuilder

variable {builder next : ModuleBuilder}

/-- Commands make one change after the other; by induction on them. -/
theorem changes_of_obey (composed : Prop) {commands : List Module.Command}
    (composes : composed → commands.all Module.Command.composes = true)
    (obeyed : builder.obey commands = .ok next)
    : ReflTransGen (Changes composed) builder next := by
  induction commands generalizing builder with
  | nil =>
      cases obeyed
      exact .refl
  | cons command rest ih =>
      simp only [List.all_cons, Bool.and_eq_true] at composes
      obtain ⟨middle, first, later⟩ := exists_of_bind_eq_ok obeyed
      exact (Module.Command.run_changes (fun isComposed => (composes isComposed).1) first).trans
        (ih (fun isComposed => (composes isComposed).2) later)

/-- What holds of functions without a body, and stays when they grow, holds of every function that
is built; by induction on the changes.
-/
theorem forall_functions {composed : Prop} {keeps : StoredFunction → Prop}
    (declared : ∀ sig, keeps (.ofSignature sig))
    (grown : ∀ appends stored changed, stored.Grows appends changed → keeps stored → keeps changed)
    (changes : ReflTransGen (Changes composed) builder next)
    (initially : ∀ stored ∈ builder.functions, keeps stored)
    : ∀ stored ∈ next.functions, keeps stored := by
  induction changes with
  | refl => exact initially
  | tail _ change ih =>
      intro stored member
      cases change with
      | function free =>
          rcases List.mem_append.mp member with old | new
          · exact ih stored old
          · exact List.mem_singleton.mp new ▸ declared _
      | aliased free => exact ih stored member
      | redirect found kept => exact ih stored member
      | code found grows =>
          rcases List.mem_or_eq_of_mem_set member with old | rfl
          · exact ih stored old
          · exact grown _ _ _ grows (ih _ (List.mem_of_getElem? found))

end ModuleBuilder

end StackBounds
