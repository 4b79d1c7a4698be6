import StackBounds.Program.Module
import StackBounds.Program.Storage

/-! Building modules: declaring symbols, and appending code to a function. -/

namespace StackBounds

-----------------------------------------------------------------------------------------
-- Declaring symbols
-----------------------------------------------------------------------------------------

/-- Why a symbol cannot be declared. -/
inductive DeclareError
  | duplicateSymbol (name : String)
  | externalAlias (name : String)
  deriving DecidableEq, Repr

/-- The message of an error. -/
def DeclareError.message : DeclareError → String
  | .duplicateSymbol name => "symbol `" ++ name ++ "` is already declared"
  | .externalAlias name => "alias `" ++ name ++ "` must not have external linkage"

/-- A module that is being built: its functions with their tables, and the names that are taken. -/
structure ModuleBuilder where
  name : String
  target : Target
  functions : List StoredFunction
  aliases : List Alias
  /-- The symbols under their names. -/
  declared : List (String × Global)
  deriving DecidableEq, Repr

namespace ModuleBuilder

/-- A builder without symbols. -/
def empty (name : String) (target : Target) : ModuleBuilder := ⟨name, target, [], [], []⟩

/-- The module that has been built. -/
def unit (builder : ModuleBuilder) : Module :=
  ⟨builder.name, builder.target, builder.functions.map (·.function), builder.aliases⟩

/-- The symbol with a name. -/
def lookup (builder : ModuleBuilder) (name : String) : Option Global :=
  builder.declared.lookup name

/-- The function with a number. -/
def function (builder : ModuleBuilder) (id : FunctionId) : Except Fault StoredFunction :=
  match builder.functions[id.index]? with
  | some stored => pure stored
  | none => throw (.dangling .function id.index)

/-- Declares a function without a body. -/
def declareFunction (builder : ModuleBuilder) (sig : Signature)
    : Except DeclareError (ModuleBuilder × FunctionId) :=
  if (builder.lookup sig.name).isSome then
    throw (.duplicateSymbol sig.name)
  else
    let id : FunctionId := ⟨builder.functions.length⟩
    pure
      ({ builder with
          functions := builder.functions ++ [.ofSignature sig]
          declared := (sig.name, .function id) :: builder.declared },
        id)

/-- Declares an alias; it is always defined here and at first not preemptable. -/
def declareAlias (builder : ModuleBuilder) (name : String) (linkage : Linkage) (aliasee : Global)
    : Except DeclareError (ModuleBuilder × AliasId) :=
  if (builder.lookup name).isSome then
    throw (.duplicateSymbol name)
  else if linkage = .external then
    throw (.externalAlias name)
  else
    let id : AliasId := ⟨builder.aliases.length⟩
    pure
      ({ builder with
          aliases := builder.aliases ++ [⟨name, linkage, true, aliasee⟩]
          declared := (name, .aliased id) :: builder.declared },
        id)

/-- Changes an alias. -/
def modifyAlias (builder : ModuleBuilder) (id : AliasId) (change : Alias → Alias)
    : Except Fault ModuleBuilder := do
  let link ← builder.unit.aliasAt id
  pure { builder with aliases := builder.aliases.set id.index (change link) }

/-- Sets whether the definition of an alias is the one that is used. -/
def setAliasDsoLocal (builder : ModuleBuilder) (id : AliasId) (dsoLocal : Bool)
    : Except Fault ModuleBuilder :=
  builder.modifyAlias id fun link => { link with dsoLocal }

/-- Redirects an alias, possibly into a loop. -/
def setAliasee (builder : ModuleBuilder) (id : AliasId) (aliasee : Global)
    : Except Fault ModuleBuilder :=
  builder.modifyAlias id fun link => { link with aliasee }

/-- Puts a function back under its number. -/
def setFunction (builder : ModuleBuilder) (id : FunctionId) (stored : StoredFunction)
    : ModuleBuilder :=
  { builder with functions := builder.functions.set id.index stored }

end ModuleBuilder

-----------------------------------------------------------------------------------------
-- Appending code
-----------------------------------------------------------------------------------------

/-- An open function: the builder of its module and the block that receives instructions. -/
structure Session where
  builder : ModuleBuilder
  func : FunctionId
  block : Option BlockId
  deriving DecidableEq, Repr

/-- A step of building code. -/
abbrev Build := StateT Session (Except Fault)

namespace Build

/-- The open function as it stands. -/
def function : Build StoredFunction := do
  let session ← get
  session.builder.function session.func

/-- Replaces the open function. -/
def setFunction (stored : StoredFunction) : Build Unit :=
  modify fun session => { session with builder := session.builder.setFunction session.func stored }

/-- The values of the parameters. -/
def args : Build (List ValueId) := do
  pure (← function).function.args

/-- Makes a block and places it after all others. -/
def appendBlock : Build BlockId := do
  let (stored, block) := (← function).makeBlock
  setFunction (← stored.placeBlock block)
  pure block

/-- Selects the block that receives instructions. -/
def selectBlock (block : BlockId) : Build Unit :=
  modify fun session => { session with block := some block }

/-- The value of a constant. -/
def constant (imm : Immediate) : Build ValueId := do
  let (stored, value) := (← function).makeConstant imm
  setFunction stored
  pure value

/-- The type of an instruction's result, or none when it has no result. -/
def resultTy (func : Function) : Inst → Except Fault (Option Ty)
  | .alloca _ _ => pure (some .ptr)
  | .load _ ty => pure (some ty)
  | .ptrAdd _ _ => pure (some .ptr)
  | .elemPtr _ _ _ => pure (some .ptr)
  | .cast _ _ ty => pure (some ty)
  | .binary op lhs _ =>
      if op.isComparison then pure (some .i1) else some <$> func.valueTy lhs
  | .select _ then_ _ => some <$> func.valueTy then_
  | .phi _ _ ty => pure (some ty)
  | .call call => pure (if call.ret.isUnit then none else some call.ret)
  | .invoke call _ _ => pure (if call.ret.isUnit then none else some call.ret)
  | .vaArg _ ty => pure (some ty)
  | _ => pure none

/-- Appends an instruction to the selected block and makes its result. -/
def append (inst : Inst) : Build (Option ValueId) := do
  let stored ← function
  let ty ← resultTy stored.function inst
  match (← get).block with
  | none => throw .noBlockSelected
  | some block => do
    let (stored, id) := stored.makeInst inst
    let stored ← stored.placeInst id block
    match ty with
    | none => do
      setFunction stored
      pure none
    | some ty => do
      let (stored, value) ← stored.makeResult id ty
      setFunction stored
      pure (some value)

/-- Appends a merge; its type is that of the first incoming value. -/
def phi (incoming : List (ValueId × BlockId)) : Build (Option ValueId) := do
  match incoming with
  | [] => throw .emptyMerge
  | (first, _) :: _ => do
    let ty ← (← function).function.valueTy first
    append (.phi (incoming.map (·.1)) (incoming.map (·.2)) ty)

/-- The call of a symbol. -/
def directCall (callee : Global) (args : List ValueId) (byValue : List (Nat × Ty))
    : Build Call := do
  let ret ← (← get).builder.unit.returnTy callee
  pure ⟨.direct callee, args, byValue, ret⟩

/-- Appends a call of a symbol. -/
def call (callee : Global) (args : List ValueId) (byValue : List (Nat × Ty))
    : Build (Option ValueId) := do
  append (.call (← directCall callee args byValue))

/-- Appends a call through a pointer. -/
def callIndirect (callee : ValueId) (args : List ValueId) (ret : Ty)
    : Build (Option ValueId) :=
  append (.call ⟨.indirect callee, args, [], ret⟩)

/-- Appends a call of a symbol that may unwind. -/
def invoke (callee : Global) (args : List ValueId) (normal unwind : BlockId)
    : Build (Option ValueId) := do
  append (.invoke (← directCall callee args []) normal unwind)

/-- The block ends with a terminator. -/
def isTerminated (func : Function) (block : PlacedBlock) : Except Fault Bool :=
  match block.insts.getLast? with
  | none => pure false
  | some last => do pure (← func.inst last).isTerminator

/-- Ends the session; every placed block must end with a terminator. -/
def finish : Build FunctionId := do
  let func := (← function).function
  func.layout.forM fun block => do
    if ← isTerminated func block then pure () else throw (.unterminated block.id.index)
  pure (← get).func

end Build

end StackBounds
