import StackBounds.Program.Function
import StackBounds.Program.Guid
import StackBounds.Target

/-! Modules: functions and aliases under one name, and what their symbols are bound to. -/

namespace StackBounds

/-- Another name of a symbol. -/
structure Alias where
  name : String
  linkage : Linkage
  dsoLocal : Bool
  aliasee : Global
  deriving DecidableEq, Repr

/-- A unit of compilation: named functions and aliases for one target. -/
structure Module where
  name : String
  target : Target
  functions : List Function
  aliases : List Alias
  deriving DecidableEq, Repr

namespace Module

/-- The width of an address in the module. -/
def pointerWidth (unit : Module) : PointerWidth := unit.target.pointerWidth

/-- The function with a number. -/
def function (unit : Module) (id : FunctionId) : Except Fault Function :=
  match unit.functions[id.index]? with
  | some func => pure func
  | none => throw (.dangling .function id.index)

/-- The alias with a number. -/
def aliasAt (unit : Module) (id : AliasId) : Except Fault Alias :=
  match unit.aliases[id.index]? with
  | some link => pure link
  | none => throw (.dangling .aliasName id.index)

/-- The numbers of the functions. -/
def functionIds (unit : Module) : List FunctionId :=
  (List.range unit.functions.length).map FunctionId.mk

/-- The numbers of the aliases. -/
def aliasIds (unit : Module) : List AliasId :=
  (List.range unit.aliases.length).map AliasId.mk

/-- The symbols: functions, then aliases. -/
def globals (unit : Module) : List Global :=
  unit.functionIds.map .function ++ unit.aliasIds.map .aliased

/-- The name of a symbol. -/
def nameOf (unit : Module) : Global → Except Fault String
  | .function id => do pure (← unit.function id).sig.name
  | .aliased id => do pure (← unit.aliasAt id).name

/-- The linkage of a symbol. -/
def linkageOf (unit : Module) : Global → Except Fault Linkage
  | .function id => do pure (← unit.function id).sig.linkage
  | .aliased id => do pure (← unit.aliasAt id).linkage

/-- The definition of a symbol in this linkage unit is the one that is used. -/
def isDsoLocal (unit : Module) : Global → Except Fault Bool
  | .function id => do pure (← unit.function id).sig.dsoLocal
  | .aliased id => do pure (← unit.aliasAt id).dsoLocal

/-- The symbol has no definition in the module. -/
def isDeclaration (unit : Module) : Global → Except Fault Bool
  | .function id => do pure (← unit.function id).isDeclaration
  | .aliased _ => pure false

/-- The identifier of a symbol across modules. -/
def guidOf (unit : Module) (symbol : Global) : Except Fault Guid := do
  let name ← unit.nameOf symbol
  let linkage ← unit.linkageOf symbol
  pure (if linkage.isLocal then Guid.ofLocal unit.name name else Guid.ofName name)

/-- The text whose hash identifies a symbol across modules. -/
def guidName (unit : Module) (symbol : Global) : Except Fault String := do
  let name ← unit.nameOf symbol
  let linkage ← unit.linkageOf symbol
  pure (if linkage.isLocal then Guid.localName unit.name name else name)

/-- The symbol with a name. -/
def lookup (unit : Module) (name : String) : Option Global :=
  match unit.functions.findIdx? fun func => func.sig.name == name with
  | some index => some (.function ⟨index⟩)
  | none =>
      (unit.aliases.findIdx? fun link => link.name == name).map fun index => .aliased ⟨index⟩

-----------------------------------------------------------------------------------------
-- Following aliases
-----------------------------------------------------------------------------------------

/-- The definition of a symbol in this module is the one that runs. -/
def isBoundHere (unit : Module) (symbol : Global) : Except Fault Bool := do
  let declaration ← unit.isDeclaration symbol
  let linkage ← unit.linkageOf symbol
  let dsoLocal ← unit.isDsoLocal symbol
  pure (!declaration && !linkage.isInterposable && dsoLocal)

/-- Follows aliases for at most `steps` symbols, as long as each one is bound here. -/
def boundFunctionWithin (unit : Module) : Nat → Global → Except Fault (Option FunctionId)
  | 0, _ => pure none
  | steps + 1, symbol => do
    if ← unit.isBoundHere symbol then
      match symbol with
      | .function id => pure (some id)
      | .aliased id => do
        let link ← unit.aliasAt id
        unit.boundFunctionWithin steps link.aliasee
    else
      pure none

/-- The function of this module that a call to the symbol runs. A chain that does not loop
visits each alias once and then a function, so the number of symbols bounds it.
-/
def boundFunction (unit : Module) (symbol : Global) : Except Fault (Option FunctionId) :=
  unit.boundFunctionWithin (unit.aliases.length + 1) symbol

/-- Follows aliases for at most `steps` symbols to the type of a call's result. -/
def returnTyWithin (unit : Module) : Nat → Global → Except Fault Ty
  | 0, _ => pure .unit
  | steps + 1, symbol =>
    match symbol with
    | .function id => do pure (← unit.function id).sig.ret
    | .aliased id => do
      let link ← unit.aliasAt id
      unit.returnTyWithin steps link.aliasee

/-- The type of the result of a call to the symbol; a loop of aliases returns nothing. -/
def returnTy (unit : Module) (symbol : Global) : Except Fault Ty :=
  unit.returnTyWithin (unit.aliases.length + 1) symbol

end Module

end StackBounds
