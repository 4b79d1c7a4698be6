import StackBounds.Program.Module

/-! The listing of a function: one line for each block and instruction. -/

namespace StackBounds

namespace Function

/-- A value as an operand: a constant with its type, or the number of the value. -/
def operandText (func : Function) (id : ValueId) : Except Fault String := do
  match ← func.value id with
  | .constant imm => pure (imm.text ++ "." ++ imm.ty.text)
  | _ => pure id.text

/-- A value where it is defined: its number and its type. -/
def definitionText (func : Function) (id : ValueId) : Except Fault String := do
  let ty ← func.valueTy id
  pure (id.text ++ "." ++ ty.text)

/-- Operands, each after a blank. -/
def operandsText (func : Function) (ids : List ValueId) : Except Fault String := do
  let texts ← ids.mapM func.operandText
  pure (String.join (texts.map (" " ++ ·)))

/-- The incoming values of a merge with their blocks. -/
def incomingText (func : Function) (values : List ValueId) (blocks : List BlockId)
    : Except Fault String := do
  let texts ← (values.zip blocks).mapM fun (value, block) => do
    pure (" (" ++ (← func.operandText value) ++ " " ++ block.text ++ ")")
  pure (String.join texts)

/-- The arguments of a call; one that is passed by value shows the type of the copy. -/
def argsText (func : Function) (call : Call) : Except Fault String := do
  let texts ← call.args.zipIdx.mapM fun (arg, index) => do
    let copy := match call.byValueTy? index with
      | some ty => "byval(" ++ ty.text ++ ") "
      | none => ""
    pure (" " ++ copy ++ (← func.operandText arg))
  pure (String.join texts)

/-- A call under the given keyword. -/
def callText (unit : Module) (func : Function) (keyword : String) (call : Call)
    : Except Fault String := do
  let callee ← match call.target with
    | .direct callee => do pure (" %" ++ (← unit.nameOf callee))
    | .indirect callee => do pure ("_indirect" ++ (← func.operandsText [callee]))
  pure (keyword ++ callee ++ (← func.argsText call))

/-- An instruction without its result. -/
def operationText (unit : Module) (func : Function) : Inst → Except Fault String
  | .alloca ty count => do pure ("alloca " ++ ty.text ++ (← func.operandsText count.toList))
  | .load addr _ => do pure ("load" ++ (← func.operandsText [addr]))
  | .store addr value => do pure ("store" ++ (← func.operandsText [addr, value]))
  | .ptrAdd base offset => do pure ("ptr_add" ++ (← func.operandsText [base, offset]))
  | .elemPtr base index elem => do
      pure ("elem_ptr " ++ elem.text ++ (← func.operandsText [base, index]))
  | .cast op arg _ => do pure (op.text ++ (← func.operandsText [arg]))
  | .binary op lhs rhs => do pure (op.text ++ (← func.operandsText [lhs, rhs]))
  | .select cond then_ else_ => do
      pure ("select" ++ (← func.operandsText [cond, then_, else_]))
  | .phi values blocks _ => do pure ("phi" ++ (← func.incomingText values blocks))
  | .call call => func.callText unit "call" call
  | .invoke call normal unwind => do
      pure ((← func.callText unit "invoke" call) ++ " " ++ normal.text ++ " " ++ unwind.text)
  | .memTransfer op dest src length => do
      pure (op.text ++ (← func.operandsText [dest, src, length]))
  | .memSet dest value length => do
      pure ("memset" ++ (← func.operandsText [dest, value, length]))
  | .lifetime op size addr => do
      pure (op.text ++ " " ++ toString size.toNat ++ (← func.operandsText [addr]))
  | .vaArg list _ => do pure ("va_arg" ++ (← func.operandsText [list]))
  | .jump dest => pure ("jump " ++ dest.text)
  | .branch cond then_ else_ => do
      pure ("br" ++ (← func.operandsText [cond]) ++ " " ++ then_.text ++ " " ++ else_.text)
  | .ret value => do pure ("return" ++ (← func.operandsText value.toList))
  | .unreachable => pure "unreachable"

/-- The line of an instruction. -/
def instText (unit : Module) (func : Function) (id : InstId) : Except Fault String := do
  let result ← match func.resultOf id with
    | some value => do pure ((← func.definitionText value) ++ " = ")
    | none => pure ""
  pure ("        " ++ result ++ (← func.operationText unit (← func.inst id)) ++ ";\n")

/-- The lines of a block and the empty line after it. -/
def blockText (unit : Module) (func : Function) (block : PlacedBlock) : Except Fault String := do
  let insts ← block.insts.mapM (func.instText unit)
  pure ("    " ++ block.id.text ++ ":\n" ++ String.join insts ++ "\n")

/-- The listing of a function of the module. -/
def listing (unit : Module) (func : Function) : Except Fault String := do
  let args ← func.args.mapM func.definitionText
  let blocks ← func.layout.mapM (func.blockText unit)
  pure
    ("func " ++ func.sig.linkage.text ++ " %" ++ func.sig.name ++ "(" ++ ", ".intercalate args
      ++ ") -> " ++ func.sig.ret.text ++ ":\n" ++ String.join blocks)

end Function

end StackBounds
