import StackBounds.Proofs.Building
import StackBounds.Proofs.Summary.Collecting

/-! The callees of a module. A builder looks up the symbol of every call that it appends, and
symbols are never removed; so the local analysis hands addresses to symbols of the module only.
-/

namespace StackBounds

/-- The instructions of a function call symbols from a list only. -/
def Function.Calls (func : Function) (symbols : List Global) : Prop :=
  ∀ inst ∈ func.insts, ∀ callee, inst.callee? = some callee → callee ∈ symbols

/-- The functions of a module call its own symbols only. -/
def Module.CallsOwn (unit : Module) : Prop := ∀ func ∈ unit.functions, func.Calls unit.globals

-----------------------------------------------------------------------------------------
-- Building
-----------------------------------------------------------------------------------------

/-- Growing adds calls of the allowed kind only. -/
theorem StoredFunction.Grows.calls {appends : Inst → Prop} {stored changed : StoredFunction}
    {symbols : List Global} (grows : stored.Grows appends changed)
    (named : ∀ inst, appends inst → ∀ callee, inst.callee? = some callee → callee ∈ symbols)
    (calls : stored.function.Calls symbols)
    : changed.function.Calls symbols := by
  have added {inst : Inst} (appended : appends inst)
      : ∀ other ∈ stored.insts ++ [inst], ∀ callee, other.callee? = some callee
        → callee ∈ symbols := by
    intro other member
    rcases List.mem_append.mp member with old | new
    · exact calls other old
    · exact List.mem_singleton.mp new ▸ named inst appended
  cases grows with
  | block => exact calls
  | constant imm =>
      unfold makeConstant
      split <;> exact calls
  | inst appended _ => exact added appended
  | result _ appended _ _ => exact added appended

namespace ModuleBuilder

variable {builder next : ModuleBuilder}

/-- Symbols are never removed. -/
theorem Changes.globals_subset {composed : Prop} (changes : builder.Changes composed next)
    : builder.unit.globals ⊆ next.unit.globals := by
  cases changes with
  | function free => exact Module.globals_subset (by simp [unit]) (Nat.le_refl _)
  | aliased free => exact Module.globals_subset (Nat.le_refl _) (by simp [unit])
  | redirect found kept => exact Module.globals_subset (Nat.le_refl _) (by simp [unit])
  | code found grows => exact Module.globals_subset (by simp [unit, setFunction]) (Nat.le_refl _)

/-- The functions of the module that is built call its own symbols only. -/
def CallsOwn (builder : ModuleBuilder) : Prop :=
  ∀ stored ∈ builder.functions, stored.function.Calls builder.unit.globals

theorem CallsOwn.of_changes (own : builder.CallsOwn) (changes : builder.Changes True next)
    : next.CallsOwn := by
  have symbols := changes.globals_subset
  have kept {stored : StoredFunction} (old : stored ∈ builder.functions)
      : stored.function.Calls next.unit.globals := fun inst inside callee calls =>
    symbols (own stored old inst inside callee calls)
  intro stored member
  cases changes with
  | function free =>
      rcases List.mem_append.mp member with old | new
      · exact kept old
      · cases List.mem_singleton.mp new
        exact fun _ inside => by cases inside
  | aliased free => exact kept member
  | redirect found link => exact kept member
  | code found grows =>
      rcases List.mem_or_eq_of_mem_set member with old | rfl
      · exact kept old
      · refine grows.calls (fun inst named callee calls => ?_)
          (kept (List.mem_of_getElem? found))
        exact symbols (named trivial callee calls)

end ModuleBuilder

/-- A module that was composed calls its own symbols only; by induction on the changes. -/
theorem Module.Composed.callsOwn {unit : Module} (composed : unit.Composed) : unit.CallsOwn := by
  obtain ⟨name, target, commands, composes, built⟩ := composed
  obtain ⟨builder, obeyed, rfl⟩ := exists_of_build built
  have changes := ModuleBuilder.changes_of_obey True (fun _ => composes) obeyed
  have own : builder.CallsOwn := by
    clear obeyed built
    induction changes with
    | refl => exact fun _ member => by cases member
    | tail _ change ih => exact ih.of_changes change
  intro func member
  obtain ⟨stored, inside, rfl⟩ := List.mem_map.mp member
  exact own stored inside

-----------------------------------------------------------------------------------------
-- Handing on
-----------------------------------------------------------------------------------------

theorem Inst.callee?_of_pass {op : Inst} {operand param : Nat} {callee : Global}
    (passes : op.role operand = .pass callee param)
    : op.callee? = some callee := by
  have called {call : Call} (passes : call.role operand = .pass callee param)
      : call.callee? = some callee := by
    unfold Call.role at passes
    split at passes
    · split at passes
      · cases passes
      · rename_i target
        cases passes
        rw [Call.callee?, target]
      · cases passes
    · cases passes
  cases op with
  | call made => exact called passes
  | invoke made normal unwind => exact called passes
  | store addr stored =>
      simp only [role] at passes
      split at passes <;> cases passes
  | memTransfer op dest src length =>
      simp only [role] at passes
      split at passes <;> cases passes
  | memSet dest written length =>
      simp only [role] at passes
      split at passes <;> cases passes
  | _ => cases passes

namespace LocalAnalysis

variable {analysis : LocalAnalysis} {symbols : List Global}

/-- Addresses are handed to symbols that the function calls. -/
theorem track_callees {base : ValueId} {alloca : Option InstId} {tracked : Tracked}
    (calls : analysis.func.Calls symbols)
    (result : (analysis.track base alloca).result = .ok tracked)
    : ∀ call ∈ tracked.usage.calls, call.callee ∈ symbols := by
  intro call member
  obtain ⟨_, op, _, _, present, passes, _⟩ := track_origin result member
  exact calls op present _ (Inst.callee?_of_pass passes)

end LocalAnalysis

namespace Module

variable {unit : Module}

/-- The symbols that a function hands its parameters to are those of the module. -/
theorem CallsOwn.mem_globals (own : unit.CallsOwn) {id : FunctionId}
    {usages : FunctionUsage Global} (result : (unit.analyzeFunction id).result = .ok usages)
    : ∀ entry ∈ usages.params.entries, ∀ call ∈ entry.2.calls, call.callee ∈ unit.globals := by
  simp only [analyzeFunction, Traced.result_bind, Traced.result_liftM] at result
  obtain ⟨func, found, result⟩ := exists_of_bind_eq_ok result
  obtain ⟨analysis, made, ran⟩ := exists_of_bind_eq_ok result
  obtain ⟨rfl, _, _⟩ := LocalAnalysis.reads_of_ofFunction made
  intro entry member
  obtain ⟨params, _⟩ := LocalAnalysis.run_spec ran
  obtain ⟨_, _, _, tracked, tracking, usage⟩ := params entry member
  exact usage ▸ LocalAnalysis.track_callees (own _ (mem_of_function found)) tracking

/-- A module that calls its own symbols and whose functions can be analysed can be summarised. -/
theorem CallsOwn.exists_summarized (own : unit.CallsOwn)
    (analyzed : ∀ id, unit.isDeclaration (.function id) = .ok false
      → ∃ usages, (unit.analyzeFunction id).result = .ok usages)
    (config : Config) (index : SummaryIndex)
    : ∃ collected, (unit.summarize config index).result = .ok collected := by
  refine summarize_ok config index fun _ id defined => ?_
  obtain ⟨usages, result⟩ := analyzed id defined
  obtain ⟨accesses, recorded⟩ := paramAccesses_ok (analyzeFunction_shaped result)
    fun entry member call inside => exists_guid (own.mem_globals result entry member call inside)
  exact ⟨usages, accesses, result, recorded⟩

end Module

end StackBounds
