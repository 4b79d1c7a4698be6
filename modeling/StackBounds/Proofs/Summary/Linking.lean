import StackBounds.Proofs.Aliases
import StackBounds.Proofs.Solver.Least
import StackBounds.Proofs.Summary.Collecting
import StackBounds.Proofs.Summary.Translation

/-! The index of one module. When different symbols have different identifiers, a call that is
bound to a summary of the index is bound to the summarised function in the module.
-/

namespace StackBounds

namespace SummaryIndex

variable {index : SummaryIndex}
  (measured : ∀ summary ∈ index.summaries, summary.Measured recordWidth)

include measured

theorem recorded_of_measured : index.Recorded where
  params summary member := (measured summary member).params
  ranges summary member := (measured summary member).ranges
  offsets summary member access inside call listed :=
    ((measured summary member).offsets access inside call listed).1
  moved summary member access inside call listed :=
    ((measured summary member).offsets access inside call listed).2

/-- Straight records are handed to the solver as straight ranges. -/
theorem straightRanges_of_measured {functions : Functions}
    (taken : index.functions = .ok functions)
    : Solver.StraightRanges functions := by
  have recorded := recorded_of_measured measured
  intro func param usage found
  obtain ⟨_, summary, access, _, callable, inside, _, translated⟩ :=
    exists_record_of_param? taken recorded.params found
  have member := List.mem_of_getElem? callable.found
  exact usageOf_straight (recorded.ranges summary member access inside).wellFormed
    ((measured summary member).straight access inside) translated

end SummaryIndex

namespace Module

/-- Different symbols have different identifiers. -/
def GuidsDiffer (unit : Module) : Prop :=
  ∀ first ∈ unit.globals, ∀ second ∈ unit.globals,
    unit.guidOf first = unit.guidOf second → first = second

variable {unit : Module} {withAccesses : Bool} {collection : Collection}

/-- A chain of aliases in the index follows a chain in the module; by induction on what is fresh. -/
theorem Collects.leads {index : SummaryIndex}
    (collects : unit.Collects withAccesses index collection) (fresh : List SummaryId)
    {symbol : Global} {id target : SummaryId} (inside : (symbol, id) ∈ collection.summarized)
    (resolved : collection.index.resolveFrom fresh id = .ok (some target))
    : ∃ func, unit.Leads symbol func
      ∧ (.function func, target) ∈ collection.summarized := by
  induction size : fresh.length using Nat.strongRecOn generalizing fresh symbol id with
  | ind _ ih =>
      obtain ⟨_, summary, found, summarizes⟩ := collects.made symbol id inside
      rw [SummaryIndex.resolveFrom, SummaryIndex.summary_eq_ok_iff.mpr found, ok_bind] at resolved
      split at resolved
      · rename_i unseen
        split at resolved
        · rename_i usable
          rw [Bool.and_eq_true] at usable
          cases summarizes with
          | function describes kind defined _ _ =>
              simp only [kind] at resolved
              cases resolved
              have bound := isBoundHere_iff.mp (usable.2 ▸ describes.isBoundHere defined)
              exact ⟨_, .here bound, inside⟩
          | aliased describes kind foundLink leads =>
              simp only [kind] at resolved
              obtain ⟨func, later, reached⟩ :=
                ih _ (size ▸ length_erase_lt unseen) (fresh.erase id) leads resolved rfl
              have bound := isBoundHere_iff.mp (usable.2 ▸ describes.isBoundHere rfl)
              exact ⟨func, .through bound foundLink later, reached⟩
        · cases resolved
      · cases resolved

/-- A symbol has one summary. -/
theorem Collects.number_eq {index : SummaryIndex}
    (collects : unit.Collects withAccesses index collection) {symbol : Global}
    {id other : SummaryId} (inside : (symbol, id) ∈ collection.summarized)
    (again : (symbol, other) ∈ collection.summarized)
    : id = other := by
  have found := find?_key_of_mem collects.symbols inside
  rw [find?_key_of_mem collects.symbols again, Option.some.injEq] at found
  exact found.symm

theorem Collects.defined {index : SummaryIndex}
    (collects : unit.Collects withAccesses index collection) {func : FunctionId} {id : SummaryId}
    (inside : (.function func, id) ∈ collection.summarized)
    : unit.isDeclaration (.function func) = .ok false := by
  obtain ⟨_, _, _, summarizes⟩ := collects.made _ id inside
  cases summarizes with
  | function _ _ defined _ _ => exact defined

section OneModule

variable (collects : unit.Collects withAccesses .empty collection)

include collects

/-- Every summary belongs to a symbol. -/
theorem Collects.exists_symbol {id : SummaryId} {summary : Summary}
    (found : collection.index.summaries[id.index]? = some summary)
    : ∃ symbol, (symbol, id) ∈ collection.summarized
      ∧ unit.Summarizes withAccesses collection.summarized symbol summary :=
  (collects.old_or_summarizes found).resolve_left (by simp [SummaryIndex.empty])

theorem Collects.summarizes_of_mem {summary : Summary}
    (member : summary ∈ collection.index.summaries)
    : ∃ symbol, unit.Summarizes withAccesses collection.summarized symbol summary := by
  obtain ⟨number, found⟩ := List.mem_iff_getElem?.mp member
  have numbered : collection.index.summaries[(SummaryId.mk number).index]? = some summary := found
  obtain ⟨symbol, _, summarizes⟩ := collects.exists_symbol numbered
  exact ⟨symbol, summarizes⟩

theorem Collects.aliasesExist : collection.index.AliasesExist :=
  collects.aliasesExist_of fun _ member => absurd member List.not_mem_nil

/-- The records of a module with wide pointers have the width of records. -/
theorem Collects.measured (wide : unit.pointerWidth.bits = SummaryIndex.recordWidth)
    : ∀ summary ∈ collection.index.summaries, summary.Measured SummaryIndex.recordWidth := by
  intro summary member
  obtain ⟨_, summarizes⟩ := collects.summarizes_of_mem member
  exact wide ▸ summarizes.measured

theorem Collects.recorded (wide : unit.pointerWidth.bits = SummaryIndex.recordWidth)
    : collection.index.Recorded :=
  SummaryIndex.recorded_of_measured (collects.measured wide)

variable (differ : unit.GuidsDiffer)

include differ

/-- The identifier of a symbol leads to its own summary only. -/
theorem Collects.symbol_eq {callee symbol : Global} {id : SummaryId} {summary : Summary}
    (inside : (symbol, id) ∈ collection.summarized)
    (found : collection.index.summaries[id.index]? = some summary)
    (named : unit.guidOf callee = .ok summary.guid)
    : symbol = callee := by
  obtain ⟨_, other, foundOther, summarizes⟩ := collects.made symbol id inside
  cases found.symm.trans foundOther
  have guid := summarizes.describes.guid
  exact differ symbol (mem_globals_of_guidOf guid) callee (mem_globals_of_guidOf named)
    (guid.trans named.symm)

theorem Collects.summariesOf_eq {symbol : Global} {id : SummaryId} {guid : Guid}
    (inside : (symbol, id) ∈ collection.summarized) (named : unit.guidOf symbol = .ok guid)
    : collection.index.summariesOf guid = [id] := by
  refine List.perm_singleton.mp ((List.perm_ext_iff_of_nodup
    (SummaryIndex.summariesOf_nodup _ guid) (List.nodup_singleton _)).mpr fun other => ?_)
  rw [SummaryIndex.mem_summariesOf, List.mem_singleton]
  constructor
  · rintro ⟨summary, found, rfl⟩
    obtain ⟨same, insideSame, _⟩ := collects.exists_symbol found
    obtain rfl := collects.symbol_eq differ insideSame found named
    exact collects.number_eq insideSame inside
  · rintro rfl
    obtain ⟨_, summary, found, summarizes⟩ := collects.made symbol other inside
    exact ⟨summary, found, Except.ok.inj (summarizes.describes.guid.symm.trans named)⟩

/-- A call that is bound in the index is bound in the module. -/
theorem Collects.boundFunction {callee : Global} {guid : Guid} {owner : String}
    {target : SummaryId} (named : unit.guidOf callee = .ok guid)
    (bound : collection.index.boundFunction guid owner = .ok (some target))
    : ∃ func, unit.boundFunction callee = .ok (some func)
      ∧ (.function func, target) ∈ collection.summarized := by
  obtain ⟨id, summary, found, rfl, resolved⟩ := SummaryIndex.exists_candidate bound
  obtain ⟨symbol, inside, _⟩ := collects.exists_symbol found
  obtain rfl := collects.symbol_eq differ inside found named
  obtain ⟨func, leads, reached⟩ := collects.leads _ inside resolved
  exact ⟨func, leads.boundFunction, reached⟩

end OneModule

end Module

end StackBounds
