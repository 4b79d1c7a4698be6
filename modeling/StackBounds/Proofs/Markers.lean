import StackBounds.Lifetime
import StackBounds.Proofs.Views
import StackBounds.Proofs.Computations

/-! Markers of allocations, through casts and offsets of zero: what they are without the analysis,
and that the analysis finds them unless the address of one comes back to a value that it passed.
-/

namespace StackBounds

open Relation (ReflTransGen TransGen)

-----------------------------------------------------------------------------------------
-- Markers, said without the analysis
-----------------------------------------------------------------------------------------

namespace Function

/-- A value is the address that another value is: a bit cast of it, or that address moved by zero.
-/
inductive SameAddress (func : Function) : ValueId → ValueId → Prop
  | bitcast {addr inst ty arg target}
    (value : func.value addr = .ok (.result inst ty))
    (op : func.inst inst = .ok (.cast .bitcast arg target))
    : func.SameAddress addr arg
  | ptrAdd {addr inst ty base number imm}
    (value : func.value addr = .ok (.result inst ty))
    (op : func.inst inst = .ok (.ptrAdd base number))
    (constant : func.value number = .ok (.constant imm))
    (zero : imm.toInt = 0)
    : func.SameAddress addr base

/-- No address comes back to itself through casts and offsets of zero. -/
def Acyclic (func : Function) : Prop := ∀ addr, ¬ TransGen func.SameAddress addr addr

/-- The chain of casts and offsets of zero from an address has a last value. -/
def ChainEnds (func : Function) (addr : ValueId) : Prop :=
  ∃ last, ReflTransGen func.SameAddress addr last ∧ ∀ source, ¬ func.SameAddress last source

/-- The chain of casts and offsets of zero from an address comes to a value that leads back to
itself.
-/
def Loops (func : Function) (addr : ValueId) : Prop :=
  ∃ value, ReflTransGen func.SameAddress addr value ∧ TransGen func.SameAddress value value

/-- A placed marker has the address. -/
def MarksAddress (func : Function) (addr : ValueId) : Prop :=
  ∃ inst ∈ func.placedInsts, ∃ op size, func.inst inst = .ok (.lifetime op size addr)

/-- A value is the address of an allocation, through casts and offsets of zero. -/
inductive NamesAlloca (func : Function) (alloca : InstId) : ValueId → Prop
  | alloca {addr ty elem count}
    (value : func.value addr = .ok (.result alloca ty))
    (op : func.inst alloca = .ok (.alloca elem count))
    : func.NamesAlloca alloca addr
  | same {addr source}
    (same : func.SameAddress addr source) (names : func.NamesAlloca alloca source)
    : func.NamesAlloca alloca addr

/-- An instruction is a marker of an allocation. -/
def Marks (func : Function) (inst alloca : InstId) (op : LifetimeOp) : Prop :=
  ∃ size addr, func.inst inst = .ok (.lifetime op size addr) ∧ func.NamesAlloca alloca addr

/-- A placed instruction is a marker of the allocation. -/
def IsMarked (func : Function) (alloca : InstId) : Prop :=
  ∃ inst ∈ func.placedInsts, ∃ op, func.Marks inst alloca op

/-- The markers among some instructions, in order, take an allocation from alive or dead to alive
or dead.
-/
inductive Runs (func : Function) (alloca : InstId) : Bool → List InstId → Bool → Prop
  | nil {alive} : func.Runs alloca alive [] alive
  | marker {before after inst rest op}
    (marks : func.Marks inst alloca op) (runs : func.Runs alloca (op == .start) rest after)
    : func.Runs alloca before (inst :: rest) after
  | other {before after inst rest}
    (unmarked : ∀ op, ¬ func.Marks inst alloca op) (runs : func.Runs alloca before rest after)
    : func.Runs alloca before (inst :: rest) after

/-- Every number in a function names a part of it. -/
structure Complete (func : Function) : Prop where
  placed : ∀ id ∈ func.placedInsts, ∃ inst, func.inst id = .ok inst
  operands : ∀ id inst, func.inst id = .ok inst
    → ∀ operand ∈ inst.operands, ∃ value, func.value operand = .ok value
  results : ∀ id inst ty, func.value id = .ok (.result inst ty) → ∃ op, func.inst inst = .ok op

-----------------------------------------------------------------------------------------
-- Finding the markers
-----------------------------------------------------------------------------------------

variable {func : Function} {addr source : ValueId} {alloca : InstId}

theorem isZero_eq_true_iff {id : ValueId}
    : func.isZero id = .ok true
      ↔ ∃ imm, func.value id = .ok (.constant imm) ∧ imm.toInt = 0 := by
  constructor
  · intro zero
    obtain ⟨value, found, zero⟩ := exists_of_bind_eq_ok zero
    cases value with
    | constant imm => exact ⟨imm, found, by simpa [Value.immediate?] using zero⟩
    | result inst ty => cases zero
    | argument ty index => cases zero
  · rintro ⟨imm, found, zero⟩
    simp [isZero, found, Value.immediate?, zero]

theorem markerSource_of_sameAddress (same : func.SameAddress addr source)
    : func.markerSource addr = .ok (.sameAs source) := by
  cases same with
  | bitcast value op => simp [markerSource, value, Value.inst?, op]
  | ptrAdd value op constant zero =>
      have isZero := isZero_eq_true_iff.mpr ⟨_, constant, zero⟩
      simp [markerSource, value, Value.inst?, op, isZero]

theorem sameAddress_rightUnique (func : Function) : Relator.RightUnique func.SameAddress := by
  intro addr first second same again
  have found := (markerSource_of_sameAddress same).symm.trans (markerSource_of_sameAddress again)
  cases found
  rfl

/-- A chain that has a last value never comes back. -/
theorem ChainEnds.not_loops (ends : func.ChainEnds addr) : ¬ func.Loops addr := by
  rintro ⟨value, chain, loop⟩
  obtain ⟨last, reaches, final⟩ := ends
  have unique := func.sameAddress_rightUnique
  obtain after | before := ReflTransGen.total_of_right_unique unique chain reaches
  · exact not_transGen_self unique after final loop
  · obtain rfl | ⟨source, same, _⟩ := before.cases_head
    · exact not_transGen_self unique .refl final loop
    · exact final source same

theorem markerSource_of_alloca {ty elem : Ty} {count : Option ValueId}
    (value : func.value addr = .ok (.result alloca ty))
    (op : func.inst alloca = .ok (.alloca elem count))
    : func.markerSource addr = .ok (.alloca alloca) := by
  simp [markerSource, value, Value.inst?, op]

/-- What a marker's address was found to be made of. -/
theorem markerSource_cases {found : MarkerSource} (result : func.markerSource addr = .ok found)
    : (∃ alloca ty elem count, found = .alloca alloca
        ∧ func.value addr = .ok (.result alloca ty)
        ∧ func.inst alloca = .ok (.alloca elem count))
      ∨ (∃ source, found = .sameAs source ∧ func.SameAddress addr source)
      ∨ found = .other := by
  obtain ⟨value, foundValue, result⟩ := exists_of_bind_eq_ok result
  cases value with
  | argument ty index =>
      cases result
      exact .inr (.inr rfl)
  | constant imm =>
      cases result
      exact .inr (.inr rfl)
  | result inst ty =>
      simp only [Value.inst?] at result
      obtain ⟨op, foundOp, result⟩ := exists_of_bind_eq_ok result
      split at result
      · cases result
        exact .inl ⟨inst, ty, _, _, rfl, foundValue, foundOp⟩
      · cases result
        exact .inr (.inl ⟨_, rfl, .bitcast foundValue foundOp⟩)
      · obtain ⟨isZero, foundZero, result⟩ := exists_of_bind_eq_ok result
        cases isZero with
        | false =>
            cases result
            exact .inr (.inr rfl)
        | true =>
            cases result
            obtain ⟨imm, constant, zero⟩ := isZero_eq_true_iff.mp foundZero
            exact .inr (.inl ⟨_, rfl, .ptrAdd foundValue foundOp constant zero⟩)
      · cases result
        exact .inr (.inr rfl)

/-- What is found is the allocation that the address names; by induction on the values that are
still fresh.
-/
theorem namesAlloca_of_markedAlloca {fresh : List ValueId}
    (result : func.markedAlloca fresh addr = .ok (some alloca))
    : func.NamesAlloca alloca addr := by
  induction fresh, addr using markedAlloca.induct with
  | case1 fresh addr ih =>
      rw [markedAlloca] at result
      obtain ⟨found, foundSource, result⟩ := exists_of_bind_eq_ok result
      rcases markerSource_cases foundSource with
        ⟨inst, ty, elem, count, rfl, value, op⟩ | ⟨source, rfl, same⟩ | rfl
      · cases result
        exact .alloca value op
      · simp only at result
        split at result
        · rename_i isFresh
          exact .same same (ih source isFresh result)
        · cases result
      · cases result

/-- The allocation that an address names is found, unless there is no answer. -/
theorem markedAlloca_of_namesAlloca {fresh : List ValueId} {found : Option InstId}
    (names : func.NamesAlloca alloca addr) (result : func.markedAlloca fresh addr = .ok found)
    : found = some alloca := by
  induction names generalizing fresh with
  | alloca value op =>
      rw [markedAlloca, markerSource_of_alloca value op] at result
      cases result
      rfl
  | same same _ ih =>
      rw [markedAlloca, markerSource_of_sameAddress same, ok_bind] at result
      simp only at result
      split at result
      · exact ih result
      · cases result

theorem Complete.markerSource (complete : func.Complete) {value : Value}
    (known : func.value addr = .ok value)
    : ∃ found, func.markerSource addr = .ok found := by
  cases value with
  | argument ty index => exact ⟨.other, by simp [Function.markerSource, known, Value.inst?]⟩
  | constant imm => exact ⟨.other, by simp [Function.markerSource, known, Value.inst?]⟩
  | result inst ty =>
      obtain ⟨op, foundOp⟩ := complete.results addr inst ty known
      simp only [Function.markerSource, known, ok_bind, Value.inst?, foundOp]
      split
      · exact ⟨_, rfl⟩
      · exact ⟨_, rfl⟩
      · rename_i base number
        obtain ⟨other, foundOther⟩ :=
          complete.operands inst _ foundOp number (by simp [Inst.operands])
        simp only [isZero, foundOther, ok_bind, pure_eq_ok]
        split
        · exact ⟨_, rfl⟩
        · exact ⟨_, rfl⟩
      · exact ⟨_, rfl⟩

/-- The values of a complete function stay complete along casts and offsets of zero. -/
theorem Complete.value_of_sameAddress (complete : func.Complete)
    (same : func.SameAddress addr source)
    : ∃ value, func.value source = .ok value := by
  cases same with
  | bitcast _ op => exact complete.operands _ _ op source (by simp [Inst.operands])
  | ptrAdd _ op _ _ => exact complete.operands _ _ op source (by simp [Inst.operands])

theorem mem_valueIds_of_value {id : ValueId} {value : Value} (found : func.value id = .ok value)
    : id ∈ func.valueIds := by
  have bound := (List.getElem?_eq_some_iff.mp (value_eq_ok_iff.mp found)).1
  exact List.mem_map.mpr ⟨id.index, List.mem_range.mpr bound, rfl⟩

/-- The search for an allocation ends with the chain, or stops at a value that leads back to itself:
the values that are no longer fresh all lead to the present one.
-/
theorem markedAlloca_cases (complete : func.Complete) {fresh : List ValueId} {value : Value}
    (found : func.value addr = .ok value)
    (trail : ∀ id ∈ func.valueIds, id ∉ fresh → TransGen func.SameAddress id addr)
    : (∃ answer, func.markedAlloca fresh addr = .ok answer ∧ func.ChainEnds addr)
      ∨ ∃ loop : ValueId, ReflTransGen func.SameAddress addr loop
        ∧ TransGen func.SameAddress loop loop
        ∧ func.markedAlloca fresh addr = .error (.endlessAddress loop.index) := by
  induction fresh, addr using markedAlloca.induct generalizing value with
  | case1 fresh addr ih =>
      obtain ⟨kind, foundKind⟩ := complete.markerSource found
      have last (other : ∀ source, kind ≠ .sameAs source) : func.ChainEnds addr :=
        ⟨addr, .refl, fun source same =>
          other source (Except.ok.inj (foundKind.symm.trans (markerSource_of_sameAddress same)))⟩
      rw [markedAlloca, foundKind, ok_bind]
      rcases markerSource_cases foundKind with
        ⟨inst, ty, elem, count, rfl, _, _⟩ | ⟨source, rfl, same⟩ | rfl
      · exact .inl ⟨_, rfl, last (by simp)⟩
      · by_cases isFresh : addr ∈ fresh
        · obtain ⟨next, foundNext⟩ := complete.value_of_sameAddress same
          simp only [dif_pos isFresh]
          have later := ih source isFresh foundNext fun id member stale => by
            by_cases now : id = addr
            · exact now ▸ .single same
            · refine (trail id member fun earlier => stale ?_).tail same
              exact (List.mem_erase_of_ne now).mpr earlier
          obtain ⟨answer, marked, last, chain, final⟩ | ⟨loop, chain, back, failed⟩ := later
          · exact .inl ⟨answer, marked, last, .head same chain, final⟩
          · exact .inr ⟨loop, .head same chain, back, failed⟩
        · simp only [dif_neg isFresh]
          exact .inr ⟨addr, .refl, trail addr (mem_valueIds_of_value found) isFresh, rfl⟩
      · exact .inl ⟨_, rfl, last (by simp)⟩

/-- Whether an instruction is a marker has an answer, unless its address loops. -/
theorem marker_cases (complete : func.Complete) {id : InstId} (placed : id ∈ func.placedInsts)
    : (∃ answer, func.marker? id = .ok answer
        ∧ ∀ op size addr, func.inst id = .ok (.lifetime op size addr) → func.ChainEnds addr)
      ∨ ∃ addr, ∃ loop : ValueId, func.MarksAddress addr
        ∧ ReflTransGen func.SameAddress addr loop ∧ TransGen func.SameAddress loop loop
        ∧ func.marker? id = .error (.endlessAddress loop.index) := by
  obtain ⟨inst, found⟩ := complete.placed id placed
  simp only [marker?, found, ok_bind]
  split
  · rename_i op size addr
    obtain ⟨value, foundValue⟩ := complete.operands id _ found addr (by simp [Inst.operands])
    obtain ⟨answer, marked, ends⟩ | ⟨loop, chain, back, failed⟩ :=
      markedAlloca_cases complete foundValue fun id member stale => absurd member stale
    · refine .inl ⟨_, by rw [marked, ok_bind, pure_eq_ok], ?_⟩
      rintro _ _ _ ⟨⟩
      exact ends
    · exact .inr ⟨addr, loop, ⟨id, placed, op, size, found⟩, chain, back, by rw [failed]; rfl⟩
  · rename_i unmarked
    refine .inl ⟨_, rfl, ?_⟩
    rintro op size addr ⟨⟩
    exact absurd rfl (unmarked op size addr)

/-- The markers are found, and then all their chains end, unless the address of one loops. -/
theorem markers_cases (complete : func.Complete)
    : (∃ markers, func.markers = .ok markers
        ∧ ∀ addr, func.MarksAddress addr → func.ChainEnds addr)
      ∨ ∃ addr, ∃ loop : ValueId, func.MarksAddress addr
        ∧ ReflTransGen func.SameAddress addr loop ∧ TransGen func.SameAddress loop loop
        ∧ func.markers = .error (.endlessAddress loop.index) := by
  cases result : func.markers with
  | ok markers =>
      refine .inl ⟨markers, rfl, ?_⟩
      rintro addr ⟨id, placed, op, size, found⟩
      obtain ⟨answer, answered⟩ := exists_of_filterMapM result placed
      obtain ⟨_, _, ends⟩ | ⟨_, _, _, _, _, failed⟩ := marker_cases complete placed
      · exact ends op size addr found
      · cases answered.symm.trans failed
  | error fault =>
      obtain ⟨id, placed, failed⟩ := exists_of_filterMapM_eq_error result
      obtain ⟨_, answered, _⟩ | ⟨addr, loop, marks, chain, back, again⟩ :=
        marker_cases complete placed
      · cases answered.symm.trans failed
      · cases failed.symm.trans again
        exact .inr ⟨addr, loop, marks, chain, back, rfl⟩

theorem marker_eq_some_iff {id : InstId} {answer : Option Marker} {marker : Marker}
    (result : func.marker? id = .ok answer)
    : answer = some marker ↔ marker.inst = id ∧ func.Marks id marker.alloca marker.op := by
  obtain ⟨inst, found, result⟩ := exists_of_bind_eq_ok result
  split at result
  · rename_i op size addr
    obtain ⟨named, marked, result⟩ := exists_of_bind_eq_ok result
    cases result
    constructor
    · intro same
      obtain ⟨alloca, rfl, rfl⟩ := Option.map_eq_some_iff.mp same
      exact ⟨rfl, size, addr, found, namesAlloca_of_markedAlloca marked⟩
    · rintro ⟨rfl, otherSize, other, foundOther, names⟩
      cases found.symm.trans foundOther
      rw [markedAlloca_of_namesAlloca names marked]
      rfl
  · rename_i unmarked
    cases result
    constructor
    · intro never
      cases never
    · rintro ⟨_, size, addr, foundOther, _⟩
      cases found.symm.trans foundOther
      exact absurd rfl (unmarked _ _ _)

/-- The markers that are found are the placed markers of allocations. -/
theorem mem_markers {markers : List Marker} (result : func.markers = .ok markers)
    {marker : Marker}
    : marker ∈ markers ↔ marker.inst ∈ func.placedInsts
        ∧ func.Marks marker.inst marker.alloca marker.op := by
  rw [mem_filterMapM result]
  constructor
  · rintro ⟨inst, placed, found⟩
    obtain ⟨rfl, marks⟩ := (marker_eq_some_iff found).mp rfl
    exact ⟨placed, marks⟩
  · rintro ⟨placed, marks⟩
    refine ⟨marker.inst, placed, ?_⟩
    obtain ⟨answer, found⟩ := exists_of_filterMapM result placed
    rw [found, (marker_eq_some_iff found).mpr ⟨rfl, marks⟩]

theorem Marks.op_unique {inst : InstId} {op other : LifetimeOp} (marks : func.Marks inst alloca op)
    (again : func.Marks inst alloca other)
    : op = other := by
  obtain ⟨_, _, found, _⟩ := marks
  obtain ⟨_, _, foundAgain, _⟩ := again
  cases found.symm.trans foundAgain
  rfl

/-- The markers among some instructions leave an allocation in one way only. -/
theorem Runs.unique {before after other : Bool} {insts : List InstId}
    (runs : func.Runs alloca before insts after) (again : func.Runs alloca before insts other)
    : after = other := by
  induction runs with
  | nil =>
      cases again
      rfl
  | marker marks _ ih =>
      cases again with
      | marker marksAgain later => exact ih (marks.op_unique marksAgain ▸ later)
      | other unmarked _ => exact absurd marks (unmarked _)
  | other unmarked _ ih =>
      cases again with
      | marker marks _ => exact absurd marks (unmarked _)
      | other _ later => exact ih later

theorem not_marks_of_inst {id : InstId} {inst : Inst} (found : func.inst id = .ok inst)
    (different : ∀ op size addr, inst ≠ .lifetime op size addr)
    : ∀ op, ¬ func.Marks id alloca op := by
  rintro op ⟨size, addr, marker, _⟩
  cases found.symm.trans marker
  exact different _ _ _ rfl

theorem mem_placedInsts_of_instsOf {block : BlockId} {inst : InstId}
    (member : inst ∈ func.instsOf block)
    : inst ∈ func.placedInsts := by
  unfold instsOf at member
  cases found : func.layout.find? fun placed => placed.id == block with
  | none => simp [found] at member
  | some placed =>
      rw [found, Option.map_some, Option.getD_some] at member
      exact List.mem_flatMap.mpr ⟨placed, List.mem_of_find?_eq_some found, member⟩

theorem mem_of_mem_upTo {inst other : InstId} {insts : List InstId}
    (member : other ∈ Lifetime.upTo inst insts)
    : other ∈ insts := by
  induction insts with
  | nil => cases member
  | cons head rest ih =>
      rw [Lifetime.upTo] at member
      split at member
      · exact List.mem_cons.mpr (.inl (List.mem_singleton.mp member))
      · rcases List.mem_cons.mp member with rfl | later
        · exact List.mem_cons_self
        · exact List.mem_cons_of_mem _ (ih later)

theorem mem_placedInsts_of_path {path : List BlockId} {block : BlockId} {inst other : InstId}
    (member : other ∈ path.flatMap func.instsOf ++ Lifetime.upTo inst (func.instsOf block))
    : other ∈ func.placedInsts := by
  rcases List.mem_append.mp member with before | here
  · obtain ⟨passed, _, member⟩ := List.mem_flatMap.mp before
    exact mem_placedInsts_of_instsOf member
  · exact mem_placedInsts_of_instsOf (mem_of_mem_upTo here)

end Function

end StackBounds
