import StackBounds.Proofs.Liveness
import StackBounds.Proofs.Storage

/-! Lifetimes in functions that builders make. Builders take the number of a value that is not there
yet as an operand, so a cast can be a cast of itself. The lifetimes of a function exist unless the
address of a marker leads to such a loop.
-/

namespace StackBounds

open Relation (ReflTransGen TransGen)

namespace Function

variable {func : Function} {addr : ValueId}

/-- Where all operands exist, nothing is missing from a function that builders made. -/
theorem complete_of_build {name : String} {target : Target} {commands : List Module.Command}
    {unit : Module} (built : Module.build name target commands = .ok unit)
    (member : func ∈ unit.functions)
    (operands : ∀ id inst, func.inst id = .ok inst
      → ∀ operand ∈ inst.operands, ∃ value, func.value operand = .ok value)
    : func.Complete := by
  obtain ⟨stored, consistent, rfl⟩ := Module.exists_stored_of_build built member
  refine ⟨fun id placed => ?_, operands, fun id inst ty found => ?_⟩
  · obtain ⟨block, listed, inside⟩ := List.mem_flatMap.mp placed
    rw [(StoredFunction.mem_layout.mp listed).2] at inside
    have stands := (consistent.standing id block.id).mpr inside
    exact exists_inst_iff.mpr ((consistent.placed id).mp ⟨_, stands⟩)
  · have result := (consistent.results inst id).mpr ⟨ty, value_eq_ok_iff.mp found⟩
    exact exists_inst_iff.mpr (consistent.made inst id result)

/-- A chain in a complete function ends unless it loops. -/
theorem Complete.chainEnds_iff (complete : func.Complete) {value : Value}
    (found : func.value addr = .ok value)
    : func.ChainEnds addr ↔ ¬ func.Loops addr := by
  refine ⟨ChainEnds.not_loops, fun straight => ?_⟩
  obtain ⟨_, _, ends⟩ | ⟨loop, chain, back, _⟩ :=
    markedAlloca_cases complete found fun id member stale => absurd member stale
  · exact ends
  · exact absurd ⟨loop, chain, back⟩ straight

/-- A loop passes a value that was made from itself or from a later one: the numbers cannot all go
down.
-/
theorem Loops.exists_later (loops : func.Loops addr)
    : ∃ value source, ReflTransGen func.SameAddress addr value
      ∧ func.SameAddress value source ∧ value.index ≤ source.index := by
  obtain ⟨loop, chain, back⟩ := loops
  by_contra none
  have earlier {value source : ValueId} (reached : ReflTransGen func.SameAddress addr value)
      (same : func.SameAddress value source)
      : source.index < value.index :=
    Nat.lt_of_not_le fun later => none ⟨value, source, reached, same, later⟩
  have descends {last : ValueId} (onward : TransGen func.SameAddress loop last)
      : last.index < loop.index := by
    induction onward with
    | single same => exact earlier chain same
    | tail onward same before =>
        exact Nat.lt_trans (earlier (chain.trans onward.to_reflTransGen) same) before
  exact Nat.lt_irrefl _ (descends back)

end Function

namespace Lifetime

/-- Lifetimes exist unless the address of a marker loops. In a function that builders made and whose
operands all exist, the chain of casts and offsets of zero from the address of a marker is finite
unless it loops, and the lifetimes exist exactly if no such chain does; nothing else goes wrong. A
loop takes a cast or an offset of zero of itself or of a value that was made later.
-/
theorem ofFunction_answers_unless_loops {name : String} {target : Target}
    {commands : List Module.Command} {unit : Module} {func : Function}
    (built : Module.build name target commands = .ok unit) (member : func ∈ unit.functions)
    (operands : ∀ id inst, func.inst id = .ok inst
      → ∀ operand ∈ inst.operands, ∃ value, func.value operand = .ok value)
    : (∀ addr, func.MarksAddress addr → (func.ChainEnds addr ↔ ¬ func.Loops addr))
      ∧ ((∃ lifetime, ofFunction func = .ok lifetime)
        ↔ ∀ addr, func.MarksAddress addr → ¬ func.Loops addr)
      ∧ (∀ fault, ofFunction func = .error fault
        → ∃ addr, ∃ loop : ValueId, func.MarksAddress addr
          ∧ ReflTransGen func.SameAddress addr loop ∧ TransGen func.SameAddress loop loop
          ∧ fault = .endlessAddress loop.index)
      ∧ ∀ addr, func.Loops addr
        → ∃ value source, ReflTransGen func.SameAddress addr value
          ∧ func.SameAddress value source ∧ value.index ≤ source.index := by
  have complete := Function.complete_of_build built member operands
  refine ⟨?_, ?_, ?_, fun addr loops => loops.exists_later⟩
  · rintro addr ⟨inst, _, op, size, found⟩
    obtain ⟨value, foundValue⟩ := operands inst _ found addr (by simp [Inst.operands])
    exact complete.chainEnds_iff foundValue
  · constructor
    · rintro ⟨lifetime, made⟩ addr marks
      obtain ⟨_, _, ends⟩ | ⟨_, _, _, _, _, failed⟩ := ofFunction_cases complete
      · exact (ends addr marks).not_loops
      · cases made.symm.trans failed
    · intro straight
      obtain ⟨lifetime, made, _⟩ | ⟨addr, loop, marks, chain, back, _⟩ := ofFunction_cases complete
      · exact ⟨lifetime, made⟩
      · exact absurd ⟨loop, chain, back⟩ (straight addr marks)
  · intro fault failed
    obtain ⟨_, made, _⟩ | ⟨addr, loop, marks, chain, back, again⟩ := ofFunction_cases complete
    · cases made.symm.trans failed
    · cases failed.symm.trans again
      exact ⟨addr, loop, marks, chain, back, rfl⟩

-----------------------------------------------------------------------------------------
-- Two functions
-----------------------------------------------------------------------------------------

theorem exists_operands {func : Function}
    (bounded : ∀ inst ∈ func.insts, ∀ operand ∈ inst.operands,
      operand.index < func.values.length)
    (id : InstId) (inst : Inst) (found : func.inst id = .ok inst)
    : ∀ operand ∈ inst.operands, ∃ value, func.value operand = .ok value := by
  intro operand used
  have present := List.mem_of_getElem? (Function.inst_eq_ok_iff.mp found)
  have bound := bounded inst present operand used
  exact ⟨_, Function.value_eq_ok_iff.mpr (List.getElem?_eq_getElem bound)⟩

/-- A module with a single function. -/
def around (func : Function) : Module := ⟨"m", ⟨.x86_64, .unknown, .linux⟩, [func], []⟩

/-- Appends the instructions of a function to one block. -/
def appending (func : Function) : List Build.Command :=
  [.appendBlock, .selectBlock ⟨0⟩] ++ func.insts.map .append ++ [.finish]

/-- Declares a function and writes it in one session. -/
def writing (func : Function) : List Module.Command :=
  [.declareFunction func.sig, .session ⟨0⟩ (appending func)]

/-- A marker of an allocation, through a cast that comes before it. -/
def castAhead : Function where
  sig := .declared "f" .exported [] .unit
  values := [.result ⟨0⟩ .ptr, .result ⟨1⟩ .ptr]
  insts := [.cast .bitcast ⟨1⟩ .ptr, .alloca .i64 none, .lifetime .start 8 ⟨0⟩, .ret none]
  blockCount := 1
  layout := [⟨⟨0⟩, [⟨0⟩, ⟨1⟩, ⟨2⟩, ⟨3⟩]⟩]

theorem castAhead_built
    : Module.build "m" ⟨.x86_64, .unknown, .linux⟩ (writing castAhead)
      = .ok (around castAhead) := by
  decide +kernel

/-- Witness: the cast names a later value, and the lifetimes exist. -/
theorem ofFunction_answers_unless_loops_castAhead
    : castAhead.MarksAddress ⟨0⟩ ∧ castAhead.SameAddress ⟨0⟩ ⟨1⟩
      ∧ ∃ lifetime, ofFunction castAhead = .ok lifetime := by
  obtain ⟨chains, answers, _⟩ := ofFunction_answers_unless_loops castAhead_built
    (List.mem_singleton.mpr rfl) (exists_operands (by decide))
  have same : castAhead.SameAddress ⟨0⟩ ⟨1⟩ := .bitcast rfl rfl
  refine ⟨⟨⟨2⟩, by decide, _, _, rfl⟩, same, answers.mpr fun addr marks => ?_⟩
  apply (chains addr marks).mp
  obtain ⟨⟨_ | _ | _ | _ | _⟩, _, _, _, found⟩ := marks <;> cases found
  refine ⟨⟨1⟩, .single same, ?_⟩
  rintro source (⟨value, op⟩ | ⟨value, op, _, _⟩) <;> cases value <;> cases op

/-- A marker of a cast of itself. -/
def selfCast : Function where
  sig := .declared "f" .exported [] .unit
  values := [.result ⟨0⟩ .ptr]
  insts := [.cast .bitcast ⟨0⟩ .ptr, .lifetime .start 8 ⟨0⟩, .ret none]
  blockCount := 1
  layout := [⟨⟨0⟩, [⟨0⟩, ⟨1⟩, ⟨2⟩]⟩]

theorem selfCast_built
    : Module.build "m" ⟨.x86_64, .unknown, .linux⟩ (writing selfCast) = .ok (around selfCast) := by
  decide +kernel

/-- A function whose operands all exist and whose lifetimes do not. -/
theorem exists_endless_selfCast
    : ∃ unit, Module.build "m" ⟨.x86_64, .unknown, .linux⟩ (writing selfCast) = .ok unit
      ∧ selfCast ∈ unit.functions
      ∧ (∀ id inst, selfCast.inst id = .ok inst
        → ∀ operand ∈ inst.operands, ∃ value, selfCast.value operand = .ok value)
      ∧ selfCast.MarksAddress ⟨0⟩ ∧ ¬ selfCast.ChainEnds ⟨0⟩
      ∧ ofFunction selfCast = .error (.endlessAddress 0) := by
  have operands := @exists_operands selfCast (by decide)
  have listed : selfCast ∈ (around selfCast).functions := List.mem_singleton.mpr rfl
  have marks : selfCast.MarksAddress ⟨0⟩ := ⟨⟨1⟩, by decide, _, _, rfl⟩
  have loops : selfCast.Loops ⟨0⟩ := ⟨⟨0⟩, .refl, .single (.bitcast rfl rfl)⟩
  have endless : ¬ selfCast.ChainEnds ⟨0⟩ := fun ends => ends.not_loops loops
  refine ⟨around selfCast, selfCast_built, listed, operands, marks, endless, ?_⟩
  obtain ⟨_, _, ends⟩ | ⟨addr, loop, _, _, back, failed⟩ :=
    ofFunction_cases (Function.complete_of_build selfCast_built listed operands)
  · exact absurd (ends ⟨0⟩ marks) endless
  · obtain ⟨source, same, _⟩ := TransGen.head'_iff.mp back
    have first : loop = ⟨0⟩ := by
      obtain ⟨_ | _⟩ := loop
      · rfl
      · rcases same with ⟨value, _⟩ | ⟨value, _, _, _⟩ <;> cases value
    rw [failed, first]

end Lifetime

end StackBounds
