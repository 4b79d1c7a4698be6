import StackBounds.Proofs.Analysis
import StackBounds.Proofs.Evaluation

/-! The local analysis has an answer for every function with a body, with one exception: it fails
at a memory operation through a tracked address whose length, read as signed, is always negative
and can be -1.
-/

namespace StackBounds

open Word (Valid Fits half)

-----------------------------------------------------------------------------------------
-- Failing under a condition
-----------------------------------------------------------------------------------------

/-- A computation fails under a condition, always with one fault, and has an answer otherwise. -/
structure FailsIff {α : Type} (fault : Fault) (condition : Prop) (result : Except Fault α)
    : Prop where
  fails : condition → result = .error fault
  answers : ¬ condition → ∃ answer, result = .ok answer

namespace FailsIff

variable {α β : Type} {fault : Fault} {condition other : Prop} {result : Except Fault α}

theorem of_answer (never : ¬ condition) (answer : ∃ answer, result = .ok answer)
    : FailsIff fault condition result :=
  ⟨fun holds => absurd holds never, fun _ => answer⟩

theorem congr (fails : FailsIff fault condition result) (same : condition ↔ other)
    : FailsIff fault other result :=
  ⟨fun holds => fails.fails (same.mpr holds), fun not => fails.answers (mt same.mp not)⟩

/-- What comes after an answer can fail too. -/
theorem bind {next : α → Except Fault β} (first : FailsIff fault condition result)
    (later : ∀ answer, result = .ok answer → FailsIff fault other (next answer))
    : FailsIff fault (condition ∨ other) (result >>= next) := by
  by_cases stops : condition
  · exact ⟨fun _ => by rw [first.fails stops]; rfl, fun not => absurd (Or.inl stops) not⟩
  · obtain ⟨answer, found⟩ := first.answers stops
    rw [found, ok_bind]
    refine (later answer found).congr ?_
    simp [stops]

theorem bind_answer {next : α → Except Fault β} (first : FailsIff fault condition result)
    (later : ∀ answer, result = .ok answer → ∃ final, next answer = .ok final)
    : FailsIff fault condition (result >>= next) := by
  refine (first.bind fun answer found => ?_).congr (or_false condition).to_iff
  exact of_answer not_false (later answer found)

/-- A loop whose steps fail under conditions that do not depend on the state fails when one of them
holds; by induction on the items.
-/
theorem foldlM {step : β → α → Traced β} {stops : α → Prop} {items : List α}
    (steps : ∀ state, ∀ item ∈ items, FailsIff fault (stops item) (step state item).result)
    (state : β)
    : FailsIff fault (∃ item ∈ items, stops item) (items.foldlM step state).result := by
  induction items generalizing state with
  | nil => exact of_answer (by simp) ⟨state, rfl⟩
  | cons item rest ih =>
      have later := ih fun state other member => steps state other (List.mem_cons_of_mem _ member)
      rw [List.foldlM_cons, Traced.result_bind]
      refine ((steps state item List.mem_cons_self).bind fun next _ => later next).congr ?_
      simp

end FailsIff

-----------------------------------------------------------------------------------------
-- Sizes
-----------------------------------------------------------------------------------------

/-- The positions inside an access of a known size are in order. -/
theorem Range.exists_positions {bits : UInt32} {size : Int} (valid : Valid bits)
    (positive : 0 ≤ size) (small : size < half bits)
    : ∃ positions, Range.ofSigned bits 0 size = .ok positions ∧ positions.OfWidth bits
      ∧ (positions.IsNone ∨ ¬ positions.Unusable) := by
  obtain ⟨positions, built, proper, notAll, elements⟩ := Range.ofSigned_spec valid
    (show Fits bits 0 by unfold Fits; omega) (show Fits bits size by unfold Fits; omega) positive
  refine ⟨positions, built, proper, ?_⟩
  by_cases none : positions.IsNone
  · exact Or.inl none
  refine Or.inr ?_
  rintro (isNone | all | wrapped)
  · exact none isNone
  · exact notAll all
  · -- Positions that pass the end of the signed numbers include the last one, which is too large.
    have fits := proper.wellFormed.fits_low
    have last := elements (half bits - 1)
    rw [proper.wellFormed.holds_iff_of_not_isAll notAll] at last
    rw [proper.bits_eq] at fits last
    unfold Fits at fits last
    omega

namespace Function

variable {func : Function} {pointer : PointerWidth}

theorem exists_allocaCount {count : Option ValueId}
    (found : ∀ id ∈ count, ∃ value, func.value id = .ok value)
    : ∃ answer, func.allocaCount count = .ok answer := by
  cases count with
  | none => exact ⟨_, rfl⟩
  | some id =>
      obtain ⟨value, foundValue⟩ := found id rfl
      exact ⟨_, by rw [allocaCount, foundValue, ok_bind, pure_eq_ok]⟩

theorem exists_allocaRange (complete : func.Complete) (pointer : PointerWidth) {inst : InstId}
    (placed : inst ∈ func.placedInsts)
    : ∃ range, func.allocaRange pointer inst = .ok range := by
  have valid := pointer.valid_bits
  have nothing : ∃ range, Range.empty pointer.bits = .ok range := ⟨_, Range.empty_eq valid⟩
  obtain ⟨op, found⟩ := complete.placed inst placed
  rw [allocaRange, found, ok_bind]
  cases op with
  | alloca ty count =>
      have present : ∀ id ∈ count, ∃ value, func.value id = .ok value := fun id member =>
        complete.operands inst _ found id (by simpa [Inst.operands] using member)
      obtain ⟨answer, counted⟩ := exists_allocaCount present
      simp only [valid.signedMax_eq, ok_bind]
      split
      · exact nothing
      split
      · rw [counted, ok_bind]
        cases answer with
        | none => exact nothing
        | some number =>
            simp only
            split
            · rename_i sized bounds
              obtain ⟨range, built, _⟩ := Range.exists_positions valid
                (Int.mul_nonneg (by omega) (Int.le_of_lt bounds.1))
                (Int.lt_of_le_of_lt bounds.2 (by omega))
              exact ⟨range, built⟩
            · exact nothing
      · exact nothing
  | _ => exact nothing

/-- The lengths that a number can be, at the width of pointers, are negative when they are read as
signed, up to -1.
-/
def EndsBelowZero (func : Function) (pointer : PointerWidth) (length : ValueId) : Prop :=
  ∃ number sizes, func.signedRange pointer length = .ok number
    ∧ number.resizeUnsigned pointer.bits = .ok sizes ∧ sizes.low < 0 ∧ sizes.high = 0

theorem endsBelowZero_iff {length : ValueId} {number sizes : Range}
    (evaluated : func.signedRange pointer length = .ok number)
    (resized : number.resizeUnsigned pointer.bits = .ok sizes)
    : func.EndsBelowZero pointer length ↔ sizes.low < 0 ∧ sizes.high = 0 := by
  constructor
  · rintro ⟨_, _, sameNumber, sameSizes, below⟩
    cases evaluated.symm.trans sameNumber
    cases resized.symm.trans sameSizes
    exact below
  · exact fun below => ⟨number, sizes, evaluated, resized, below⟩

end Function

namespace LocalAnalysis

section Effects

variable {analysis : LocalAnalysis} {lifetime : Lifetime} (reads : analysis.Reads lifetime)
  (complete : analysis.func.Complete) (typed : analysis.func.PicksTyped)

theorem exists_unknown (analysis : LocalAnalysis) : ∃ range, analysis.unknown = .ok range :=
  ⟨_, Range.full_eq analysis.pointer.valid_bits⟩

include reads complete typed

theorem exists_offset {addr : ValueId} {value : Value}
    (found : analysis.func.value addr = .ok value) (base : ValueId)
    : ∃ range, analysis.offset addr base = .ok range := by
  obtain ⟨range, located⟩ := Function.exists_offsetFrom complete typed analysis.pointer found base
  have answered : analysis.addresses.offsetFrom addr base = .ok range := by
    rw [reads.addresses]
    exact located
  obtain ⟨proper, _⟩ := offsetFrom_covers reads (Possible.closed_empty _ _) answered
  rw [offset, answered, ok_bind, proper.wellFormed.isUnusable_eq, ok_bind]
  split
  · exact analysis.exists_unknown
  · obtain ⟨resized, resizing, _⟩ :=
      Range.resizeSigned_spec proper.wellFormed analysis.pointer.valid_bits
    exact ⟨resized, resizing⟩

/-- An access whose positions are in order has a range. -/
theorem exists_accessRange {addr : ValueId} {value : Value} {positions : Range}
    (found : analysis.func.value addr = .ok value)
    (proper : positions.OfWidth analysis.pointer.bits)
    (ordered : positions.IsNone ∨ ¬ positions.Unusable) (base : ValueId)
    : ∃ range, analysis.accessRange addr base positions = .ok range := by
  unfold accessRange
  split
  · exact ⟨_, Range.empty_eq analysis.pointer.valid_bits⟩
  rename_i some
  have usable := ordered.resolve_left fun none => some (Range.isEmpty_iff.mpr none)
  obtain ⟨offsets, moved⟩ := exists_offset reads complete typed found base
  obtain ⟨properOffsets, _⟩ := offset_covers reads (Possible.closed_empty _ _) moved
  have passes : positions.isUnusable = .ok false :=
    proper.wellFormed.isUnusable_eq.trans (congrArg Except.ok (decide_eq_false usable))
  simp only [passes, moved, properOffsets.wellFormed.isUnusable_eq, ok_bind, Bool.false_eq_true,
    ↓reduceIte]
  split
  · exact analysis.exists_unknown
  obtain ⟨sum, summed, meets⟩ := Range.addSigned_spec properOffsets.wellFormed proper.wellFormed
    (proper.bits_eq.trans properOffsets.bits_eq.symm)
  rw [summed, ok_bind, meets.ofWidth.wellFormed.isUnusable_eq, ok_bind]
  split
  · exact analysis.exists_unknown
  · exact ⟨sum, rfl⟩

theorem exists_objectRange {addr : ValueId} {value : Value}
    (found : analysis.func.value addr = .ok value) (base : ValueId) (ty : Ty)
    : ∃ range, analysis.objectRange addr base ty = .ok range := by
  have valid := analysis.pointer.valid_bits
  rw [objectRange, valid.signedMax_eq, ok_bind]
  split
  · exact analysis.exists_unknown
  split
  · rename_i size _ small
    obtain ⟨positions, built, proper, ordered⟩ :=
      Range.exists_positions valid (Int.natCast_nonneg size) (Int.lt_of_le_of_lt small (by omega))
    rw [built, ok_bind]
    exact exists_accessRange reads complete typed found proper ordered base
  · exact analysis.exists_unknown

/-- A memory operation has a range exactly when its lengths do not end below zero. The last
position would be -2 there, which is not in order with the first one.
-/
theorem bulkRange_failsIff {addr length : ValueId} {value number : Value}
    (found : analysis.func.value addr = .ok value)
    (foundLength : analysis.func.value length = .ok number) (base : ValueId)
    : FailsIff .accessSize (analysis.func.EndsBelowZero analysis.pointer length)
        (analysis.bulkRange addr base length) := by
  have valid := analysis.pointer.valid_bits
  obtain ⟨range, evaluated, properRange⟩ := Function.exists_rangeOf complete typed
    analysis.pointer analysis.func.valueIds foundLength
  obtain ⟨sizes, resized, proper, _⟩ := Range.resizeUnsigned_spec properRange.wellFormed valid
  have answered : analysis.addresses.signedRange length = .ok range := by
    rw [reads.addresses]
    exact evaluated
  refine FailsIff.congr ?_ (Function.endsBelowZero_iff evaluated resized).symm
  rw [bulkRange, answered, ok_bind, resized, ok_bind, proper.wellFormed.signedUpper_eq, ok_bind]
  split
  · exact .of_answer (by omega) analysis.exists_unknown
  rename_i upward
  rw [proper.wellFormed.isUnusable_eq, ok_bind]
  split
  · rename_i unusable
    refine .of_answer (fun below => ?_) analysis.exists_unknown
    rcases of_decide_eq_true unusable with none | all | wrapped
    · have same := none.low_eq_high
      omega
    · have same := all.low_eq_high
      omega
    · omega
  rename_i usable
  have notNone : ¬ sizes.IsNone := fun none => usable (decide_eq_true (Or.inl none))
  have notAll : ¬ sizes.IsAll := fun all => usable (decide_eq_true (Or.inr (Or.inl all)))
  have straight : ¬ sizes.high < sizes.low := fun wrapped =>
    usable (decide_eq_true (Or.inr (Or.inr wrapped)))
  have differ := proper.wellFormed.low_ne_high notNone notAll
  by_cases zero : sizes.high = 0
  · refine ⟨fun _ => ?_, fun not => absurd ⟨by omega, zero⟩ not⟩
    have last : sizes.high - 1 = -1 := by omega
    obtain ⟨positions, built⟩ : ∃ positions,
        Range.ofSigned analysis.pointer.bits 0 (-1) = .ok positions := by
      cases analysis.pointer <;> exact ⟨_, rfl⟩
    rw [last, built, ok_bind, accessRange_ofSigned_neg_one built]
  · refine .of_answer (fun below => zero below.2) ?_
    have fits := proper.wellFormed.fits_high
    rw [proper.bits_eq] at fits
    unfold Fits at fits
    obtain ⟨positions, built, properPositions, ordered⟩ :=
      Range.exists_positions valid (show 0 ≤ sizes.high - 1 by omega) (by omega)
    rw [built, ok_bind]
    exact exists_accessRange reads complete typed found properPositions ordered base

theorem exists_callEffect {value : ValueId} {source : Value}
    (found : analysis.func.value value = .ok source) (base : ValueId) (operand : Nat) (call : Call)
    : ∃ effect, analysis.callEffect base value operand call = .ok effect := by
  unfold callEffect
  split
  · cases call.byValueTy? operand with
    | some ty =>
        obtain ⟨range, computed⟩ := exists_objectRange reads complete typed found base ty
        exact ⟨.access range, by simp only [computed, ok_bind, pure_eq_ok]⟩
    | none =>
        cases call.target with
        | direct callee =>
            obtain ⟨offset, moved⟩ := exists_offset reads complete typed found base
            obtain ⟨_, some, _⟩ := offset_covers reads (Possible.closed_empty _ _) moved
            have made : Forward.make callee (UInt32.ofNat operand) offset
                = .ok ⟨callee, UInt32.ofNat operand, offset⟩ :=
              if_neg fun none => some (Range.isEmpty_iff.mp none)
            exact ⟨.forward _, by simp only [moved, made, ok_bind, pure_eq_ok]; rfl⟩
        | indirect callee => exact ⟨_, rfl⟩
  · exact ⟨_, rfl⟩

end Effects

-----------------------------------------------------------------------------------------
-- Uses that fail
-----------------------------------------------------------------------------------------

/-- A use is the address of a memory operation whose lengths end below zero, while the tracked
allocation is alive.
-/
def Hits (analysis : LocalAnalysis) (alloca : Option InstId) (site : UseSite) : Prop :=
  ∃ op length, analysis.func.inst site.inst = .ok op
    ∧ op.role site.operand = .access (.bulk length)
    ∧ analysis.isAlive alloca site.inst = true
    ∧ analysis.func.EndsBelowZero analysis.pointer length

/-- One of the uses hits such an operation, and none before it lets the address out of sight. -/
inductive Meets (analysis : LocalAnalysis) (base : ValueId) (alloca : Option InstId)
    : List (ValueId × UseSite) → Prop
  | here {value site rest} (hits : analysis.Hits alloca site)
    : analysis.Meets base alloca ((value, site) :: rest)
  | later {value site rest effect}
    (computed : analysis.effect base alloca value site = .ok effect)
    (stays : ∀ cause, effect ≠ .escape cause) (met : analysis.Meets base alloca rest)
    : analysis.Meets base alloca ((value, site) :: rest)

theorem Meets.exists_hits {analysis : LocalAnalysis} {base : ValueId} {alloca : Option InstId}
    {sites : List (ValueId × UseSite)} (met : analysis.Meets base alloca sites)
    : ∃ entry ∈ sites, analysis.Hits alloca entry.2 := by
  induction met with
  | here hits => exact ⟨_, List.mem_cons_self, hits⟩
  | later _ _ _ ih =>
      obtain ⟨entry, member, hits⟩ := ih
      exact ⟨entry, List.mem_cons_of_mem _ member, hits⟩

section Uses

variable {analysis : LocalAnalysis} {lifetime : Lifetime} {base value : ValueId}
  {alloca : Option InstId} {site : UseSite} {op : Inst}

theorem hits_iff (found : analysis.func.inst site.inst = .ok op)
    : analysis.Hits alloca site ↔ ∃ length, op.role site.operand = .access (.bulk length)
      ∧ analysis.isAlive alloca site.inst = true
      ∧ analysis.func.EndsBelowZero analysis.pointer length := by
  constructor
  · rintro ⟨_, length, foundOther, hits⟩
    cases found.symm.trans foundOther
    exact ⟨length, hits⟩
  · rintro ⟨length, hits⟩
    exact ⟨op, length, found, hits⟩

theorem not_hits_of_role (found : analysis.func.inst site.inst = .ok op)
    (other : ∀ length, op.role site.operand ≠ .access (.bulk length))
    : ¬ analysis.Hits alloca site := by
  rw [hits_iff found]
  rintro ⟨length, accesses, _⟩
  exact other length accesses

variable (reads : analysis.Reads lifetime) (complete : analysis.func.Complete)
  (typed : analysis.func.PicksTyped)

include reads complete typed

theorem bulk_failsIff {length : ValueId} {source number : Value} {dead : Escape}
    {address : Prop} [Decidable address]
    (found : analysis.func.inst site.inst = .ok op)
    (role : op.role site.operand = if address then .access (.bulk length) else .other)
    (foundValue : analysis.func.value value = .ok source)
    (foundLength : analysis.func.value length = .ok number)
    : FailsIff .accessSize (analysis.Hits alloca site)
        (if !analysis.isAlive alloca site.inst then pure (.escape dead)
        else if address then do pure (.access (← analysis.bulkRange value base length))
        else pure .harmless : Except Fault Effect) := by
  have hits : analysis.Hits alloca site ↔ _ := hits_iff found
  split
  · rename_i ended
    refine .of_answer (fun hit => ?_) ⟨_, rfl⟩
    obtain ⟨_, _, alive, _⟩ := hits.mp hit
    simp [alive] at ended
  rename_i alive
  rw [Bool.not_eq_true', Bool.not_eq_false] at alive
  split
  · rename_i points
    rw [if_pos points] at role
    refine ((bulkRange_failsIff reads complete typed foundValue foundLength base).congr
      ?_).bind_answer fun range _ => ⟨_, rfl⟩
    rw [hits]
    constructor
    · exact fun ends => ⟨length, role, alive, ends⟩
    · rintro ⟨_, same, _, ends⟩
      cases role.symm.trans same
      exact ends
  · rename_i other
    refine .of_answer (not_hits_of_role found fun length accesses => ?_) ⟨_, rfl⟩
    rw [if_neg other] at role
    cases role.symm.trans accesses

/-- The effect of a use has an answer exactly when the use does not hit an operation whose lengths
end below zero; one case for each instruction.
-/
theorem effect_failsIff (found : analysis.func.inst site.inst = .ok op)
    (operand : op.operands[site.operand]? = some value)
    : FailsIff .accessSize (analysis.Hits alloca site)
        (analysis.effect base alloca value site) := by
  have exists_value (input : ValueId) (member : input ∈ op.operands)
      : ∃ source, analysis.func.value input = .ok source :=
    complete.operands site.inst op found input member
  obtain ⟨source, foundValue⟩ := exists_value value (List.mem_of_getElem? operand)
  have object (ty : Ty) : ∃ effect, (do pure (.access (← analysis.objectRange value base ty)))
      = (.ok effect : Except Fault Effect) := by
    obtain ⟨range, computed⟩ := exists_objectRange reads complete typed foundValue base ty
    exact ⟨.access range, by rw [computed, ok_bind, pure_eq_ok]⟩
  have called (call : Call) (role : op.role site.operand = call.role site.operand)
      : FailsIff .accessSize (analysis.Hits alloca site)
          (if analysis.isAlive alloca site.inst then
            analysis.callEffect base value site.operand call
          else pure (.escape .callDead)) := by
    refine .of_answer (not_hits_of_role found fun length => ?_) ?_
    · exact role ▸ Call.role_ne_bulk call _ length
    · split
      · exact exists_callEffect reads complete typed foundValue base _ call
      · exact ⟨_, rfl⟩
  rw [LocalAnalysis.effect, found, ok_bind]
  cases op with
  | load addr ty =>
      refine .of_answer (not_hits_of_role found fun _ accesses => by cases accesses) ?_
      simp only
      split
      · exact object ty
      · exact ⟨_, rfl⟩
  | store addr stored =>
      refine .of_answer (not_hits_of_role found fun length accesses => ?_) ?_
      · simp only [Inst.role] at accesses
        split at accesses <;> cases accesses
      · simp only
        split
        · exact ⟨_, rfl⟩
        split
        · obtain ⟨storedValue, foundStored⟩ := exists_value stored (by simp [Inst.operands])
          rw [Function.valueTy, foundStored, ok_bind, pure_eq_ok, ok_bind]
          exact object _
        · exact ⟨_, rfl⟩
  | memTransfer op dest src length =>
      obtain ⟨number, foundLength⟩ := exists_value length (by simp [Inst.operands])
      exact bulk_failsIff reads complete typed found rfl foundValue foundLength
  | memSet dest written length =>
      obtain ⟨number, foundLength⟩ := exists_value length (by simp [Inst.operands])
      exact bulk_failsIff reads complete typed found rfl foundValue foundLength
  | call made => exact called made rfl
  | invoke made normal unwind => exact called made rfl
  | _ =>
      exact .of_answer (not_hits_of_role found fun _ accesses => by cases accesses) ⟨_, rfl⟩

omit reads complete typed in
theorem meets_cons_iff {rest : List (ValueId × UseSite)} {effect : Effect}
    (computed : analysis.effect base alloca value site = .ok effect)
    (passes : ¬ analysis.Hits alloca site)
    : analysis.Meets base alloca ((value, site) :: rest)
      ↔ (∀ cause, effect ≠ .escape cause) ∧ analysis.Meets base alloca rest := by
  constructor
  · rintro (⟨hits⟩ | ⟨same, stays, met⟩)
    · exact absurd hits passes
    · cases computed.symm.trans same
      exact ⟨stays, met⟩
  · rintro ⟨stays, met⟩
    exact .later computed stays met

/-- Adding up the effects of uses has an answer exactly when none of them fails before the walk
ends; by induction on the uses.
-/
theorem collect_failsIff {sites : List (ValueId × UseSite)} {usage : Usage Global}
    (wf : usage.WellFormed analysis.pointer.bits)
    (standing : ∀ entry ∈ sites, entry.2 ∈ analysis.func.uses entry.1)
    : FailsIff .accessSize (analysis.Meets base alloca sites)
        (analysis.collect base alloca usage sites).result := by
  have closed := Possible.closed_empty analysis.func analysis.pointer
  induction sites generalizing usage with
  | nil => exact .of_answer (fun met => by cases met) ⟨_, rfl⟩
  | cons entry rest ih =>
      obtain ⟨value, site⟩ := entry
      obtain ⟨op, found, operand⟩ := Function.mem_uses.mp (standing _ List.mem_cons_self)
      have first : FailsIff .accessSize (analysis.Hits alloca site)
          (analysis.effect base alloca value site) :=
        effect_failsIff reads complete typed found operand
      rw [collect, Traced.result_bind, Traced.result_liftM]
      by_cases hits : analysis.Hits alloca site
      · rw [first.fails hits]
        exact ⟨fun _ => rfl, fun not => absurd (.here hits) not⟩
      obtain ⟨effect, computed⟩ := first.answers hits
      have continues {next : Usage Global} (wfNext : next.WellFormed analysis.pointer.bits)
          (stays : ∀ cause, effect ≠ .escape cause)
          : FailsIff .accessSize
              ((∀ cause, effect ≠ .escape cause) ∧ analysis.Meets base alloca rest)
              (analysis.collect base alloca next rest).result :=
        (ih wfNext fun entry member => standing entry (List.mem_cons_of_mem _ member)).congr
          ⟨fun met => ⟨stays, met⟩, And.right⟩
      rw [computed, ok_bind]
      refine FailsIff.congr ?_ (meets_cons_iff computed hits).symm
      cases effect_reflects found operand computed with
      | escape cause stands escapes =>
          refine .of_answer (fun met => met.1 cause rfl) ?_
          obtain ⟨unknown, forgotten⟩ := wf.exists_forget
          simp only [Traced.result_bind, Traced.result_emit, Traced.result_liftM,
            Traced.result_pure, forgotten, ok_bind]
          exact ⟨_, rfl⟩
      | harmless other alive => exact continues wf fun _ escapes => by cases escapes
      | access accesses alive computedRange =>
          have proper := extentRange_ofWidth reads.proper computedRange
          obtain ⟨widened, widening⟩ := wf.exists_widen proper
          obtain ⟨wfWidened, _⟩ := wf.of_widen proper widening
          simp only [Traced.result_bind, Traced.result_liftM, widening, ok_bind]
          exact continues wfWidened fun _ escapes => by cases escapes
      | forward passes alive moved made =>
          have properOffset := offset_ofWidth reads.proper moved
          exact continues (wf.append_call properOffset made) fun _ escapes => by cases escapes

theorem track_failsIff (base : ValueId) (alloca : Option InstId)
    : FailsIff .accessSize (analysis.Meets base alloca (analysis.sites base))
        (analysis.track base alloca).result := by
  have proper := Range.ofWidth_bottom analysis.pointer.valid_bits
  rw [result_track]
  exact collect_failsIff reads complete typed ⟨proper, by simp, by simp⟩
    fun _ => mem_uses_of_sites

omit complete typed in
/-- What is tracked can be written out. -/
theorem exists_text_of_track {tracked : Tracked}
    (tracking : (analysis.track base alloca).result = .ok tracked)
    : ∃ text, tracked.usage.range.text = .ok text := by
  obtain ⟨wf, _⟩ := track_keeps reads.proper tracking
  exact wf.range.wellFormed.exists_text

theorem trackAlloca_failsIff (allocas : Table InstId (Usage Global)) {inst : InstId}
    (placed : inst ∈ analysis.func.placedInsts)
    : FailsIff .accessSize
        (∃ base, analysis.func.Allocates analysis.pointer inst
          ∧ analysis.func.resultOf inst = some base
          ∧ analysis.Meets base (some inst) (analysis.sites base))
        (analysis.trackAlloca allocas inst).result := by
  obtain ⟨range, sized⟩ := Function.exists_allocaRange complete analysis.pointer placed
  simp only [trackAlloca, Traced.result_bind, Traced.result_liftM, sized, ok_bind]
  split
  · rename_i untracked
    refine .of_answer ?_ ⟨_, rfl⟩
    rintro ⟨base, ⟨_, same, some⟩, result, _⟩
    cases sized.symm.trans same
    rw [if_neg fun none => some (Range.isEmpty_iff.mp none), result] at untracked
    cases untracked
  · rename_i base found
    split at found
    · cases found
    rename_i some
    have allocates : analysis.func.Allocates analysis.pointer inst :=
      ⟨range, sized, fun none => some (Range.isEmpty_iff.mpr none)⟩
    simp only [Traced.result_bind, Traced.result_liftM, Traced.result_emit, Traced.result_pure]
    refine ((track_failsIff reads complete typed base _).congr ?_).bind_answer
      fun tracked tracking => ?_
    · constructor
      · exact fun met => ⟨base, allocates, found, met⟩
      · rintro ⟨_, _, same, met⟩
        cases found.symm.trans same
        exact met
    · obtain ⟨text, written⟩ := exists_text_of_track reads tracking
      exact ⟨_, by rw [written, ok_bind, ok_bind]⟩

theorem trackParam_failsIff (params : Table UInt32 (Usage Global)) (param : Ty × Nat)
    : FailsIff .accessSize
        (analysis.takes param = true
          ∧ analysis.Meets ⟨param.2⟩ none (analysis.sites ⟨param.2⟩))
        (analysis.trackParam params param).result := by
  unfold trackParam
  split
  · rename_i taken
    simp only [Traced.result_bind, Traced.result_liftM, Traced.result_emit, Traced.result_pure]
    refine ((track_failsIff reads complete typed _ _).congr ?_).bind_answer
      fun tracked tracking => ?_
    · exact ⟨fun met => ⟨taken, met⟩, And.right⟩
    · obtain ⟨text, written⟩ := exists_text_of_track reads tracking
      exact ⟨_, by rw [written, ok_bind, ok_bind]⟩
  · rename_i untaken
    exact .of_answer (fun met => untaken met.1) ⟨_, rfl⟩

end Uses

-----------------------------------------------------------------------------------------
-- The whole analysis
-----------------------------------------------------------------------------------------

/-- The analysis tracks an address: the result of an instruction that makes room, or a parameter.
-/
inductive Tracks (analysis : LocalAnalysis) : ValueId → Option InstId → Prop
  | allocation {inst base}
    (placed : inst ∈ analysis.func.placedInsts)
    (allocates : analysis.func.Allocates analysis.pointer inst)
    (result : analysis.func.resultOf inst = some base)
    : analysis.Tracks base (some inst)
  | parameter {param} (takes : analysis.func.sig.Takes param) : analysis.Tracks ⟨param⟩ none

/-- The uses of a tracked address meet a memory operation whose lengths end below zero. -/
def MeetsNegative (analysis : LocalAnalysis) : Prop :=
  ∃ base alloca, analysis.Tracks base alloca
    ∧ analysis.Meets base alloca (analysis.sites base)

theorem meetsNegative_iff (analysis : LocalAnalysis)
    : analysis.MeetsNegative
      ↔ (∃ inst ∈ analysis.func.placedInsts, ∃ base,
          analysis.func.Allocates analysis.pointer inst ∧ analysis.func.resultOf inst = some base
          ∧ analysis.Meets base (some inst) (analysis.sites base))
        ∨ ∃ item ∈ analysis.func.sig.params.zipIdx, analysis.takes item = true
          ∧ analysis.Meets ⟨item.2⟩ none (analysis.sites ⟨item.2⟩) := by
  constructor
  · rintro ⟨_, _, ⟨placed, allocates, result⟩ | @⟨param, isPointer, owned⟩, met⟩
    · exact Or.inl ⟨_, placed, _, allocates, result, met⟩
    · refine Or.inr ⟨(.ptr, param), List.mem_zipIdx_iff_getElem?.mpr isPointer, ?_, met⟩
      simp [takes, owned, Ty.isPointer]
  · rintro (⟨inst, placed, base, allocates, result, met⟩ | ⟨⟨ty, param⟩, inside, taken, met⟩)
    · exact ⟨base, _, .allocation placed allocates result, met⟩
    · exact ⟨_, _, .parameter (signature_takes (List.mem_zipIdx_iff_getElem?.mp inside) taken), met⟩

theorem run_failsIff {analysis : LocalAnalysis} {lifetime : Lifetime}
    (reads : analysis.Reads lifetime) (complete : analysis.func.Complete)
    (typed : analysis.func.PicksTyped) (body : analysis.func.isDeclaration = false)
    : FailsIff .accessSize analysis.MeetsNegative analysis.run.result := by
  have allocations := FailsIff.foldlM (fun allocas inst placed =>
    trackAlloca_failsIff reads complete typed allocas placed) Table.empty
  have parameters := FailsIff.foldlM
    (fun params item (_ : item ∈ analysis.func.sig.params.zipIdx) =>
      trackParam_failsIff reads complete typed params item) Table.empty
  rw [run, if_neg (by simp [body])]
  simp only [Traced.result_bind, Traced.result_emit, Traced.result_pure, ok_bind]
  refine FailsIff.congr ?_ analysis.meetsNegative_iff.symm
  exact allocations.bind fun _ _ => parameters.bind_answer fun _ _ => ⟨_, rfl⟩

/-- A function with a body whose numbers all name something, whose picks have the type of the
result and whose addresses do not come back to themselves has a local analysis. It runs to the end
unless the uses of a tracked address meet a memory operation whose lengths end below zero, and
fails there.
-/
theorem run_answers_unless_meetsNegative {func : Function} (body : func.isDeclaration = false)
    (complete : func.Complete) (typed : func.PicksTyped) (acyclic : func.Acyclic)
    (pointer : PointerWidth)
    : ∃ analysis, ofFunction func pointer = .ok analysis
      ∧ (¬ analysis.MeetsNegative → ∃ usages, analysis.run.result = .ok usages)
      ∧ (analysis.MeetsNegative → analysis.run.result = .error .accessSize) := by
  obtain ⟨lifetime, found⟩ := Lifetime.exists_ofFunction complete acyclic
  obtain ⟨analysis, made⟩ : ∃ analysis, ofFunction func pointer = .ok analysis :=
    ⟨_, by rw [ofFunction, found, ok_bind, pure_eq_ok]⟩
  obtain ⟨rfl, rfl, _, reads⟩ := reads_of_ofFunction made
  have outcome := run_failsIff reads complete typed body
  exact ⟨analysis, made, outcome.answers, outcome.fails⟩

/-- Wipes an allocation of eight bytes with a length of minus one or another number. -/
def wipe (length : Int64) : Function where
  sig := .declared "f" .exported [.i1] .unit
  values := [.argument .i1 0, .result ⟨0⟩ .ptr, .constant (.i64 (-1)), .constant (.i64 length),
    .constant (.i8 0), .result ⟨1⟩ .i64]
  insts := [.alloca .i64 none, .select ⟨0⟩ ⟨2⟩ ⟨3⟩, .memSet ⟨1⟩ ⟨4⟩ ⟨5⟩, .ret none]
  blockCount := 1
  layout := [⟨⟨0⟩, [⟨0⟩, ⟨1⟩, ⟨2⟩, ⟨3⟩]⟩]

theorem wipe_complete (length : Int64) : (wipe length).Complete := by
  refine ⟨fun id placed => ?_, fun id inst found operand member => ?_, fun id inst ty found => ?_⟩
  · have small : id.index < 4 := by
      simp only [Function.placedInsts, wipe, List.flatMap_cons, List.flatMap_nil, List.append_nil,
        List.mem_cons, List.not_mem_nil, or_false] at placed
      rcases placed with rfl | rfl | rfl | rfl <;> decide
    exact ⟨_, Function.inst_eq_ok_iff.mpr (List.getElem?_eq_getElem small)⟩
  · have listed := List.mem_of_getElem? (Function.inst_eq_ok_iff.mp found)
    have small : operand.index < 6 := by
      simp only [wipe, List.mem_cons, List.not_mem_nil, or_false] at listed
      rcases listed with rfl | rfl | rfl | rfl
      all_goals
        revert operand
        decide
    exact ⟨_, Function.value_eq_ok_iff.mpr (List.getElem?_eq_getElem small)⟩
  · obtain ⟨_ | _ | _ | _ | _ | _ | index⟩ := id <;> cases found <;> exact ⟨_, rfl⟩

theorem wipe_picksTyped (length : Int64) : (wipe length).PicksTyped := by
  intro addr input inst ty value picks found foundInput
  cases picks with
  | select same op taken =>
      obtain ⟨_ | _ | _ | _ | _ | _ | index⟩ := addr <;> cases same <;> cases op
      cases found
      simp only [List.mem_cons, List.not_mem_nil, or_false] at taken
      rcases taken with rfl | rfl <;> cases foundInput <;> rfl
  | phi same op taken =>
      obtain ⟨_ | _ | _ | _ | _ | _ | index⟩ := addr <;> cases same <;> cases op

theorem wipe_acyclic (length : Int64) : (wipe length).Acyclic := by
  have never (addr source : ValueId) : ¬ (wipe length).SameAddress addr source := by
    intro same
    cases same with
    | bitcast value op =>
        obtain ⟨_ | _ | _ | _ | _ | _ | index⟩ := addr <;> cases value <;> cases op
    | ptrAdd value op _ _ =>
        obtain ⟨_ | _ | _ | _ | _ | _ | index⟩ := addr <;> cases value <;> cases op
  intro addr cycle
  obtain ⟨source, _, same⟩ := Relation.TransGen.tail'_iff.mp cycle
  exact never source addr same

/-- A length of minus one or minus two ends below zero, so the analysis fails: it takes the last
position of the access to be minus two.
-/
theorem exists_complete_failing_wipe
    : (wipe (-2)).isDeclaration = false ∧ (wipe (-2)).Complete ∧ (wipe (-2)).PicksTyped
      ∧ (wipe (-2)).Acyclic
      ∧ ∃ analysis, ofFunction (wipe (-2)) .w64 = .ok analysis
        ∧ analysis.run.result = .error .accessSize := by
  have straight : (wipe (-2)).IsStraight ⟨⟨0⟩, [⟨0⟩, ⟨1⟩, ⟨2⟩, ⟨3⟩]⟩ := ⟨rfl, rfl, rfl⟩
  let lifetime := Lifetime.straight (wipe (-2)) ⟨0⟩
  let analysis : LocalAnalysis := ⟨wipe (-2), .w64,
    ⟨lifetime.isReachable, lifetime.isAliveAfter⟩,
    ⟨(wipe (-2)).offsetFrom .w64, (wipe (-2)).signedRange .w64⟩⟩
  have made : ofFunction (wipe (-2)) .w64 = .ok analysis := by
    rw [ofFunction, straight.lifetime, ok_bind, pure_eq_ok]
  exact ⟨rfl, wipe_complete _, wipe_picksTyped _, wipe_acyclic _, analysis, made, by decide +kernel⟩

/-- Witness: a length of minus one or four does not end below zero, so the analysis runs to the end.
-/
theorem run_answers_unless_meetsNegative_wipe
    : (wipe 4).isDeclaration = false ∧ (wipe 4).Complete ∧ (wipe 4).PicksTyped
      ∧ (wipe 4).Acyclic
      ∧ ∃ analysis, ofFunction (wipe 4) .w64 = .ok analysis
        ∧ ∃ usages, analysis.run.result = .ok usages := by
  have body : (wipe 4).isDeclaration = false := rfl
  obtain ⟨analysis, made, answers, _⟩ := run_answers_unless_meetsNegative body (wipe_complete 4)
    (wipe_picksTyped 4) (wipe_acyclic 4) .w64
  refine ⟨body, wipe_complete 4, wipe_picksTyped 4, wipe_acyclic 4, analysis, made, answers ?_⟩
  rintro ⟨base, alloca, _, met⟩
  obtain ⟨entry, _, op, length, found, accesses, _, ends⟩ := met.exists_hits
  obtain ⟨same, pointer, _⟩ := reads_of_ofFunction made
  rw [same] at found ends
  rw [pointer] at ends
  -- The only memory operation has the picked number as its length.
  have picked : length = ⟨5⟩ := by
    generalize entry.2.inst = inst at found
    obtain ⟨_ | _ | _ | _ | _⟩ := inst <;> cases found <;> try cases accesses
    simp only [Inst.role] at accesses
    split at accesses <;> cases accesses
    rfl
  subst picked
  obtain ⟨number, sizes, evaluated, resized, _, zero⟩ := ends
  have between : (wipe 4).signedRange .w64 ⟨5⟩ = .ok ⟨64, -1, 5⟩ := by decide +kernel
  cases between.symm.trans evaluated
  have kept : (Range.mk 64 (-1) 5).resizeUnsigned 64 = .ok ⟨64, -1, 5⟩ := by decide +kernel
  cases kept.symm.trans resized
  revert zero
  decide +kernel

end LocalAnalysis

end StackBounds
