import StackBounds.Proofs.Addresses
import StackBounds.Proofs.Endings

/-! The numbers and addresses of a function have answers: every operation on ranges that they come
to is given bounds in order, and ranges of one width unless values of different widths are merged.
-/

namespace StackBounds

open Relation (ReflTransGen)
open Word (Valid Fits)

theorem Range.WellFormed.exists_text {range : Range} (wf : range.WellFormed)
    : ∃ text, range.text = .ok text := by
  rw [Range.text, wf.isFull_eq, ok_bind]
  split
  · exact ⟨_, rfl⟩
  split
  · exact ⟨_, rfl⟩
  · exact ⟨_, by rw [wf.signedLower_eq, ok_bind, wf.signedUpper_eq, ok_bind, pure_eq_ok]⟩

-----------------------------------------------------------------------------------------
-- Outcomes
-----------------------------------------------------------------------------------------

/-- A computation has an answer with a property, or there is a cause and two widths do not match. -/
inductive Outcome {α : Type} (cause : Prop) (good : α → Prop) : Except Fault α → Prop
  | answer {answer : α} (holds : good answer) : Outcome cause good (.ok answer)
  | mismatch {left right : UInt32} (given : cause) (differ : left ≠ right)
    : Outcome cause good (.error (.widthMismatch left right))

namespace Outcome

variable {α β : Type} {cause : Prop} {good : α → Prop} {computed : Except Fault α}

theorem of_exists (answered : ∃ answer, computed = .ok answer ∧ good answer)
    : Outcome cause good computed := by
  obtain ⟨answer, rfl, holds⟩ := answered
  exact .answer holds

theorem exists_ok (outcome : Outcome cause good computed) (sound : ¬ cause)
    : ∃ answer, computed = .ok answer ∧ good answer := by
  cases outcome with
  | answer holds => exact ⟨_, rfl, holds⟩
  | mismatch given _ => exact absurd given sound

theorem imp {weaker : Prop} {other : α → Prop} (outcome : Outcome cause good computed)
    (follows : cause → weaker) (keeps : ∀ answer, good answer → other answer)
    : Outcome weaker other computed := by
  cases outcome with
  | answer holds => exact .answer (keeps _ holds)
  | mismatch given differ => exact .mismatch (follows given) differ

theorem bind {next : α → Except Fault β} {final : β → Prop} (outcome : Outcome cause good computed)
    (rest : ∀ answer, good answer → Outcome cause final (next answer))
    : Outcome cause final (computed >>= next) := by
  cases outcome with
  | answer holds => exact rest _ holds
  | mismatch given differ => exact .mismatch given differ

end Outcome

namespace Range

variable {cause : Prop} {bits : UInt32}

/-- A range denotes a set of words, of the given width unless there is a cause for another one. -/
structure OfWidthUnless (cause : Prop) (bits : UInt32) (range : Range) : Prop where
  wellFormed : range.WellFormed
  fits : range.bits = bits ∨ cause

theorem OfWidth.weaken {range : Range} (proper : range.OfWidth bits)
    : range.OfWidthUnless cause bits :=
  ⟨proper.wellFormed, Or.inl proper.bits_eq⟩

theorem full_outcome (valid : Valid bits)
    : Outcome cause (OfWidthUnless cause bits) (full bits) :=
  .of_exists ⟨_, full_eq valid, (ofWidth_top valid).weaken⟩

/-- Two ranges have a union, or their widths differ because there is a cause. -/
theorem union_outcome {left right : Range} (properLeft : left.OfWidthUnless cause bits)
    (properRight : right.OfWidthUnless cause bits)
    : Outcome cause (OfWidthUnless cause bits) (left.union .signed right) := by
  by_cases same : left.bits = right.bits
  · obtain ⟨range, built, proper, _⟩ :=
      union_spec properLeft.wellFormed properRight.wellFormed same .signed
    exact .of_exists ⟨range, built, proper.wellFormed, proper.bits_eq ▸ properLeft.fits⟩
  · -- Ranges of different widths are not both of the given one.
    have given : cause := by
      rcases properLeft.fits with isLeft | given
      · rcases properRight.fits with isRight | given
        · exact absurd (isLeft.trans isRight.symm) same
        · exact given
      · exact given
    rw [union, requireSameWidth, if_neg same]
    exact .mismatch given same

/-- A union over several values, from left to right; by induction on the values. -/
theorem foldlM_union_outcome {operand : ValueId → Except Fault Range} {values : List ValueId}
    {known : Range} (proper : known.OfWidthUnless cause bits)
    (outcomes : ∀ value ∈ values, Outcome cause (OfWidthUnless cause bits) (operand value))
    : Outcome cause (OfWidthUnless cause bits)
        (values.foldlM (fun known value => do known.union .signed (← operand value)) known) := by
  induction values generalizing known with
  | nil => exact .answer proper
  | cons value rest ih =>
      rw [List.foldlM_cons]
      have joined : Outcome cause (OfWidthUnless cause bits)
          (do known.union .signed (← operand value)) :=
        (outcomes value List.mem_cons_self).bind fun _ next => union_outcome proper next
      exact joined.bind fun _ next =>
        ih next fun other member => outcomes other (List.mem_cons_of_mem _ member)

end Range

namespace Function

-----------------------------------------------------------------------------------------
-- Values of different widths
-----------------------------------------------------------------------------------------

/-- Every value that an instruction reads exists, and so does the instruction of every result. -/
structure NoDangling (func : Function) : Prop where
  operands : ∀ id inst, func.inst id = .ok inst
    → ∀ operand ∈ inst.operands, ∃ value, func.value operand = .ok value
  results : ∀ id inst ty, func.value id = .ok (.result inst ty) → ∃ op, func.inst inst = .ok op

/-- What is picked has the type of the result. -/
def PicksTyped (func : Function) : Prop :=
  ∀ addr input inst ty value, func.Picks addr input → func.value addr = .ok (.result inst ty)
    → func.value input = .ok value → value.ty = ty

/-- A value is the result of an instruction that reads another one. -/
def Reads (func : Function) (id input : ValueId) : Prop :=
  ∃ inst ty op, func.value id = .ok (.result inst ty) ∧ func.inst inst = .ok op
    ∧ input ∈ op.operands

/-- A value can be picked that has another width than the result. -/
def PicksMisfit (func : Function) (pointer : PointerWidth) (merge : ValueId) : Prop :=
  ∃ input inst ty value, func.Picks merge input ∧ func.value merge = .ok (.result inst ty)
    ∧ func.value input = .ok value ∧ width pointer value ≠ width pointer (.result inst ty)

/-- A value is computed, in any number of steps, from one for which a misfit can be picked. -/
def MeetsMisfit (func : Function) (pointer : PointerWidth) (id : ValueId) : Prop :=
  ∃ merge, ReflTransGen func.Reads id merge ∧ func.PicksMisfit pointer merge

variable {func : Function} {pointer : PointerWidth} {bits : UInt32}

theorem Complete.noDangling (complete : func.Complete) : func.NoDangling :=
  ⟨complete.operands, complete.results⟩

theorem MeetsMisfit.head {id input : ValueId} (meets : func.MeetsMisfit pointer input)
    (reads : func.Reads id input)
    : func.MeetsMisfit pointer id := by
  obtain ⟨merge, steps, picks⟩ := meets
  exact ⟨merge, .head reads steps, picks⟩

theorem PicksTyped.not_meetsMisfit (typed : func.PicksTyped) (id : ValueId)
    : ¬ func.MeetsMisfit pointer id := by
  rintro ⟨merge, _, input, inst, ty, value, picks, found, foundInput, differ⟩
  rw [width, typed merge input inst ty value picks found foundInput] at differ
  exact differ rfl

-----------------------------------------------------------------------------------------
-- Numbers
-----------------------------------------------------------------------------------------

/-- What comes of a value that is evaluated as a number. -/
def NumberOutcome (func : Function) (pointer : PointerWidth) (id : ValueId) (bits : UInt32)
    : Except Fault Range → Prop :=
  Outcome (func.MeetsMisfit pointer id) (Range.OfWidthUnless (func.MeetsMisfit pointer id) bits)

/-- Sums, differences and products of ranges have an answer: the extremes are in order. -/
theorem exists_binaryRange (op : BinaryOp) {lhs rhs : Range} (wfLhs : lhs.WellFormed)
    (wfRhs : rhs.WellFormed) (valid : Valid bits)
    : ∃ range, binaryRange op bits lhs rhs = .ok range := by
  have bounded {least greatest : Int} (ordered : least ≤ greatest)
      : ∃ range, Range.ofSignedBounds bits least greatest = .ok range := by
    obtain ⟨range, built, _⟩ := Range.ofSignedBounds_spec valid ordered
    exact ⟨range, built⟩
  unfold binaryRange
  by_cases none : lhs.IsNone ∨ rhs.IsNone
  · rw [if_pos (by simpa [Range.isEmpty_iff] using none)]
    exact ⟨_, Range.full_eq valid⟩
  rw [if_neg (by simpa [Range.isEmpty_iff] using none)]
  rw [not_or] at none
  obtain ⟨lhsMin, leastLhs, heldLhs, _⟩ := wfLhs.signedMin_spec none.1
  obtain ⟨lhsMax, greatestLhs, _, upperLhs⟩ := wfLhs.signedMax_spec none.1
  obtain ⟨rhsMin, leastRhs, heldRhs, _⟩ := wfRhs.signedMin_spec none.2
  obtain ⟨rhsMax, greatestRhs, _, upperRhs⟩ := wfRhs.signedMax_spec none.2
  have orderedLhs := upperLhs _ heldLhs
  have orderedRhs := upperRhs _ heldRhs
  rw [leastLhs, ok_bind, greatestLhs, ok_bind, leastRhs, ok_bind, greatestRhs, ok_bind]
  cases op with
  | add => exact bounded (by omega)
  | sub => exact bounded (by omega)
  | mul => exact bounded (by omega)
  | _ => exact ⟨_, Range.full_eq valid⟩

theorem exists_nonNegative {id : ValueId} {value : Value} (found : func.value id = .ok value)
    : ∃ answer, func.nonNegative? id = .ok answer ∧ ∀ mask, answer = some mask → 0 ≤ mask := by
  refine ⟨_, by rw [nonNegative?, found, ok_bind, pure_eq_ok], fun mask isMask => ?_⟩
  exact of_decide_eq_true (Option.filter_eq_some_iff.mp isMask).2

theorem exists_maskedRange {lhs rhs : ValueId} {lhsValue rhsValue : Value} (valid : Valid bits)
    (foundLhs : func.value lhs = .ok lhsValue) (foundRhs : func.value rhs = .ok rhsValue)
    : ∃ range, func.maskedRange bits lhs rhs = .ok range ∧ range.OfWidth bits := by
  have masked {mask : Int} (positive : 0 ≤ mask)
      : ∃ range, Range.ofSignedBounds bits 0 mask = .ok range ∧ range.OfWidth bits := by
    obtain ⟨range, built, proper, _⟩ := Range.ofSignedBounds_spec valid positive
    exact ⟨range, built, proper⟩
  obtain ⟨first, answeredFirst, positiveFirst⟩ := exists_nonNegative foundLhs
  rw [maskedRange, answeredFirst, ok_bind]
  cases first with
  | some mask => exact masked (positiveFirst mask rfl)
  | none =>
      obtain ⟨second, answeredSecond, positiveSecond⟩ := exists_nonNegative foundRhs
      simp only [answeredSecond, ok_bind]
      cases second with
      | some mask => exact masked (positiveSecond mask rfl)
      | none => exact ⟨_, Range.full_eq valid, Range.ofWidth_top valid⟩

/-- What comes of a result as a number, from what comes of its operands. -/
theorem instRange_outcome {operand : ValueId → Except Fault Range} {id : ValueId} {inst : InstId}
    {ty : Ty} {op : Inst} (whole : func.NoDangling)
    (found : func.value id = .ok (.result inst ty)) (foundOp : func.inst inst = .ok op)
    (outcomes : ∀ input value, func.value input = .ok value
      → func.NumberOutcome pointer input (width pointer value) (operand input))
    : func.NumberOutcome pointer id (width pointer (.result inst ty))
        (func.instRange (width pointer (.result inst ty)) operand op) := by
  have valid := valid_width pointer (.result inst ty)
  have exists_value (input : ValueId) (member : input ∈ op.operands)
      : ∃ value, func.value input = .ok value :=
    whole.operands inst op foundOp input member
  have meets {input : ValueId} (member : input ∈ op.operands)
      : func.MeetsMisfit pointer input → func.MeetsMisfit pointer id :=
    fun misfit => misfit.head ⟨inst, ty, op, found, foundOp, member⟩
  have evaluated (input : ValueId) (member : input ∈ op.operands)
      : Outcome (func.MeetsMisfit pointer id) Range.WellFormed (operand input) := by
    obtain ⟨value, foundValue⟩ := exists_value input member
    exact (outcomes input value foundValue).imp (meets member) fun _ proper => proper.wellFormed
  -- A picked value has the width of the result, or is itself the misfit.
  have picked (input : ValueId) (member : input ∈ op.operands) (picks : func.Picks id input)
      : func.NumberOutcome pointer id (width pointer (.result inst ty)) (operand input) := by
    obtain ⟨value, foundValue⟩ := exists_value input member
    refine (outcomes input value foundValue).imp (meets member) fun range proper => ?_
    refine ⟨proper.wellFormed, ?_⟩
    by_cases same : width pointer value = width pointer (.result inst ty)
    · exact proper.fits.imp (·.trans same) (meets member)
    · exact Or.inr ⟨id, .refl, input, inst, ty, value, picks, found, foundValue, same⟩
  cases op with
  | binary op lhs rhs =>
      by_cases conjunction : op = .and
      · subst conjunction
        obtain ⟨lhsValue, foundLhs⟩ := exists_value lhs (by simp [Inst.operands])
        obtain ⟨rhsValue, foundRhs⟩ := exists_value rhs (by simp [Inst.operands])
        obtain ⟨range, masked, proper⟩ := exists_maskedRange valid foundLhs foundRhs
        exact .of_exists ⟨range, masked, proper.weaken⟩
      · rw [instRange]
        · refine (evaluated lhs (by simp [Inst.operands])).bind fun lhsRange wfLhs => ?_
          refine (evaluated rhs (by simp [Inst.operands])).bind fun rhsRange wfRhs => ?_
          obtain ⟨range, computed⟩ := exists_binaryRange op wfLhs wfRhs valid
          have proper := (binaryRange_covers wfLhs wfRhs valid computed).1
          exact .of_exists ⟨range, computed, proper.weaken⟩
        · exact conjunction
  | cast op arg target =>
      refine (evaluated arg (by simp [Inst.operands])).bind fun source wf => ?_
      have signed : func.NumberOutcome pointer id (width pointer (.result inst ty))
          (source.resizeSigned (width pointer (.result inst ty))) := by
        obtain ⟨range, resized, proper, _⟩ := Range.resizeSigned_spec wf valid
        exact .of_exists ⟨range, resized, proper.weaken⟩
      cases op with
      | zext =>
          obtain ⟨range, resized, proper, _⟩ := Range.resizeUnsigned_spec wf valid
          exact .of_exists ⟨range, resized, proper.weaken⟩
      | ptrToInt => exact Range.full_outcome valid
      | intToPtr => exact Range.full_outcome valid
      | _ => exact signed
  | select cond then_ else_ =>
      have arm (input : ValueId) (member : input ∈ [then_, else_]) :=
        picked input (List.mem_cons_of_mem _ member) (.select found foundOp member)
      refine (arm then_ (by simp)).bind fun thenRange properThen => ?_
      exact (arm else_ (by simp)).bind fun elseRange properElse =>
        Range.union_outcome properThen properElse
  | phi values blocks target =>
      rw [instRange, Range.empty_eq valid, liftM_eq, ok_bind]
      exact Range.foldlM_union_outcome (Range.ofWidth_bottom valid).weaken
        fun value member => picked value member (.phi found foundOp member)
  | _ => exact Range.full_outcome valid

/-- What comes of a value as a number; by induction on the values that are not being evaluated
yet.
-/
theorem rangeOf_outcome (whole : func.NoDangling) (pointer : PointerWidth) (fresh : List ValueId)
    {id : ValueId} {value : Value} (found : func.value id = .ok value)
    : func.NumberOutcome pointer id (width pointer value) (func.rangeOf pointer fresh id) := by
  induction size : fresh.length using Nat.strongRecOn generalizing fresh id value with
  | ind _ ih =>
    have valid := valid_width pointer value
    rw [rangeOf, found, ok_bind]
    cases value with
    | constant imm =>
        obtain ⟨bits, isWidth, validBits, fits⟩ := fits_immediate imm
        have same : width pointer (.constant imm) = bits := by
          simp [width, Value.ty, isWidth]
        obtain ⟨range, built, proper, _⟩ := Range.singleton_spec validBits fits
        rw [same]
        exact .of_exists ⟨range, built, proper.weaken⟩
    | argument ty index => exact Range.full_outcome valid
    | result inst ty =>
        simp only
        split
        · rename_i isFresh
          obtain ⟨op, foundOp⟩ := whole.results id inst ty found
          rw [foundOp, ok_bind]
          exact instRange_outcome whole found foundOp fun input value foundInput =>
            ih _ (size ▸ length_erase_lt isFresh) _ foundInput rfl
        · exact Range.full_outcome valid

/-- The range of a value has an answer, at the width of the value. -/
theorem exists_rangeOf (complete : func.Complete) (typed : func.PicksTyped)
    (pointer : PointerWidth) (fresh : List ValueId) {id : ValueId} {value : Value}
    (found : func.value id = .ok value)
    : ∃ range, func.rangeOf pointer fresh id = .ok range
      ∧ range.OfWidth (width pointer value) := by
  have sound : ¬ func.MeetsMisfit pointer id := typed.not_meetsMisfit id
  obtain ⟨range, evaluated, proper⟩ :=
    (rangeOf_outcome complete.noDangling pointer fresh found).exists_ok sound
  exact ⟨range, evaluated, proper.wellFormed, proper.fits.resolve_right sound⟩

-----------------------------------------------------------------------------------------
-- Addresses
-----------------------------------------------------------------------------------------

/-- If there is a root, the offsets from it have the width of addresses. -/
def HasWidth (pointer : PointerWidth) (answer : Option Rooted) : Prop :=
  ∀ known ∈ answer, known.offset.OfWidth pointer.bits

theorem hasWidth_none (pointer : PointerWidth) : HasWidth pointer none := by
  rintro _ ⟨⟩

theorem hasWidth_some {known : Rooted} (proper : known.offset.OfWidth pointer.bits)
    : HasWidth pointer (some known) := by
  rintro _ ⟨⟩
  exact proper

theorem exists_addOffsets {first second : Range} (properFirst : first.OfWidth bits)
    (properSecond : second.OfWidth bits)
    : ∃ range, addOffsets first second = .ok range := by
  have full : ∃ range, Range.full first.bits = .ok range :=
    ⟨_, Range.full_eq properFirst.wellFormed.valid⟩
  rw [addOffsets, properFirst.wellFormed.isUnusable_eq, ok_bind,
    properSecond.wellFormed.isUnusable_eq, ok_bind]
  split
  · exact full
  split
  · exact full
  · obtain ⟨sum, added, _⟩ := Range.addSigned_spec properFirst.wellFormed properSecond.wellFormed
      (properSecond.bits_eq.trans properFirst.bits_eq.symm)
    exact ⟨sum, added⟩

section Operands

variable {cause : Prop} {rooted : ValueId → Except Fault (Option Rooted)}

/-- Merging addresses; by induction on the addresses. -/
theorem mergeRooted_outcome {addrs : List ValueId}
    (outcomes : ∀ addr ∈ addrs, Outcome cause (HasWidth pointer) (rooted addr))
    {merged : Option Rooted} (proper : HasWidth pointer merged)
    : Outcome cause (HasWidth pointer) (mergeRooted rooted merged addrs) := by
  induction addrs generalizing merged with
  | nil => exact .answer proper
  | cons addr rest ih =>
      have later : ∀ other ∈ rest, Outcome cause (HasWidth pointer) (rooted other) :=
        fun other member => outcomes other (List.mem_cons_of_mem _ member)
      rw [mergeRooted]
      refine (outcomes addr List.mem_cons_self).bind fun answer properAnswer => ?_
      cases answer with
      | none => exact .answer (hasWidth_none pointer)
      | some next =>
          have properNext := properAnswer next rfl
          cases merged with
          | none => exact ih later properAnswer
          | some known =>
              simp only
              split
              · have properKnown := proper known rfl
                obtain ⟨offset, covered, properOffset, _⟩ :=
                  Range.cover_spec properKnown.wellFormed properNext.wellFormed
                    (properKnown.bits_eq.trans properNext.bits_eq.symm)
                rw [covered, liftM_eq, ok_bind]
                exact ih later (hasWidth_some (properKnown.bits_eq ▸ properOffset))
              · exact .answer (hasWidth_none pointer)

theorem moved_outcome {base : ValueId} {step : Range}
    (outcome : Outcome cause (HasWidth pointer) (rooted base))
    (properStep : step.OfWidth pointer.bits)
    : Outcome cause (HasWidth pointer) (do (← rooted base).mapM (Rooted.move step)) := by
  refine outcome.bind fun answer properAnswer => ?_
  cases answer with
  | none => exact .answer (hasWidth_none pointer)
  | some known =>
      have properKnown := properAnswer known rfl
      obtain ⟨sum, added⟩ := exists_addOffsets properKnown properStep
      have proper := (addOffsets_covers properKnown properStep added).1
      refine .of_exists ⟨some ⟨known.root, sum⟩, ?_, hasWidth_some proper⟩
      simp only [Option.mapM_some, Rooted.move, added, ok_bind, pure_eq_ok, map_ok]

theorem elemOffset_outcome {index : Except Fault Range}
    (outcome : Outcome cause Range.WellFormed index) (elem : Ty)
    : Outcome cause (Range.OfWidth pointer.bits) (elemOffset pointer elem index) := by
  unfold elemOffset
  split
  · rename_i size _
    refine outcome.bind fun source wf => ?_
    obtain ⟨step, resized, properStep, _⟩ := Range.resizeSigned_spec wf pointer.valid_bits
    obtain ⟨scaled, scaling, proper, _⟩ := Range.scale_spec properStep.wellFormed size
    rw [resized, liftM_eq, ok_bind]
    exact .of_exists ⟨scaled, scaling, properStep.bits_eq ▸ proper⟩
  · have valid := pointer.valid_bits
    exact .of_exists ⟨_, Range.full_eq valid, Range.ofWidth_top valid⟩

end Operands

theorem self_outcome (pointer : PointerWidth) (addr : ValueId) {cause : Prop}
    : Outcome cause (HasWidth pointer)
        (do pure (some (Rooted.mk addr (← Range.singleton pointer.bits 0)))) := by
  have fits : Fits pointer.bits 0 := by cases pointer <;> decide
  obtain ⟨zero, built, proper, _⟩ := Range.singleton_spec pointer.valid_bits fits
  rw [built, ok_bind]
  exact .answer (hasWidth_some proper)

/-- What comes of a result as an address, from what comes of its operands. -/
theorem instRooted_outcome {number : ValueId → Except Fault Range}
    {rooted : ValueId → Except Fault (Option Rooted)} {addr : ValueId} {inst : InstId} {ty : Ty}
    {op : Inst} (whole : func.NoDangling) (found : func.value addr = .ok (.result inst ty))
    (foundOp : func.inst inst = .ok op)
    (numbers : ∀ input value, func.value input = .ok value
      → Outcome (func.MeetsMisfit pointer input) Range.WellFormed (number input))
    (outcomes : ∀ input value, func.value input = .ok value
      → Outcome (func.MeetsMisfit pointer input) (HasWidth pointer) (rooted input))
    : Outcome (func.MeetsMisfit pointer addr) (HasWidth pointer)
        (instRooted pointer addr number rooted op) := by
  have meets {input : ValueId} (member : input ∈ op.operands)
      : func.MeetsMisfit pointer input → func.MeetsMisfit pointer addr :=
    fun misfit => misfit.head ⟨inst, ty, op, found, foundOp, member⟩
  have evaluated (input : ValueId) (member : input ∈ op.operands)
      : Outcome (func.MeetsMisfit pointer addr) (HasWidth pointer) (rooted input) := by
    obtain ⟨value, foundValue⟩ := whole.operands inst op foundOp input member
    exact (outcomes input value foundValue).imp (meets member) fun _ proper => proper
  have counted (input : ValueId) (member : input ∈ op.operands)
      : Outcome (func.MeetsMisfit pointer addr) Range.WellFormed (number input) := by
    obtain ⟨value, foundValue⟩ := whole.operands inst op foundOp input member
    exact (numbers input value foundValue).imp (meets member) fun _ wf => wf
  cases op with
  | cast op arg target =>
      cases op with
      | bitcast => exact evaluated arg (by simp [Inst.operands])
      | _ => exact self_outcome pointer addr
  | ptrAdd base offset =>
      refine (counted offset (by simp [Inst.operands])).bind fun source wf => ?_
      obtain ⟨step, resized, properStep, _⟩ := Range.resizeSigned_spec wf pointer.valid_bits
      rw [resized, liftM_eq, ok_bind]
      exact moved_outcome (evaluated base (by simp [Inst.operands])) properStep
  | elemPtr base index elem =>
      refine (elemOffset_outcome (counted index (by simp [Inst.operands])) elem).bind
        fun step properStep => ?_
      exact moved_outcome (evaluated base (by simp [Inst.operands])) properStep
  | select cond then_ else_ =>
      refine mergeRooted_outcome (fun arm member => evaluated arm ?_) (hasWidth_none pointer)
      exact List.mem_cons_of_mem _ member
  | phi values blocks target => exact mergeRooted_outcome evaluated (hasWidth_none pointer)
  | _ => exact self_outcome pointer addr

/-- What comes of a value as an address; by induction on the values that are not being decomposed
yet.
-/
theorem decompose_outcome (whole : func.NoDangling) (pointer : PointerWidth)
    (fresh : List ValueId) {addr : ValueId} {value : Value} (found : func.value addr = .ok value)
    : Outcome (func.MeetsMisfit pointer addr) (HasWidth pointer)
        (func.decompose pointer fresh addr) := by
  induction size : fresh.length using Nat.strongRecOn generalizing fresh addr value with
  | ind _ ih =>
    rw [decompose, found, ok_bind]
    cases value with
    | result inst ty =>
        simp only
        split
        · rename_i isFresh
          obtain ⟨op, foundOp⟩ := whole.results addr inst ty found
          rw [foundOp, ok_bind]
          refine instRooted_outcome whole found foundOp (fun input value foundInput => ?_)
            (fun input value foundInput => ?_)
          · exact (rangeOf_outcome whole pointer (fresh.erase addr) foundInput).imp
              (fun misfit => misfit) fun _ proper => proper.wellFormed
          · exact ih _ (size ▸ length_erase_lt isFresh) _ foundInput rfl
        · exact .answer (hasWidth_none pointer)
    | _ => exact self_outcome pointer addr

theorem exists_offsetFrom (complete : func.Complete) (typed : func.PicksTyped)
    (pointer : PointerWidth) {addr : ValueId} {value : Value} (found : func.value addr = .ok value)
    (base : ValueId)
    : ∃ range, func.offsetFrom pointer addr base = .ok range := by
  have full : ∃ range, Range.full pointer.bits = .ok range := ⟨_, Range.full_eq pointer.valid_bits⟩
  obtain ⟨answer, decomposed, _⟩ :=
    (decompose_outcome complete.noDangling pointer func.valueIds found).exists_ok
      (typed.not_meetsMisfit addr)
  rw [offsetFrom, decomposed, ok_bind]
  cases answer with
  | none => exact full
  | some rooted =>
      simp only
      split
      · exact ⟨_, rfl⟩
      · exact full

end Function

end StackBounds
