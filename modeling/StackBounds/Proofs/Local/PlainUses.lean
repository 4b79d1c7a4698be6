import StackBounds.Proofs.Liveness
import StackBounds.Proofs.Local.Lengths
import StackBounds.Proofs.Local.Walks
import StackBounds.Proofs.Range.Points
import StackBounds.Proofs.TypeSizes

/-! Plain uses. An allocation that is only moved by constants and only accessed by loads and stores
is followed without loss: its offsets are known exactly, and the range of its accesses is included
in its bytes exactly when every access is.
-/

namespace StackBounds

open Word (Fits half)

/-- A signed number of a width, other than the greatest one. -/
def Word.IsOffset (bits : UInt32) (number : Int) : Prop :=
  -(half bits : Int) ≤ number ∧ number < (half bits : Int) - 1

instance {bits : UInt32} {number : Int} : Decidable (Word.IsOffset bits number) :=
  inferInstanceAs (Decidable (_ ∧ _))

theorem Word.IsOffset.fits {bits : UInt32} {number : Int} (isOffset : IsOffset bits number)
    : Fits bits number :=
  ⟨isOffset.1, Int.lt_trans isOffset.2 (by omega)⟩

open Word (IsOffset)

/-- An instruction uses an address in a way that loses nothing: it casts the address, adds a
constant to it, or loads or stores through it a value whose size is the same on every run.
-/
inductive Inst.IsPlain (func : Function) (bits : UInt32) (value : ValueId) : Inst → Prop
  | bitcast (target : Ty) : IsPlain func bits value (.cast .bitcast value target)
  | ptrAdd {number imm}
    (constant : func.value number = .ok (.constant imm)) (offset : IsOffset bits imm.toInt)
    : IsPlain func bits value (.ptrAdd value number)
  | load {ty} (fixed : ¬ ty.HasScalable) : IsPlain func bits value (.load value ty)
  | store {stored ty}
    (other : stored ≠ value) (typed : func.valueTy stored = .ok ty) (fixed : ¬ ty.HasScalable)
    : IsPlain func bits value (.store value stored)

namespace Function

/-- A value is a base that was moved by a number of bytes, in some steps: reachable casts keep the
address, and reachable additions of constants move it.
-/
inductive Moves (func : Function) (marked : MarkedFlow) (base : ValueId)
    : Nat → ValueId → Int → Prop
  | base : Moves func marked base 0 base 0
  | bitcast {steps value offset inst target ty result}
    (source : Moves func marked base steps value offset)
    (executes : marked.Executes inst)
    (found : func.inst inst = .ok (.cast .bitcast value target))
    (results : func.value result = .ok (.result inst ty))
    : Moves func marked base (steps + 1) result offset
  | ptrAdd {steps value offset inst number imm ty result}
    (source : Moves func marked base steps value offset)
    (executes : marked.Executes inst)
    (found : func.inst inst = .ok (.ptrAdd value number))
    (constant : func.value number = .ok (.constant imm))
    (results : func.value result = .ok (.result inst ty))
    : Moves func marked base (steps + 1) result (offset + imm.toInt)

/-- A reachable load or store accesses a number of bytes at an offset from a base. -/
inductive AccessesAt (func : Function) (pointer : PointerWidth) (marked : MarkedFlow)
    (base : ValueId)
    : Int → Nat → Prop
  | load {steps value offset inst ty}
    (moves : func.Moves marked base steps value offset)
    (executes : marked.Executes inst)
    (found : func.inst inst = .ok (.load value ty))
    : AccessesAt func pointer marked base offset (ty.exactSize pointer)
  | store {steps value offset inst stored ty}
    (moves : func.Moves marked base steps value offset)
    (executes : marked.Executes inst)
    (found : func.inst inst = .ok (.store value stored))
    (typed : func.valueTy stored = .ok ty)
    : AccessesAt func pointer marked base offset (ty.exactSize pointer)

/-- An allocation of a number of bytes that has a result and no lifetime markers. All uses that
control can come to are plain, and the offsets never leave the signed numbers.
-/
structure UsedPlainly (func : Function) (pointer : PointerWidth) (marked : MarkedFlow)
    (alloca : InstId) (base : ValueId) (bytes : Int)
    : Prop where
  placed : alloca ∈ func.placedInsts
  results : func.resultOf alloca = some base
  reserves : func.Reserves pointer alloca bytes
  positive : 1 ≤ bytes
  small : bytes < half pointer.bits
  unmarked : ¬ func.IsMarked alloca
  plain : ∀ {value inst op}, func.Derived marked base value → marked.Executes inst
    → func.inst inst = .ok op → value ∈ op.operands → op.IsPlain func pointer.bits value
  offsets : ∀ {steps value offset}, func.Moves marked base steps value offset
    → IsOffset pointer.bits offset

-----------------------------------------------------------------------------------------
-- Moved addresses
-----------------------------------------------------------------------------------------

variable {func : Function} {marked : MarkedFlow} {base value : ValueId} {steps : Nat} {offset : Int}

/-- A value that was moved is derived. -/
theorem Moves.derived (moves : func.Moves marked base steps value offset)
    : func.Derived marked base value := by
  induction moves with
  | base => exact .base
  | bitcast _ executes found results ih =>
      exact .result ih executes found rfl List.mem_cons_self results
  | ptrAdd _ executes found _ results ih =>
      exact .result ih executes found rfl List.mem_cons_self results

section Root

variable {alloca : InstId} {elem ty : Ty} {count : Option ValueId}
  (root : func.value base = .ok (.result alloca ty))
  (made : func.inst alloca = .ok (.alloca elem count))

include root

theorem Moves.exists_value (moves : func.Moves marked base steps value offset)
    : ∃ held, func.value value = .ok held := by
  cases moves with
  | base => exact ⟨_, root⟩
  | bitcast _ _ _ results => exact ⟨_, results⟩
  | ptrAdd _ _ _ _ results => exact ⟨_, results⟩

include made

/-- No step leads back to an allocation. -/
theorem Moves.steps_eq_zero (moves : func.Moves marked base steps base offset) : steps = 0 := by
  cases moves with
  | base => rfl
  | bitcast _ _ found results =>
      cases root.symm.trans results
      cases made.symm.trans found
  | ptrAdd _ _ found _ results =>
      cases root.symm.trans results
      cases made.symm.trans found

/-- What an allocation is moved to determines the number of steps, because each value has one
instruction.
-/
theorem Moves.steps_unique (moves : func.Moves marked base steps value offset) {other : Nat}
    {shift : Int} (again : func.Moves marked base other value shift)
    : other = steps := by
  induction moves generalizing other shift with
  | base => exact Moves.steps_eq_zero root made again
  | bitcast source executes found results ih =>
      cases again with
      | base => exact (Moves.steps_eq_zero root made (.bitcast source executes found results)).symm
      | bitcast sourceAgain _ foundAgain resultsAgain =>
          cases results.symm.trans resultsAgain
          cases found.symm.trans foundAgain
          rw [ih sourceAgain]
      | ptrAdd _ _ foundAgain _ resultsAgain =>
          cases results.symm.trans resultsAgain
          cases found.symm.trans foundAgain
  | ptrAdd source executes found constant results ih =>
      cases again with
      | base =>
          exact (Moves.steps_eq_zero root made
            (.ptrAdd source executes found constant results)).symm
      | bitcast _ _ foundAgain resultsAgain =>
          cases results.symm.trans resultsAgain
          cases found.symm.trans foundAgain
      | ptrAdd sourceAgain _ foundAgain _ resultsAgain =>
          cases results.symm.trans resultsAgain
          cases found.symm.trans foundAgain
          rw [ih sourceAgain]

end Root

/-- All values that a base is moved to in at most some steps are fresh. -/
def Awaits (func : Function) (marked : MarkedFlow) (base : ValueId) (steps : Nat)
    (fresh : List ValueId)
    : Prop :=
  ∀ {other value offset}, other ≤ steps → func.Moves marked base other value offset
    → value ∈ fresh

/-- The number of a constant is known exactly. -/
theorem exists_rangeOf_isPoint {number : ValueId} {imm : Immediate} (pointer : PointerWidth)
    (fresh : List ValueId) (constant : func.value number = .ok (.constant imm))
    : ∃ bits range, func.rangeOf pointer fresh number = .ok range
      ∧ range.IsPoint bits imm.toInt := by
  obtain ⟨bits, integer, valid, fits⟩ := fits_immediate imm
  obtain ⟨range, built, point⟩ := Range.exists_singleton_isPoint valid fits
  have same : width pointer (.constant imm) = bits := by simp [width, Value.ty, integer]
  refine ⟨bits, range, ?_, point⟩
  rw [rangeOf, constant, ok_bind]
  simp only [same, built]

namespace UsedPlainly

variable {pointer : PointerWidth} {alloca : InstId} {bytes : Int}
  (plainly : func.UsedPlainly pointer marked alloca base bytes)

include plainly

theorem exists_alloca
    : ∃ ty elem count, func.value base = .ok (.result alloca ty)
      ∧ func.inst alloca = .ok (.alloca elem count) := by
  obtain ⟨ty, root⟩ := exists_result plainly.results
  obtain ⟨made, _⟩ := plainly.reserves
  exact ⟨ty, _, _, root, made⟩

/-- Everything that is derived from the allocation is the allocation moved by constants. -/
theorem exists_moves (derived : func.Derived marked base value)
    : ∃ steps offset, func.Moves marked base steps value offset := by
  induction derived with
  | base => exact ⟨0, 0, .base⟩
  | result source executes found derives operand results ih =>
      obtain ⟨steps, offset, moves⟩ := ih
      cases plainly.plain source executes found operand with
      | bitcast target => exact ⟨_, _, .bitcast moves executes found results⟩
      | ptrAdd constant _ => exact ⟨_, _, .ptrAdd moves executes found constant results⟩
      | load _ => cases derives
      | store _ _ _ => cases derives

/-- The values of fewer steps stay fresh when a result is taken out: each value has its own number
of steps.
-/
theorem awaits_erase {result : ValueId} {fresh : List ValueId}
    (moves : func.Moves marked base (steps + 1) result offset)
    (awaits : func.Awaits marked base (steps + 1) fresh)
    : func.Awaits marked base steps (fresh.erase result) := by
  intro other source shift fewer before
  obtain ⟨_, _, _, root, made⟩ := plainly.exists_alloca
  refine (List.mem_erase_of_ne fun same => ?_).mpr (awaits (by omega) before)
  subst same
  have unique := Moves.steps_unique root made moves before
  omega

/-- Decomposing a moved address finds the allocation and exactly the offset; by induction on the
moves.
-/
theorem exists_decompose (moves : func.Moves marked base steps value offset)
    {fresh : List ValueId} (awaits : func.Awaits marked base steps fresh)
    : ∃ range, func.decompose pointer fresh value = .ok (some ⟨base, range⟩)
      ∧ range.IsPoint pointer.bits offset := by
  have valid := pointer.valid_bits
  induction moves generalizing fresh with
  | base =>
      obtain ⟨_, _, _, root, made⟩ := plainly.exists_alloca
      obtain ⟨range, built, point⟩ :=
        Range.exists_singleton_isPoint valid (plainly.offsets .base).fits
      refine ⟨range, ?_, point⟩
      rw [decompose, root, ok_bind]
      simp only [dif_pos (awaits (Nat.le_refl _) .base), made, liftM_eq, ok_bind, instRooted, built,
        pure_eq_ok]
  | @bitcast steps source offset inst target ty result moves executes found results ih =>
      have moved := Moves.bitcast moves executes found results
      obtain ⟨range, decomposed, point⟩ := ih (plainly.awaits_erase moved awaits)
      refine ⟨range, ?_, point⟩
      rw [decompose, results, ok_bind]
      simp only [dif_pos (awaits (Nat.le_refl _) moved), found, ok_bind, instRooted, decomposed]
  | @ptrAdd steps source offset inst number imm ty result moves executes found constant results
      ih =>
      have moved := Moves.ptrAdd moves executes found constant results
      obtain ⟨range, decomposed, point⟩ := ih (plainly.awaits_erase moved awaits)
      have step : IsOffset pointer.bits imm.toInt := by
        cases plainly.plain moves.derived executes found List.mem_cons_self with
        | ptrAdd again offset =>
            cases constant.symm.trans again
            exact offset
      obtain ⟨bits, exact, ranged, isNumber⟩ :=
        exists_rangeOf_isPoint pointer (fresh.erase result) constant
      obtain ⟨resized, resizing, isStep⟩ := isNumber.exists_resizeSigned valid step.fits
      obtain ⟨sum, added, isSum⟩ := point.exists_addOffsets isStep (plainly.offsets moves).2 step.2
        (plainly.offsets moved).fits
      refine ⟨sum, ?_, isSum⟩
      rw [decompose, results, ok_bind]
      simp only [dif_pos (awaits (Nat.le_refl _) moved), found, liftM_eq, ok_bind, instRooted,
        decomposed, ranged, resizing, Option.mapM_some, Rooted.move, added, pure_eq_ok, map_ok]

/-- The offset of a moved address from the allocation is known exactly. -/
theorem exists_offsetFrom (moves : func.Moves marked base steps value offset)
    : ∃ range, func.offsetFrom pointer value base = .ok range
      ∧ range.IsPoint pointer.bits offset := by
  have awaits : func.Awaits marked base steps func.valueIds := by
    intro other source shift _ before
    obtain ⟨_, _, _, root, _⟩ := plainly.exists_alloca
    obtain ⟨_, valued⟩ := Moves.exists_value root before
    exact mem_valueIds_of_value valued
  obtain ⟨range, decomposed, point⟩ := plainly.exists_decompose moves awaits
  refine ⟨range, ?_, point⟩
  rw [offsetFrom, decomposed, ok_bind]
  exact if_pos rfl

end UsedPlainly

end Function

-----------------------------------------------------------------------------------------
-- Objects at a known offset
-----------------------------------------------------------------------------------------

namespace LocalAnalysis

section Objects

variable {analysis : LocalAnalysis} {lifetime : Lifetime} {addr base : ValueId} {ty : Ty}
  {point range whole : Range} {offset bytes : Int}

/-- Nothing is accessed by an object without bytes. -/
theorem objectRange_eq_bottom (fixed : ¬ ty.HasScalable)
    (zero : ty.exactSize analysis.pointer = 0)
    : analysis.objectRange addr base ty = .ok (Range.bottom analysis.pointer.bits) := by
  have size : (ty.size analysis.pointer).fixed? = some 0 :=
    Ty.fixed?_size_eq_some_iff.mpr ⟨fixed, by rw [zero]; rfl⟩
  unfold objectRange accessRange
  rw [size]
  cases analysis.pointer <;> rfl

section Point

variable (moved : analysis.offset addr base = .ok point)
  (isPoint : point.IsPoint analysis.pointer.bits offset)

include moved isPoint

/-- An access whose bytes end below the greatest number has exactly these bytes. -/
theorem exists_accessRange_holds_iff {positions : Range} {size : Int}
    (proper : positions.OfWidth analysis.pointer.bits)
    (elements : ∀ value, positions.Holds value ↔ 0 ≤ value ∧ value < size)
    (positive : 0 < size) (start : 0 ≤ offset)
    (inside : offset + size < half analysis.pointer.bits)
    : ∃ range, analysis.accessRange addr base positions = .ok range
      ∧ range.OfWidth analysis.pointer.bits
      ∧ ∀ value, range.Holds value ↔ offset ≤ value ∧ value < offset + size := by
  have some : positions.isEmpty = false := by
    rw [Bool.eq_false_iff]
    intro empty
    have first := (elements 0).mpr ⟨Int.le_refl 0, positive⟩
    exact proper.wellFormed.not_mem_of_isNone (Range.isEmpty_iff.mp empty) _ first.2
  have usable := proper.isUnusable_eq_false elements positive (by omega)
  have usablePoint := isPoint.isUnusable_eq_false (by omega)
  obtain ⟨sum, added, properSum, moves⟩ := isPoint.exists_addSigned_holds_iff proper
    fun value held => by
      have := (elements value).mp held
      exact ⟨by omega, by omega⟩
  have between (value : Int) : sum.Holds value ↔ offset ≤ value ∧ value < offset + size := by
    rw [moves, elements]
    omega
  have usableSum := properSum.isUnusable_eq_false between (by omega) inside
  refine ⟨sum, ?_, properSum, between⟩
  simp only [accessRange, some, usable, moved, usablePoint, added, usableSum, ok_bind, pure_eq_ok,
    Bool.false_eq_true, ↓reduceIte]

/-- An object whose bytes end below the greatest number is accessed at exactly these bytes. -/
theorem exists_objectRange_holds_iff (fixed : ¬ ty.HasScalable)
    (positive : 0 < ty.exactSize analysis.pointer) (start : 0 ≤ offset)
    (inside : offset + ty.exactSize analysis.pointer < half analysis.pointer.bits)
    : ∃ range, analysis.objectRange addr base ty = .ok range
      ∧ range.OfWidth analysis.pointer.bits
      ∧ ∀ value, range.Holds value
        ↔ offset ≤ value ∧ value < offset + ty.exactSize analysis.pointer := by
  have valid := analysis.pointer.valid_bits
  have limit := Function.half_le_maxBytes analysis.pointer
  have notCut : saturate (ty.exactSize analysis.pointer) = ty.exactSize analysis.pointer :=
    saturate_of_le (by omega)
  have size := Ty.fixed?_size_eq_some_iff.mpr ⟨fixed, notCut.symm⟩
  obtain ⟨positions, built, proper, _, elements⟩ := Range.ofSigned_spec valid
    (show Fits analysis.pointer.bits 0 from ⟨by omega, by omega⟩)
    (show Fits analysis.pointer.bits (ty.exactSize analysis.pointer) from ⟨by omega, by omega⟩)
    (by omega)
  obtain ⟨range, accessed, properRange, between⟩ := exists_accessRange_holds_iff moved isPoint
    proper elements (by omega) start inside
  refine ⟨range, ?_, properRange, between⟩
  rw [objectRange, valid.signedMax_eq, ok_bind, size]
  simp only
  rw [if_pos (by omega), built, ok_bind, accessed]

section Whole

variable (reads : analysis.Reads lifetime) (proper : whole.OfWidth analysis.pointer.bits)
  (notAll : ¬ whole.IsAll)
  (elements : ∀ position, whole.Holds position ↔ 0 ≤ position ∧ position < bytes)

include reads proper notAll elements

/-- An object of some bytes is inside when its range is: the range is known then, so it holds the
first and the last byte.
-/
theorem inside_of_objectRange_subset (result : analysis.objectRange addr base ty = .ok range)
    (included : range ⊆ whole) (positive : 0 < ty.exactSize analysis.pointer)
    : 0 ≤ offset ∧ offset + ty.exactSize analysis.pointer ≤ bytes := by
  have known (properRange : range.OfWidth analysis.pointer.bits) : ¬ range.IsAll := by
    intro all
    have width := proper.bits_eq.trans properRange.bits_eq.symm
    exact notAll (proper.wellFormed.isAll_of_superset all width included)
  rcases objectRange_cases result with
    ⟨properRange, all⟩ | ⟨size, positions, sized, short, properPositions, bytesOf, accessed⟩
  · exact absurd all (known properRange)
  obtain ⟨properRange, _⟩ := accessRange_cases reads.proper properPositions accessed
  have notCut : size = ty.exactSize analysis.pointer := by
    obtain ⟨_, rfl⟩ := Ty.fixed?_size_eq_some_iff.mp sized
    have limit := Function.half_le_maxBytes analysis.pointer
    unfold saturate at short ⊢
    omega
  have inWhole {index : Int} (held : positions.Holds index) : whole.Holds (offset + index) := by
    have inRange : range.Holds (offset + index) :=
      (accessRange_holds_iff reads properPositions accessed (known properRange) moved _).mpr
        ⟨offset, index, isPoint.holds, held, rfl⟩
    have width := properRange.bits_eq.trans proper.bits_eq.symm
    exact (properRange.wellFormed.subset_iff_holds proper.wellFormed width).mp included _ inRange
  have first := (elements _).mp (inWhole ((bytesOf 0).mpr (by omega)))
  have last := (elements _).mp (inWhole ((bytesOf (size - 1)).mpr (by omega)))
  omega

/-- The range of an object is included in some bytes from the start exactly when the object is. -/
theorem objectRange_subset_iff (fixed : ¬ ty.HasScalable)
    (small : bytes < half analysis.pointer.bits)
    (result : analysis.objectRange addr base ty = .ok range)
    : range ⊆ whole
      ↔ (0 < ty.exactSize analysis.pointer
        → 0 ≤ offset ∧ offset + ty.exactSize analysis.pointer ≤ bytes) := by
  refine ⟨inside_of_objectRange_subset moved isPoint reads proper notAll elements result,
    fun inside => ?_⟩
  by_cases zero : ty.exactSize analysis.pointer = 0
  · cases (objectRange_eq_bottom fixed zero).symm.trans result
    exact (Range.ofWidth_bottom analysis.pointer.valid_bits).wellFormed.subset_of_isNone
      (Range.isNone_bottom _) whole
  obtain ⟨start, ends⟩ := inside (by omega)
  obtain ⟨_, computed, properRange, between⟩ :=
    exists_objectRange_holds_iff moved isPoint fixed (by omega) start (by omega)
  cases result.symm.trans computed
  have width := properRange.bits_eq.trans proper.bits_eq.symm
  rw [properRange.wellFormed.subset_iff_holds proper.wellFormed width]
  intro value held
  have inside := (between value).mp held
  exact (elements value).mpr (by omega)

end Whole

end Point

end Objects

-----------------------------------------------------------------------------------------
-- Tracking
-----------------------------------------------------------------------------------------

section Tracking

variable {analysis : LocalAnalysis} {lifetime : Lifetime} {alloca : InstId} {base : ValueId}
  {bytes : Int} (reads : analysis.Reads lifetime)
  (plainly : analysis.func.UsedPlainly analysis.pointer lifetime.toMarkedFlow alloca base bytes)

include reads plainly

theorem exists_offset_isPoint {value : ValueId} {steps : Nat} {offset : Int}
    (moves : analysis.func.Moves lifetime.toMarkedFlow base steps value offset)
    : ∃ point, analysis.offset value base = .ok point
      ∧ point.IsPoint analysis.pointer.bits offset := by
  obtain ⟨point, located, isPoint⟩ := plainly.exists_offsetFrom moves
  have same : point.resizeSigned analysis.pointer.bits = .ok point := by
    simp [Range.resizeSigned, isPoint.ofWidth.bits_eq]
  refine ⟨point, ?_, isPoint⟩
  rw [LocalAnalysis.offset, reads.addresses]
  simp only [located, isPoint.isUnusable_eq_false (plainly.offsets moves).2, ok_bind,
    Bool.false_eq_true, ↓reduceIte, same]

/-- A plain use does not let the allocation out of sight. -/
theorem not_escapes {value : ValueId} {inst : InstId} {op : Inst} {operand : Nat}
    (derived : analysis.func.Derived lifetime.toMarkedFlow base value)
    (executes : lifetime.Executes inst) (found : analysis.func.inst inst = .ok op)
    (stands : op.operands[operand]? = some value)
    : ¬ analysis.Escapes (some alloca) op ⟨inst, operand⟩ := by
  have untracked : alloca ∉ lifetime.tracked := fun tracked =>
    plainly.unmarked ((MarkedFlow.mem_tracked (Lifetime.isOf reads.describes)).mp tracked)
  have alive : analysis.isAlive (some alloca) inst = true := by
    rw [isAlive, reads.liveness]
    exact Lifetime.isAliveAfter_of_untracked untracked
  intro escapes
  rcases escapes with leak | ⟨_, dead⟩
  · cases plainly.plain derived executes found (List.mem_of_getElem? stands) with
    | bitcast target => cases leak
    | ptrAdd _ _ => cases leak
    | load _ => cases leak
    | store other _ _ => cases leak.symm.trans (Inst.role_store other stands)
  · exact Bool.false_ne_true (dead.symm.trans alive)

variable (one : analysis.func.OneResult)

include one

/-- An allocation is not derived from itself: it would be no plain use of its own result. -/
theorem isOrigin_of_usedPlainly
    : analysis.func.IsOrigin analysis.liveness.isReachable base := by
  rw [reads.liveness]
  intro value comes derives
  obtain ⟨inst, live, derives, results⟩ := derives
  obtain ⟨op, found, _, operand⟩ := Function.derivesFrom_eq_true_iff.mp derives
  have derived := (Function.comesFrom_iff_derived one reads.describes).mp comes
  have executes := Lifetime.executes_of_isReachable reads.describes live
  obtain ⟨_, _, _, _, made⟩ := plainly.exists_alloca
  cases Function.resultOf_inj results plainly.results
  cases made.symm.trans found
  cases plainly.plain derived executes found operand

/-- The sites are the uses of derived values that control can come to. -/
theorem mem_sites_iff {entry : ValueId × UseSite}
    : entry ∈ analysis.sites base
      ↔ analysis.func.Derived lifetime.toMarkedFlow base entry.1
        ∧ lifetime.Executes entry.2.inst
        ∧ ∃ op, analysis.func.inst entry.2.inst = .ok op
          ∧ op.operands[entry.2.operand]? = some entry.1 := by
  rw [(enumerates_sites (isOrigin_of_usedPlainly reads plainly one)).mem_iff]
  constructor
  · intro use
    have comes := use.comes
    have live := use.live
    rw [reads.liveness] at comes live
    exact ⟨(Function.comesFrom_iff_derived one reads.describes).mp comes,
      Lifetime.executes_of_isReachable reads.describes live, use.stands⟩
  · intro use
    obtain ⟨derived, executes, stands⟩ := use
    refine ⟨?_, ?_, stands⟩
    · rw [reads.liveness]
      exact (Function.comesFrom_iff_derived one reads.describes).mpr derived
    · rw [reads.liveness]
      exact Lifetime.isReachable_of_executes reads.describes executes

theorem forwardOf_eq_none {entry : ValueId × UseSite} (member : entry ∈ analysis.sites base)
    : analysis.forwardOf base entry = .ok none := by
  obtain ⟨derived, executes, op, found, stands⟩ := (mem_sites_iff reads plainly one).mp member
  rw [forwardOf, found, ok_bind]
  cases plainly.plain derived executes found (List.mem_of_getElem? stands) with
  | bitcast target => rfl
  | ptrAdd _ _ => rfl
  | load _ => rfl
  | store other _ _ => rw [Inst.role_store other stands]; rfl

/-- The range of a site is that of an object that is accessed at an offset. -/
theorem exists_accessesAt {entry : ValueId × UseSite} {range : Range}
    (member : entry ∈ analysis.sites base)
    (result : analysis.accessOf base entry = .ok (some range))
    : ∃ steps offset ty, analysis.func.Moves lifetime.toMarkedFlow base steps entry.1 offset
      ∧ ¬ ty.HasScalable
      ∧ analysis.func.AccessesAt analysis.pointer lifetime.toMarkedFlow base offset
        (ty.exactSize analysis.pointer)
      ∧ analysis.objectRange entry.1 base ty = .ok range := by
  obtain ⟨derived, executes, op, found, stands⟩ := (mem_sites_iff reads plainly one).mp member
  obtain ⟨steps, offset, moves⟩ := plainly.exists_moves derived
  rw [accessOf, found, ok_bind] at result
  cases plainly.plain derived executes found (List.mem_of_getElem? stands) with
  | bitcast target => cases result
  | ptrAdd _ _ => cases result
  | @load ty fixed =>
      obtain ⟨_, computed, result⟩ := exists_of_bind_eq_ok result
      cases result
      exact ⟨steps, offset, ty, moves, fixed, .load moves executes found, computed⟩
  | @store stored ty other typed fixed =>
      rw [Inst.role_store other stands] at result
      obtain ⟨_, computed, result⟩ := exists_of_bind_eq_ok result
      cases result
      rw [extentRange, typed, ok_bind] at computed
      exact ⟨steps, offset, ty, moves, fixed, .store moves executes found typed, computed⟩

/-- Every access has a site, with the range of the object. -/
theorem exists_site {offset : Int} {size : Nat}
    (accesses : analysis.func.AccessesAt analysis.pointer lifetime.toMarkedFlow base offset size)
    : ∃ entry ∈ analysis.sites base, ∃ steps ty,
        analysis.func.Moves lifetime.toMarkedFlow base steps entry.1 offset
        ∧ ¬ ty.HasScalable
        ∧ size = ty.exactSize analysis.pointer
        ∧ ∀ {answer}, analysis.accessOf base entry = .ok answer
          → ∃ range, answer = some range ∧ analysis.objectRange entry.1 base ty = .ok range := by
  cases accesses with
  | @load steps value offset inst ty moves executes found =>
      refine ⟨(value, ⟨inst, 0⟩), (mem_sites_iff reads plainly one).mpr
        ⟨moves.derived, executes, _, found, rfl⟩, steps, ty, moves, ?_, rfl, fun result => ?_⟩
      · cases plainly.plain moves.derived executes found List.mem_cons_self with
        | load fixed => exact fixed
      · rw [accessOf, found, ok_bind] at result
        obtain ⟨range, computed, result⟩ := exists_of_bind_eq_ok result
        cases result
        exact ⟨range, rfl, computed⟩
  | @store steps value offset inst stored ty moves executes found typed =>
      refine ⟨(value, ⟨inst, 1⟩), (mem_sites_iff reads plainly one).mpr
        ⟨moves.derived, executes, _, found, rfl⟩, steps, ty, moves, ?_, rfl, fun result => ?_⟩
      · cases plainly.plain moves.derived executes found
          (List.mem_cons_of_mem _ List.mem_cons_self) with
        | store _ typedAgain fixed =>
            cases typed.symm.trans typedAgain
            exact fixed
      · rw [accessOf, found, ok_bind] at result
        obtain ⟨range, computed, result⟩ := exists_of_bind_eq_ok result
        cases result
        rw [extentRange, typed, ok_bind] at computed
        exact ⟨range, rfl, computed⟩

/-- Tracking a plainly used allocation finds no calls, and a range that is included in the bytes of
the allocation exactly when every access is.
-/
theorem track_subset_iff {tracked : Tracked} {whole : Range}
    (result : (analysis.track base (some alloca)).result = .ok tracked)
    (sized : analysis.func.allocaRange analysis.pointer alloca = .ok whole)
    : tracked.usage.calls = []
      ∧ (tracked.usage.range ⊆ whole
        ↔ ∀ offset size, analysis.func.AccessesAt analysis.pointer lifetime.toMarkedFlow base offset
            size
          → 0 < size → 0 ≤ offset ∧ offset + size ≤ bytes) := by
  obtain ⟨_, sizedAgain, proper, notAll, elements⟩ :=
    plainly.reserves.exists_allocaRange plainly.positive plainly.small
  cases sized.symm.trans sizedAgain
  have straight : whole.Straight := by
    refine proper.wellFormed.straight_of_not_holds fun last => ?_
    have inside := ((elements _).mp last).2
    have small := plainly.small
    rw [proper.bits_eq] at inside
    omega
  rw [result_track] at result
  have isHull := Range.isHull_bottom analysis.pointer.valid_bits
  cases collect_addsUp reads.proper isHull (fun _ => mem_uses_of_sites) result with
  | escaped member found stands escapes _ =>
      obtain ⟨derived, executes, _⟩ := (mem_sites_iff reads plainly one).mp member
      exact absurd escapes (not_escapes reads plainly derived executes found stands)
  | @complete usage ranges calls accesses forwards _ isHull added =>
      have noCalls : calls = [] := by
        refine List.eq_nil_iff_forall_not_mem.mpr fun call member => ?_
        obtain ⟨entry, listed, forwarded⟩ := (mem_filterMapM forwards).mp member
        cases (forwardOf_eq_none reads plainly one listed).symm.trans forwarded
      rw [List.nil_append] at isHull added
      refine ⟨added.trans noCalls, fun included offset size access positive => ?_, fun inside => ?_⟩
      · obtain ⟨entry, listed, steps, ty, moves, fixed, rfl, answers⟩ :=
          exists_site reads plainly one access
        obtain ⟨answer, answered⟩ := exists_of_filterMapM accesses listed
        obtain ⟨range, rfl, computed⟩ := answers answered
        obtain ⟨point, moved, isPoint⟩ := exists_offset_isPoint reads plainly moves
        have listedRange := (mem_filterMapM accesses).mpr ⟨entry, listed, answered⟩
        exact (objectRange_subset_iff moved isPoint reads proper notAll elements fixed
          plainly.small computed).mp
          (Range.subset_trans (isHull.includes range listedRange) included) positive
      · refine isHull.least whole proper straight fun range member => ?_
        obtain ⟨entry, listed, answered⟩ := (mem_filterMapM accesses).mp member
        obtain ⟨steps, offset, ty, moves, fixed, access, computed⟩ :=
          exists_accessesAt reads plainly one listed answered
        obtain ⟨point, moved, isPoint⟩ := exists_offset_isPoint reads plainly moves
        exact (objectRange_subset_iff moved isPoint reads proper notAll elements fixed
          plainly.small computed).mpr (inside offset _ access)

end Tracking

end LocalAnalysis

end StackBounds
