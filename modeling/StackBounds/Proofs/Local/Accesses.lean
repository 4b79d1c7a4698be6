import StackBounds.Proofs.Addresses
import StackBounds.Proofs.Lifetimes

/-! The bytes of one access: relative to a tracked address they are in the range that the local
analysis computes, as long as a length that is read as unsigned stays below half the address space.
-/

namespace StackBounds

open Word (Valid Fits half)

/-- Everything is possible, or an address is at a position relative to the base. -/
def Range.AllowsFrom (range : Range) (base root : ValueId) (position : Int) : Prop :=
  range.IsAll ∨ (root = base ∧ range.Holds position)

/-- All answers are well-formed ranges, of any width. -/
structure AddressOracle.Proper (oracle : AddressOracle) : Prop where
  offsetFrom : ∀ {addr base range}, oracle.offsetFrom addr base = .ok range → range.WellFormed
  signedRange : ∀ {value range}, oracle.signedRange value = .ok range → range.WellFormed

namespace LocalAnalysis

/-- The analysis asks the function itself about lifetimes and addresses. -/
structure Reads (analysis : LocalAnalysis) (lifetime : Lifetime) : Prop where
  describes : lifetime.Describes analysis.func
  liveness : analysis.liveness = ⟨lifetime.isReachable, lifetime.isAliveAfter⟩
  addresses : analysis.addresses
    = ⟨analysis.func.offsetFrom analysis.pointer, analysis.func.signedRange analysis.pointer⟩

theorem reads_of_ofFunction {func : Function} {pointer : PointerWidth} {analysis : LocalAnalysis}
    (made : ofFunction func pointer = .ok analysis)
    : analysis.func = func ∧ analysis.pointer = pointer ∧ ∃ lifetime, analysis.Reads lifetime := by
  obtain ⟨lifetime, found, made⟩ := exists_of_bind_eq_ok made
  cases made
  exact ⟨rfl, rfl, lifetime, Lifetime.describes_of_ofFunction found, rfl, rfl⟩

-----------------------------------------------------------------------------------------
-- Shapes of ranges
-----------------------------------------------------------------------------------------

/-- The range of an access by its extent. -/
def extentRange (analysis : LocalAnalysis) (addr base : ValueId) : Extent → Except Fault Range
  | .object ty => analysis.objectRange addr base ty
  | .stored value => do analysis.objectRange addr base (← analysis.func.valueTy value)
  | .bulk length => analysis.bulkRange addr base length

section Shapes

variable {analysis : LocalAnalysis}

theorem unknown_spec {range : Range} (result : analysis.unknown = .ok range)
    : range.OfWidth analysis.pointer.bits ∧ range.IsAll :=
  Range.full_spec analysis.pointer.valid_bits result

/-- An access fails when its size range ends at zero: its positions pass the end of the signed
numbers.
-/
theorem accessRange_ofSigned_neg_one {addr base : ValueId} {positions : Range}
    (built : Range.ofSigned analysis.pointer.bits 0 (-1) = .ok positions)
    : analysis.accessRange addr base positions = .error .accessSize := by
  unfold accessRange
  cases pointer : analysis.pointer <;> rw [pointer] at built <;> cases built <;> rfl

/-- The range of an object is everything, or that of an access at the positions of its bytes. -/
theorem objectRange_cases {addr base : ValueId} {ty : Ty} {range : Range}
    (result : analysis.objectRange addr base ty = .ok range)
    : (range.OfWidth analysis.pointer.bits ∧ range.IsAll)
      ∨ ∃ size positions, (ty.size analysis.pointer).fixed? = some size
        ∧ size < half analysis.pointer.bits
        ∧ positions.OfWidth analysis.pointer.bits
        ∧ (∀ value : Int, positions.Holds value ↔ 0 ≤ value ∧ value < size)
        ∧ analysis.accessRange addr base positions = .ok range := by
  have valid := analysis.pointer.valid_bits
  rw [objectRange, valid.signedMax_eq, ok_bind] at result
  split at result
  · exact Or.inl (unknown_spec result)
  rename_i size fixed
  split at result
  · rename_i small
    obtain ⟨positions, built, result⟩ := exists_of_bind_eq_ok result
    have positive := Word.half_pos analysis.pointer.bits
    obtain ⟨_, found, proper, _, elements⟩ := Range.ofSigned_spec valid
      (show Fits analysis.pointer.bits 0 by unfold Fits; omega)
      (show Fits analysis.pointer.bits size by unfold Fits; omega) (by omega)
    cases built.symm.trans found
    exact Or.inr ⟨size, positions, fixed, by omega, proper, elements, result⟩
  · exact Or.inl (unknown_spec result)

variable (proper : analysis.addresses.Proper)

include proper

theorem offset_ofWidth {addr base : ValueId} {range : Range}
    (result : analysis.offset addr base = .ok range)
    : range.OfWidth analysis.pointer.bits := by
  obtain ⟨source, found, result⟩ := exists_of_bind_eq_ok result
  have wf := proper.offsetFrom found
  rw [wf.isUnusable_eq, ok_bind] at result
  split at result
  · exact (unknown_spec result).1
  · obtain ⟨_, resized, properResized, _⟩ :=
      Range.resizeSigned_spec wf analysis.pointer.valid_bits
    cases resized.symm.trans result
    exact properResized

/-- The range of an access is everything, or it holds the sums of the offsets and the positions. -/
theorem accessRange_cases {addr base : ValueId} {positions range : Range}
    (properPositions : positions.OfWidth analysis.pointer.bits)
    (result : analysis.accessRange addr base positions = .ok range)
    : range.OfWidth analysis.pointer.bits
      ∧ (range.IsAll
        ∨ (positions.IsNone ∧ range.IsNone)
        ∨ ∃ offsets, analysis.offset addr base = .ok offsets ∧ ¬ offsets.IsAll
          ∧ Range.SignedSum offsets positions range) := by
  have valid := analysis.pointer.valid_bits
  unfold accessRange at result
  split at result
  · rename_i empty
    cases (Range.empty_eq valid).symm.trans result
    exact ⟨Range.ofWidth_bottom valid,
      Or.inr (Or.inl ⟨Range.isEmpty_iff.mp empty, Range.isNone_bottom _⟩)⟩
  rw [properPositions.wellFormed.isUnusable_eq, ok_bind] at result
  split at result
  · cases result
  obtain ⟨offsets, found, result⟩ := exists_of_bind_eq_ok result
  have properOffsets := offset_ofWidth proper found
  rw [properOffsets.wellFormed.isUnusable_eq] at result
  simp only [ok_bind, decide_eq_true_eq] at result
  split at result
  · exact (unknown_spec result).imp_right Or.inl
  rename_i usable
  obtain ⟨sum, summed, result⟩ := exists_of_bind_eq_ok result
  obtain ⟨_, found', meets⟩ := Range.addSigned_spec properOffsets.wellFormed
    properPositions.wellFormed (properPositions.bits_eq.trans properOffsets.bits_eq.symm)
  cases summed.symm.trans found'
  rw [meets.ofWidth.wellFormed.isUnusable_eq, ok_bind] at result
  split at result
  · exact (unknown_spec result).imp_right Or.inl
  cases result
  exact ⟨properOffsets.bits_eq ▸ meets.ofWidth,
    Or.inr (Or.inr ⟨offsets, found, fun all => usable (Or.inr (Or.inl all)), meets⟩)⟩

/-- The range of a memory operation is everything, or that of an access whose positions end before
the largest length that is not negative when it is read as signed.
-/
theorem bulkRange_cases {addr base length : ValueId} {range : Range}
    (result : analysis.bulkRange addr base length = .ok range)
    : (range.OfWidth analysis.pointer.bits ∧ range.IsAll)
      ∨ ∃ number sizes positions, analysis.addresses.signedRange length = .ok number
        ∧ number.resizeUnsigned analysis.pointer.bits = .ok sizes
        ∧ ¬ sizes.IsAll
        ∧ sizes.low < sizes.high
        ∧ 1 ≤ sizes.high
        ∧ positions.OfWidth analysis.pointer.bits
        ∧ (∀ value, positions.Holds value ↔ 0 ≤ value ∧ value < sizes.high - 1)
        ∧ analysis.accessRange addr base positions = .ok range := by
  have valid := analysis.pointer.valid_bits
  have positive := Word.half_pos analysis.pointer.bits
  obtain ⟨number, evaluated, result⟩ := exists_of_bind_eq_ok result
  obtain ⟨sizes, resizing, result⟩ := exists_of_bind_eq_ok result
  obtain ⟨_, resized, properSizes, _⟩ :=
    Range.resizeUnsigned_spec (proper.signedRange evaluated) valid
  cases resizing.symm.trans resized
  rw [properSizes.wellFormed.signedUpper_eq, ok_bind] at result
  split at result
  · exact Or.inl (unknown_spec result)
  rename_i upward
  rw [properSizes.wellFormed.isUnusable_eq] at result
  simp only [ok_bind, decide_eq_true_eq] at result
  split at result
  · exact Or.inl (unknown_spec result)
  rename_i usable
  obtain ⟨some, notAll, forward⟩ : ¬ sizes.IsNone ∧ ¬ sizes.IsAll ∧ ¬ sizes.high < sizes.low := by
    simpa only [not_or] using usable
  obtain ⟨positions, built, result⟩ := exists_of_bind_eq_ok result
  have fits := properSizes.wellFormed.fits_high
  rw [properSizes.bits_eq] at fits
  have above : 1 ≤ sizes.high := by
    by_contra zero
    have last : sizes.high - 1 = -1 := by omega
    cases (accessRange_ofSigned_neg_one (last ▸ built)).symm.trans result
  unfold Fits at fits
  obtain ⟨_, found, properPositions, _, elements⟩ := Range.ofSigned_spec valid
    (show Fits analysis.pointer.bits 0 by unfold Fits; omega)
    (show Fits analysis.pointer.bits (sizes.high - 1) by unfold Fits; omega) (by omega)
  cases built.symm.trans found
  have differ := properSizes.wellFormed.low_ne_high some notAll
  exact Or.inr ⟨number, sizes, positions, evaluated, resizing, notAll, by omega, above,
    properPositions, elements, result⟩

/-- The range of an access has the width of a pointer. -/
theorem extentRange_ofWidth {addr base : ValueId} {extent : Extent} {range : Range}
    (result : analysis.extentRange addr base extent = .ok range)
    : range.OfWidth analysis.pointer.bits := by
  have object {ty : Ty} (result : analysis.objectRange addr base ty = .ok range)
      : range.OfWidth analysis.pointer.bits := by
    rcases objectRange_cases result with ⟨properRange, _⟩ | ⟨_, _, _, _, positions, _, accessed⟩
    · exact properRange
    · exact (accessRange_cases proper positions accessed).1
  cases extent with
  | object ty => exact object result
  | stored value =>
      obtain ⟨ty, _, result⟩ := exists_of_bind_eq_ok result
      exact object result
  | bulk length =>
      rcases bulkRange_cases proper result with
        ⟨properRange, _⟩ | ⟨_, _, _, _, _, _, _, _, positions, _, accessed⟩
      · exact properRange
      · exact (accessRange_cases proper positions accessed).1

end Shapes

-----------------------------------------------------------------------------------------
-- Bytes that are covered
-----------------------------------------------------------------------------------------

section Covering

variable {analysis : LocalAnalysis} {lifetime : Lifetime} {possible : Possible}
  (reads : analysis.Reads lifetime) (closed : possible.Closed analysis.func analysis.pointer)

include reads

theorem Reads.proper : analysis.addresses.Proper := by
  have closed := Possible.closed_empty analysis.func analysis.pointer
  rw [reads.addresses]
  exact ⟨fun found => (Function.offsetFrom_locates closed found).1.wellFormed,
    fun found => (Function.rangeOf_bounds closed _ found).wellFormed⟩

include closed

theorem offsetFrom_covers {addr base : ValueId} {range : Range}
    (result : analysis.addresses.offsetFrom addr base = .ok range)
    : range.OfWidth analysis.pointer.bits
      ∧ ∀ {root offset}, analysis.func.Points analysis.pointer possible addr root offset
        → range.AllowsFrom base root offset := by
  rw [reads.addresses] at result
  exact Function.offsetFrom_locates closed result

/-- The offsets of an address are never empty, and cover where it points. -/
theorem offset_covers {addr base : ValueId} {range : Range}
    (result : analysis.offset addr base = .ok range)
    : range.OfWidth analysis.pointer.bits
      ∧ ¬ range.IsNone
      ∧ ∀ {root offset}, analysis.func.Points analysis.pointer possible addr root offset
        → range.AllowsFrom base root offset := by
  obtain ⟨source, found, result⟩ := exists_of_bind_eq_ok result
  obtain ⟨proper, covers⟩ := offsetFrom_covers reads closed found
  rw [proper.wellFormed.isUnusable_eq] at result
  simp only [ok_bind, decide_eq_true_eq] at result
  split at result
  · obtain ⟨proper, all⟩ := unknown_spec result
    exact ⟨proper, fun none => proper.wellFormed.not_isAll_of_isNone none all,
      fun _ => Or.inl all⟩
  · rename_i usable
    have same : source.resizeSigned analysis.pointer.bits = .ok source := by
      simp [Range.resizeSigned, proper.bits_eq]
    cases same.symm.trans result
    exact ⟨proper, fun none => usable (Or.inl none), covers⟩

/-- The bytes at positions inside an access are in its range. -/
theorem accessRange_covers {addr base : ValueId} {positions range : Range}
    (proper : positions.OfWidth analysis.pointer.bits)
    (result : analysis.accessRange addr base positions = .ok range)
    : range.OfWidth analysis.pointer.bits
      ∧ ∀ {root offset index}, analysis.func.Points analysis.pointer possible addr root offset
        → positions.Holds index → range.AllowsFrom base root (offset + index) := by
  obtain ⟨properRange, shape⟩ := accessRange_cases reads.proper proper result
  refine ⟨properRange, fun points held => ?_⟩
  rcases shape with all | ⟨none, _⟩ | ⟨offsets, found, notAll, meets⟩
  · exact Or.inl all
  · exact absurd held.2 (proper.wellFormed.not_mem_of_isNone none _)
  · obtain ⟨_, _, covers⟩ := offset_covers reads closed found
    rcases covers points with all | ⟨same, heldOffset⟩
    · exact absurd all notAll
    · exact (meets.covers heldOffset held).imp_right fun held => ⟨same, held⟩

/-- The bytes of an object are in the range of its access. -/
theorem objectRange_covers {addr base : ValueId} {ty : Ty} {range : Range}
    (result : analysis.objectRange addr base ty = .ok range)
    : range.OfWidth analysis.pointer.bits
      ∧ ∀ {root offset bytes} {index : Nat},
        analysis.func.Points analysis.pointer possible addr root offset
        → (ty.size analysis.pointer).Admits bytes → index < bytes
        → range.AllowsFrom base root (offset + index) := by
  rcases objectRange_cases result with
    ⟨properRange, all⟩ | ⟨size, positions, fixed, small, proper, elements, accessed⟩
  · exact ⟨properRange, fun _ _ _ => Or.inl all⟩
  obtain ⟨properRange, covers⟩ := accessRange_covers reads closed proper accessed
  refine ⟨properRange, fun points admits inside => ?_⟩
  have whole : size < maxBytes := by
    have : half analysis.pointer.bits ≤ maxBytes := by cases analysis.pointer <;> decide
    omega
  cases Function.eq_of_admits fixed whole admits
  exact covers points ((elements _).mpr ⟨by omega, by omega⟩)

/-- The bytes of a memory operation are in the range of its access, if its length is not negative
when it is read as signed.
-/
theorem bulkRange_covers {addr base length : ValueId} {range : Range}
    (result : analysis.bulkRange addr base length = .ok range)
    : range.OfWidth analysis.pointer.bits
      ∧ ∀ {root offset bits} {x : BitVec bits} {index : Nat},
        analysis.func.Points analysis.pointer possible addr root offset
        → x ∈ possible length bits
        → (x.setWidth analysis.pointer.bits.toNat).toNat < half analysis.pointer.bits
        → index < (x.setWidth analysis.pointer.bits.toNat).toNat
        → range.AllowsFrom base root (offset + index) := by
  have valid := analysis.pointer.valid_bits
  rcases bulkRange_cases reads.proper result with
    ⟨properRange, all⟩ | ⟨number, sizes, positions, evaluated, resizing, notAll, forward, _,
      properPositions, elements, accessed⟩
  · exact ⟨properRange, fun _ _ _ _ => Or.inl all⟩
  have bounds := Function.rangeOf_bounds closed _ (reads.addresses ▸ evaluated)
  obtain ⟨proper, keeps⟩ := Range.resizeUnsigned_describes bounds.wellFormed valid resizing
  obtain ⟨properRange, covers⟩ := accessRange_covers reads closed properPositions accessed
  refine ⟨properRange, fun points can short inside => covers points ((elements _).mpr ?_)⟩
  -- A short length is its own signed reading, so it is below the upper bound of the sizes.
  have held := (keeps (bounds.describes can)).holds proper.wellFormed
  rw [proper.wellFormed.holds_iff_of_not_isAll notAll, ← Range.signed_toNat] at held
  have double := valid.count_eq
  have reading := valid.signed_cases (Nat.lt_of_lt_of_le short (by omega))
  omega

/-- The bytes of an access are in its range, except for negative lengths. -/
theorem extentRange_covers {addr base : ValueId} {extent : Extent} {range : Range}
    (result : analysis.extentRange addr base extent = .ok range)
    : range.OfWidth analysis.pointer.bits
      ∧ ∀ {root offset bytes} {index : Nat},
        analysis.func.Points analysis.pointer possible addr root offset
        → extent.Spans analysis.func analysis.pointer possible bytes
        → (∀ length, extent = .bulk length → bytes < half analysis.pointer.bits)
        → index < bytes
        → range.AllowsFrom base root (offset + index) := by
  cases extent with
  | object ty =>
      obtain ⟨proper, covers⟩ := objectRange_covers reads closed result
      exact ⟨proper, fun points admits _ inside => covers points admits inside⟩
  | stored value =>
      obtain ⟨ty, typed, result⟩ := exists_of_bind_eq_ok result
      obtain ⟨proper, covers⟩ := objectRange_covers reads closed result
      refine ⟨proper, fun points spans _ inside => ?_⟩
      obtain ⟨_, same, admits⟩ := spans
      cases typed.symm.trans same
      exact covers points admits inside
  | bulk length =>
      obtain ⟨proper, covers⟩ := bulkRange_covers reads closed result
      refine ⟨proper, fun points spans short inside => ?_⟩
      obtain ⟨bits, x, can, rfl⟩ := spans
      exact covers points can (short length rfl) inside

end Covering

end LocalAnalysis

end StackBounds
