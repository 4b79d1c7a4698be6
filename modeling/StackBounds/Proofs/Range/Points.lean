import StackBounds.Address
import StackBounds.Proofs.Range.Cover
import StackBounds.Proofs.Range.Resizing
import StackBounds.Proofs.Range.SignedSums

/-! Ranges of one number. Taking a number to another width that it fits and adding two numbers whose
sum fits gives exactly that number again, so constants are followed without loss.
-/

namespace StackBounds.Range

open Word (Valid Fits count half signed residue)

/-- The range holds one number of a width and nothing else. -/
structure IsPoint (bits : UInt32) (number : Int) (range : Range) : Prop where
  ofWidth : range.OfWidth bits
  holds_iff : ∀ value, range.Holds value ↔ value = number

variable {bits wide : UInt32} {number : Int} {range : Range}

-----------------------------------------------------------------------------------------
-- Usable ranges
-----------------------------------------------------------------------------------------

/-- A range that does not hold the greatest number does not pass it. -/
theorem WellFormed.straight_of_not_holds (wf : range.WellFormed)
    (below : ¬ range.Holds ((half range.bits : Int) - 1))
    : range.Straight := by
  rw [wf.straight_iff]
  by_contra unusable
  obtain ⟨_, notAll, wrapped⟩ := by simpa only [not_or, not_not] using unusable
  refine below ((wf.holds_iff_of_not_isAll notAll).mpr ⟨?_, Or.inr ⟨wrapped, Or.inl ?_⟩⟩)
  · have positive := Word.half_pos range.bits
    unfold Fits
    omega
  · have fits := wf.fits_low.2
    omega

/-- A range is usable when it holds some number, and not the greatest one. -/
theorem WellFormed.isUnusable_eq_false (wf : range.WellFormed) {value : Int}
    (held : range.Holds value) (below : ¬ range.Holds ((half range.bits : Int) - 1))
    : range.isUnusable = .ok false := by
  have some : ¬ range.IsNone := fun none => wf.not_mem_of_isNone none _ held.2
  have notAll : ¬ range.IsAll := by
    intro all
    have positive := Word.half_pos range.bits
    exact below (holds_of_isAll all ⟨by omega, by omega⟩)
  have straight := (wf.straight_iff.mp (wf.straight_of_not_holds below)).resolve_left some
  rw [wf.isUnusable_eq, Except.ok.injEq, decide_eq_false_iff_not, not_or, not_or]
  exact ⟨some, notAll, straight.resolve_left notAll⟩

/-- Some numbers in a row are usable when they end below the greatest one. -/
theorem OfWidth.isUnusable_eq_false (proper : range.OfWidth bits) {low high : Int}
    (elements : ∀ value, range.Holds value ↔ low ≤ value ∧ value < high) (some : low < high)
    (below : high < half bits)
    : range.isUnusable = .ok false := by
  have first : range.Holds low := (elements low).mpr ⟨Int.le_refl low, some⟩
  refine proper.wellFormed.isUnusable_eq_false first fun last => ?_
  have inside := ((elements _).mp last).2
  rw [proper.bits_eq] at inside
  omega

-----------------------------------------------------------------------------------------
-- Points
-----------------------------------------------------------------------------------------

theorem IsPoint.holds (point : range.IsPoint bits number) : range.Holds number :=
  (point.holds_iff number).mpr rfl

theorem IsPoint.not_isNone (point : range.IsPoint bits number) : ¬ range.IsNone := fun none =>
  point.ofWidth.wellFormed.not_mem_of_isNone none _ point.holds.2

theorem exists_singleton_isPoint (valid : Valid bits) (fits : Fits bits number)
    : ∃ range, singleton bits number = .ok range ∧ range.IsPoint bits number := by
  obtain ⟨range, built, proper, _, elements⟩ := singleton_spec valid fits
  exact ⟨range, built, proper, elements⟩

theorem IsPoint.signedMin_eq (point : range.IsPoint bits number)
    : range.signedMin = .ok number := by
  obtain ⟨least, found, held, _⟩ := point.ofWidth.wellFormed.signedMin_spec point.not_isNone
  rw [found, (point.holds_iff least).mp held]

theorem IsPoint.signedMax_eq (point : range.IsPoint bits number)
    : range.signedMax = .ok number := by
  obtain ⟨greatest, found, held, _⟩ := point.ofWidth.wellFormed.signedMax_spec point.not_isNone
  rw [found, (point.holds_iff greatest).mp held]

theorem exists_ofSignedClosed_isPoint (valid : Valid bits) (fits : Fits bits number)
    : ∃ range, ofSignedClosed bits number number = .ok range ∧ range.IsPoint bits number := by
  obtain ⟨range, built, proper, elements⟩ := ofSignedClosed_spec valid fits fits (Int.le_refl _)
  refine ⟨range, built, proper, fun value => ?_⟩
  rw [elements]
  omega

/-- A number below the greatest one is usable as an offset. -/
theorem IsPoint.isUnusable_eq_false (point : range.IsPoint bits number)
    (below : number < (half bits : Int) - 1)
    : range.isUnusable = .ok false := by
  refine point.ofWidth.isUnusable_eq_false (fun value => ?_) (Int.lt_succ number) (by omega)
  rw [point.holds_iff]
  omega

-----------------------------------------------------------------------------------------
-- Another width
-----------------------------------------------------------------------------------------

/-- A number stays the same at a narrower width that it fits. -/
theorem IsPoint.exists_truncate (point : range.IsPoint wide number) (valid : Valid bits)
    (narrower : bits.toNat < wide.toNat) (fits : Fits bits number)
    : ∃ resized, range.truncate bits = .ok resized ∧ resized.IsPoint bits number := by
  have wf := point.ofWidth.wellFormed
  have width := point.ofWidth.bits_eq
  have wideValid : Valid wide := width ▸ wf.valid
  have notAll : ¬ range.IsAll := by
    intro all
    -- Two numbers that fit are two elements.
    have first := (point.holds_iff 0).mp
      (holds_of_isAll all (width.symm ▸ ⟨by omega, by have := Word.half_pos wide; omega⟩))
    have second := (point.holds_iff (-1)).mp
      (holds_of_isAll all (width.symm ▸ ⟨by have := Word.half_pos wide; omega, by omega⟩))
    omega
  have arc : range.IsArc := ⟨wf, point.not_isNone, notAll⟩
  have same : residue wide number % count bits = residue bits number :=
    Word.residue_mod (Nat.le_of_lt narrower) number
  have only {word : Nat} (member : word ∈ range) : word = residue wide number := by
    obtain ⟨bound, held⟩ := wf.mem_iff_holds.mp member
    rw [width] at bound held
    rw [← (point.holds_iff _).mp held, wideValid.residue_signed bound]
  rw [truncate, if_neg fun empty => point.not_isNone (isEmpty_iff.mp empty), wf.isFull_eq, ok_bind,
    if_neg (by simpa using notAll), arc.fitsUnsigned_eq valid, ok_bind, point.signedMin_eq,
    point.signedMax_eq, valid.signedMin_eq, valid.signedMax_eq]
  split
  · rename_i plain
    rw [decide_eq_true_eq] at plain
    have narrow : IsArc ⟨bits, range.lower, range.upper⟩ :=
      isArc_of_ne valid (by simp only; omega) (by simp only; omega) arc.differ
    have inside := arc.mem_iff.mp point.holds.2
    rw [width] at inside
    have whole : residue wide number = residue bits number :=
      (Nat.mod_eq_of_lt (by omega)).symm.trans same
    refine ⟨_, rfl, ⟨narrow.wellFormed, rfl⟩, fun value => ⟨?_, ?_⟩⟩
    · rintro ⟨fitsValue, memberValue⟩
      have between := narrow.mem_iff.mp memberValue
      simp only at between fitsValue
      have upper := wf.upper_lt
      have member : residue bits value ∈ range := arc.mem_iff.mpr ⟨by omega, by omega⟩
      rw [← valid.signed_residue fitsValue, ← valid.signed_residue fits, only member, whole]
    · rintro rfl
      exact ⟨fits, narrow.mem_iff.mpr ⟨Word.residue_lt _ _, by simp only; omega⟩⟩
  · unfold Fits at fits
    obtain ⟨resized, built, isPoint⟩ := exists_ofSignedClosed_isPoint valid fits
    refine ⟨resized, ?_, isPoint⟩
    simp only [ok_bind]
    rw [if_neg (by omega), built]

/-- A number stays the same at every width that it fits. -/
theorem IsPoint.exists_resizeSigned (point : range.IsPoint wide number) (valid : Valid bits)
    (fits : Fits bits number)
    : ∃ resized, range.resizeSigned bits = .ok resized ∧ resized.IsPoint bits number := by
  have width := point.ofWidth.bits_eq
  unfold resizeSigned
  rw [width]
  split
  · rw [signExtend, if_neg fun empty => point.not_isNone (isEmpty_iff.mp empty),
      point.signedMin_eq, point.signedMax_eq, ok_bind, ok_bind]
    exact exists_ofSignedClosed_isPoint valid fits
  rename_i notWider
  split
  · rename_i narrower
    exact point.exists_truncate valid (UInt32.lt_iff_toNat_lt.mp narrower) fits
  · rename_i notNarrower
    have same : wide = bits := by
      rw [UInt32.lt_iff_toNat_lt] at notWider notNarrower
      exact UInt32.toNat_inj.mp (by omega)
    exact ⟨range, rfl, same ▸ point⟩

-----------------------------------------------------------------------------------------
-- Sums
-----------------------------------------------------------------------------------------

/-- Adding a number to a range moves its elements, if they fit there. -/
theorem IsPoint.exists_addSigned_holds_iff {other : Range} (point : range.IsPoint bits number)
    (proper : other.OfWidth bits)
    (fitting : ∀ value, other.Holds value → Fits bits (number + value))
    : ∃ sum, range.addSigned other = .ok sum
      ∧ sum.OfWidth bits
      ∧ ∀ value, sum.Holds value ↔ other.Holds (value - number) := by
  have width := point.ofWidth.bits_eq
  obtain ⟨sum, added, meets⟩ := addSigned_spec point.ofWidth.wellFormed proper.wellFormed
    (proper.bits_eq.trans width.symm)
  refine ⟨sum, added, width ▸ meets.ofWidth, fun value => ?_⟩
  have elements := meets.exact fun x y hx hy => by
    rw [(point.holds_iff x).mp hx, width]
    exact fitting y hy
  rw [elements]
  constructor
  · rintro ⟨x, y, hx, hy, rfl⟩
    rwa [(point.holds_iff x).mp hx, add_sub_cancel_left]
  · intro held
    exact ⟨number, _, point.holds, held, by omega⟩

/-- Two numbers add up to their sum, if it fits. -/
theorem IsPoint.exists_addSigned {other : Range} {step : Int} (point : range.IsPoint bits number)
    (moved : other.IsPoint bits step) (fits : Fits bits (number + step))
    : ∃ sum, range.addSigned other = .ok sum ∧ sum.IsPoint bits (number + step) := by
  obtain ⟨sum, added, proper, elements⟩ := point.exists_addSigned_holds_iff moved.ofWidth
    fun value held => (moved.holds_iff value).mp held ▸ fits
  refine ⟨sum, added, proper, fun value => ?_⟩
  rw [elements, moved.holds_iff]
  omega

/-- Offsets below the greatest number are added, if their sum fits. -/
theorem IsPoint.exists_addOffsets {other : Range} {step : Int} (point : range.IsPoint bits number)
    (moved : other.IsPoint bits step) (below : number < (half bits : Int) - 1)
    (belowStep : step < (half bits : Int) - 1) (fits : Fits bits (number + step))
    : ∃ sum, Function.addOffsets range other = .ok sum ∧ sum.IsPoint bits (number + step) := by
  simp only [Function.addOffsets, point.isUnusable_eq_false below,
    moved.isUnusable_eq_false belowStep, ok_bind, Bool.false_eq_true, ↓reduceIte]
  exact point.exists_addSigned moved fits

end StackBounds.Range
