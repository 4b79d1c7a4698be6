import StackBounds.Proofs.Range.Sets

/-! The shape tests and the builders of ranges, on widths 1 to 64. Each of them has an answer
there, and the answer is said in terms of the elements.
-/

namespace StackBounds.Range

open Word (Valid Fits count half signed residue)

-----------------------------------------------------------------------------------------
-- The empty and the full set
-----------------------------------------------------------------------------------------

/-- The set of all words, as a total function of the width. -/
def top (bits : UInt32) : Range := ⟨bits, Word.ones bits, Word.ones bits⟩

/-- The set without words, as a total function of the width. -/
def bottom (bits : UInt32) : Range := ⟨bits, 0, 0⟩

theorem full_eq {bits : UInt32} (valid : Valid bits) : full bits = .ok (top bits) := by
  simp [full, valid.requireSigned_eq, valid.mask_eq, top]

theorem empty_eq {bits : UInt32} (valid : Valid bits) : empty bits = .ok (bottom bits) := by
  simp [empty, valid.requireSigned_eq, bottom]

theorem isAll_top {bits : UInt32} (valid : Valid bits) : (top bits).IsAll :=
  ⟨valid.toNat_ones, valid.toNat_ones⟩

theorem isNone_bottom (bits : UInt32) : (bottom bits).IsNone := ⟨rfl, rfl⟩

theorem ofWidth_top {bits : UInt32} (valid : Valid bits) : (top bits).OfWidth bits := by
  have positive := Word.count_pos bits
  have ones : (Word.ones bits).toNat = count bits - 1 := valid.toNat_ones
  refine ⟨⟨valid.1, valid.2, ?_, ?_, fun _ => Or.inr ones⟩, rfl⟩
  · simp only [top]
    omega
  · simp only [top]
    omega

theorem ofWidth_bottom {bits : UInt32} (valid : Valid bits) : (bottom bits).OfWidth bits :=
  ⟨⟨valid.1, valid.2, Word.count_pos bits, Word.count_pos bits, fun _ => Or.inl rfl⟩, rfl⟩

theorem full_spec {bits : UInt32} {range : Range} (valid : Valid bits)
    (built : full bits = .ok range)
    : range.OfWidth bits ∧ range.IsAll := by
  cases (full_eq valid).symm.trans built
  exact ⟨ofWidth_top valid, isAll_top valid⟩

/-- Only one range of a width denotes everything. -/
theorem eq_top {range : Range} {bits : UInt32} (valid : Valid bits) (width : range.bits = bits)
    (h : range.IsAll)
    : range = top bits := by
  obtain ⟨_, lower, upper⟩ := range
  subst width
  have ones := valid.toNat_ones
  have lowerEq : lower = Word.ones _ := UInt64.toNat_inj.mp (h.1.trans ones.symm)
  have upperEq : upper = Word.ones _ := UInt64.toNat_inj.mp (h.2.trans ones.symm)
  rw [top, lowerEq, upperEq]

/-- Only one range of a width denotes nothing. -/
theorem eq_bottom {range : Range} {bits : UInt32} (width : range.bits = bits) (h : range.IsNone)
    : range = bottom bits := by
  obtain ⟨_, lower, upper⟩ := range
  subst width
  have lowerEq : lower = 0 := UInt64.toNat_inj.mp h.1
  have upperEq : upper = 0 := UInt64.toNat_inj.mp h.2
  rw [bottom, lowerEq, upperEq]

/-- The full set includes every range of its width. -/
theorem subset_of_isAll {inner outer : Range} (full : outer.IsAll)
    (width : inner.bits = outer.bits)
    : inner ⊆ outer :=
  fun _ member => mem_of_isAll full (width ▸ lt_of_mem member)

theorem WellFormed.subset_of_isNone {inner : Range} (wf : inner.WellFormed) (none : inner.IsNone)
    (outer : Range)
    : inner ⊆ outer :=
  fun word member => absurd member (wf.not_mem_of_isNone none word)

-----------------------------------------------------------------------------------------
-- Shape tests
-----------------------------------------------------------------------------------------

/-- The set has elements on both sides of the end of the signed numbers. -/
def Crosses (range : Range) : Prop :=
  range.high < range.low ∧ range.upper.toNat ≠ half range.bits

instance (range : Range) : Decidable range.Crosses := inferInstanceAs (Decidable (_ ∧ _))

theorem isEmpty_iff {range : Range} : range.isEmpty = true ↔ range.IsNone := by
  simp only [isEmpty, Bool.and_eq_true, beq_iff_eq, ← UInt64.toNat_inj, IsNone,
    show (0 : UInt64).toNat = 0 from rfl]
  omega

theorem isWrapped_iff (range : Range)
    : range.isWrapped = true ↔ range.upper.toNat < range.lower.toNat := by
  simp [isWrapped, UInt64.lt_iff_toNat_lt]

section Tests

variable {range : Range}

theorem WellFormed.isFull_eq (wf : range.WellFormed)
    : range.isFull = .ok (decide range.IsAll) := by
  have ones := wf.valid.toNat_ones
  unfold isFull
  split
  · rename_i same
    rw [wf.valid.mask_eq]
    simp only [ok_bind, pure_eq_ok, Except.ok.injEq, IsAll, ← same, and_self]
    rw [Bool.eq_iff_iff, beq_iff_eq, decide_eq_true_iff, ← UInt64.toNat_inj, ones]
  · rename_i differ
    have : ¬ range.IsAll := fun h => differ (UInt64.toNat_inj.mp (h.1.trans h.2.symm))
    simp [this]

theorem WellFormed.signedLower_eq (wf : range.WellFormed) : range.signedLower = .ok range.low :=
  wf.valid.toSigned_eq _

theorem WellFormed.signedUpper_eq (wf : range.WellFormed) : range.signedUpper = .ok range.high :=
  wf.valid.toSigned_eq _

theorem WellFormed.isSignWrapped_eq (wf : range.WellFormed)
    : range.isSignWrapped = .ok (decide (range.high < range.low)) := by
  simp [isSignWrapped, wf.signedLower_eq, wf.signedUpper_eq]

theorem WellFormed.crossesSign_eq (wf : range.WellFormed)
    : range.crossesSign = .ok (decide range.Crosses) := by
  unfold Crosses
  rw [crossesSign, wf.isSignWrapped_eq, ok_bind]
  by_cases wrapped : range.high < range.low
  · have sign := wf.valid.toNat_signBit
    simp only [wrapped, decide_true, ↓reduceIte, wf.valid.signBit_eq, ok_bind, pure_eq_ok,
      true_and, Except.ok.injEq]
    rw [Bool.eq_iff_iff, bne_iff_ne, decide_eq_true_iff, ne_eq, ← UInt64.toNat_inj, sign]
  · simp [wrapped]

theorem WellFormed.isUnusable_eq (wf : range.WellFormed)
    : range.isUnusable
      = .ok (decide (range.IsNone ∨ range.IsAll ∨ range.high < range.low)) := by
  unfold isUnusable
  by_cases none : range.IsNone
  · simp [isEmpty_iff.mpr none, none]
  · have some : range.isEmpty = false := by simpa using fun h => none (isEmpty_iff.mp h)
    by_cases all : range.IsAll <;>
      simp [some, none, all, wf.isFull_eq, wf.isSignWrapped_eq]

theorem IsNone.low_eq_high (none : range.IsNone) : range.low = range.high := by
  rw [low, high, none.1, none.2]

theorem IsAll.low_eq_high (all : range.IsAll) : range.low = range.high := by
  rw [low, high, all.1, all.2]

/-- The bounds of a range that is neither empty nor full differ as signed numbers too. -/
theorem WellFormed.low_ne_high (wf : range.WellFormed) (some : ¬ range.IsNone)
    (notAll : ¬ range.IsAll)
    : range.low ≠ range.high := by
  intro same
  rcases wf.cases with none | all | differ
  · exact some none
  · exact notAll all
  · unfold low high at same
    rw [← wf.valid.residue_signed wf.lower_lt, ← wf.valid.residue_signed wf.upper_lt, same]
      at differ
    exact differ rfl

/-- The upper bound is the sign bit exactly when its signed reading is the least number. -/
theorem WellFormed.upper_eq_half_iff (wf : range.WellFormed)
    : range.upper.toNat = half range.bits ↔ range.high = -(half range.bits : Int) := by
  have double := wf.valid.count_eq
  have bound := wf.upper_lt
  unfold high
  rcases wf.valid.signed_cases wf.upper_lt with ⟨_, reading⟩ | ⟨_, reading⟩ <;> omega

/-- The least and the greatest signed number are not both elements. -/
def OneSided (range : Range) : Prop :=
  ¬ (range.Holds (-(half range.bits : Int)) ∧ range.Holds ((half range.bits : Int) - 1))

/-- A range is one-sided when it leaves something out and does not cross the end of the signed
numbers.
-/
theorem WellFormed.oneSided_iff (wf : range.WellFormed)
    : range.OneSided ↔ ¬ range.IsAll ∧ ¬ range.Crosses := by
  have positive := Word.half_pos range.bits
  have least : Fits range.bits (-(half range.bits : Int)) := ⟨by omega, by omega⟩
  have greatest : Fits range.bits ((half range.bits : Int) - 1) := ⟨by omega, by omega⟩
  by_cases all : range.IsAll
  · simp [OneSided, all, holds_of_isAll all least, holds_of_isAll all greatest]
  have sign := wf.upper_eq_half_iff
  have lowFits := wf.fits_low
  have highFits := wf.fits_high
  rw [OneSided, wf.holds_iff_of_not_isAll all, wf.holds_iff_of_not_isAll all]
  simp only [least, greatest, all, true_and, not_false_eq_true, Crosses]
  unfold Fits at lowFits highFits
  omega

theorem WellFormed.oneSided_iff_tests (wf : range.WellFormed)
    : range.OneSided ↔ range.isFull = .ok false ∧ range.crossesSign = .ok false := by
  rw [wf.oneSided_iff, wf.isFull_eq, wf.crossesSign_eq]
  simp

/-- What is inside a one-sided range is one-sided. -/
theorem OneSided.of_subset {inner outer : Range} (oneSided : outer.OneSided)
    (width : inner.bits = outer.bits) (included : inner ⊆ outer)
    : inner.OneSided := by
  have held (value : Int) (inside : inner.Holds value) : outer.Holds value := by
    unfold Holds at inside ⊢
    rw [← width]
    exact ⟨inside.1, included _ inside.2⟩
  intro both
  unfold OneSided at oneSided
  rw [← width] at oneSided
  exact oneSided ⟨held _ both.1, held _ both.2⟩

/-- A one-sided range holds every number between two of its own. -/
theorem OneSided.holds_between {first value last : Int} (oneSided : range.OneSided)
    (wf : range.WellFormed) (heldFirst : range.Holds first) (heldLast : range.Holds last)
    (above : first ≤ value) (below : value ≤ last)
    : range.Holds value := by
  obtain ⟨notAll, uncrossed⟩ := wf.oneSided_iff.mp oneSided
  have sign := wf.upper_eq_half_iff
  rw [wf.holds_iff_of_not_isAll notAll] at heldFirst heldLast ⊢
  unfold Crosses at uncrossed
  unfold Fits at *
  omega

/-- The last number of a signed interval. -/
theorem WellFormed.holds_last (wf : range.WellFormed) (ordered : range.low < range.high)
    : range.Holds (range.high - 1) := by
  have lowFits := wf.fits_low
  have highFits := wf.fits_high
  rw [wf.holds_iff]
  unfold Fits at *
  exact ⟨by omega, Or.inr (Or.inl (by omega))⟩

/-- The least element of a range that is not empty. -/
theorem WellFormed.signedMin_spec (wf : range.WellFormed) (some : ¬ range.IsNone)
    : ∃ least, range.signedMin = .ok least
        ∧ range.Holds least ∧ ∀ value, range.Holds value → least ≤ value := by
  have lowest : Fits range.bits (-(half range.bits : Int)) := by
    have := Word.half_pos range.bits
    unfold Fits
    omega
  by_cases all : range.IsAll
  · refine ⟨-(half range.bits : Int), ?_, holds_of_isAll all lowest, fun value held => held.1.1⟩
    simp [signedMin, wf.isFull_eq, all, wf.valid.signedMin_eq]
  have sign := wf.upper_eq_half_iff
  have lowFits := wf.fits_low
  have highFits := wf.fits_high
  by_cases crosses : range.Crosses
  · refine ⟨-(half range.bits : Int), ?_, ?_, fun value held => held.1.1⟩
    · simp [signedMin, wf.isFull_eq, all, wf.crossesSign_eq, crosses, wf.valid.signedMin_eq]
    · rw [wf.holds_iff]
      refine ⟨lowest, Or.inr (Or.inr ⟨crosses.1, Or.inr ?_⟩)⟩
      have differ := crosses.2
      unfold Fits at highFits
      omega
  · refine ⟨range.low, ?_, wf.holds_low some, ?_⟩
    · simp [signedMin, wf.isFull_eq, all, wf.crossesSign_eq, crosses, wf.signedLower_eq]
    · intro value held
      rw [wf.holds_iff_of_not_isAll all] at held
      unfold Crosses at crosses
      unfold Fits at held highFits
      omega

/-- The greatest element of a range that is not empty. -/
theorem WellFormed.signedMax_spec (wf : range.WellFormed) (some : ¬ range.IsNone)
    : ∃ greatest, range.signedMax = .ok greatest
        ∧ range.Holds greatest ∧ ∀ value, range.Holds value → value ≤ greatest := by
  have double := wf.valid.count_eq
  have highest : Fits range.bits ((half range.bits : Int) - 1) := by
    have := Word.half_pos range.bits
    unfold Fits
    omega
  by_cases all : range.IsAll
  · refine ⟨(half range.bits : Int) - 1, ?_, holds_of_isAll all highest, ?_⟩
    · simp [signedMax, wf.isFull_eq, all, wf.valid.signedMax_eq]
    · intro value held
      have := held.1.2
      omega
  have differ := wf.low_ne_high some all
  have lowFits := wf.fits_low
  have highFits := wf.fits_high
  by_cases wrapped : range.high < range.low
  · refine ⟨(half range.bits : Int) - 1, ?_, ?_, ?_⟩
    · simp [signedMax, wf.isFull_eq, all, wf.isSignWrapped_eq, wrapped, wf.valid.signedMax_eq]
    · rw [wf.holds_iff]
      refine ⟨highest, Or.inr (Or.inr ⟨wrapped, Or.inl ?_⟩)⟩
      unfold Fits at lowFits
      omega
    · intro value held
      have := held.1.2
      omega
  · -- The word before the upper bound, whose signed reading is one less than the upper bound's.
    have before : signed range.bits ((range.upper - 1) &&& Word.ones range.bits).toNat
        = range.high - 1 := by
      have upper := wf.upper_lt
      have word := wf.valid.toNat_pred wf.upper_lt
      have source := wf.valid.signed_cases wf.upper_lt
      have target := wf.valid.signed_cases
        (show ((range.upper - 1) &&& Word.ones range.bits).toNat < count range.bits by
          rw [word]; split <;> omega)
      unfold Fits at lowFits highFits
      unfold high at highFits differ wrapped ⊢
      split at word <;> omega
    refine ⟨range.high - 1, ?_, ?_, ?_⟩
    · simp only [signedMax, wf.isFull_eq, all, wf.isSignWrapped_eq, wrapped, wf.valid.mask_eq,
        wf.valid.toSigned_eq, before, ok_bind, decide_false, Bool.false_eq_true, ↓reduceIte]
    · rw [wf.holds_iff_of_not_isAll all]
      unfold Fits at lowFits highFits ⊢
      omega
    · intro value held
      rw [wf.holds_iff_of_not_isAll all] at held
      omega

-----------------------------------------------------------------------------------------
-- Lengths
-----------------------------------------------------------------------------------------

/-- The distance from the lower to the upper bound along the circle. -/
def span (range : Range) : Nat :=
  (range.upper.toNat + (count range.bits - range.lower.toNat)) % count range.bits

theorem WellFormed.length_spec (wf : range.WellFormed)
    : ∃ length, range.length = .ok length ∧ length.toNat = range.span := by
  refine ⟨(range.upper - range.lower) &&& Word.ones range.bits, ?_, ?_⟩
  · simp [length, wf.valid.mask_eq]
  · exact wf.valid.toNat_sub_and_ones (Nat.le_of_lt wf.lower_lt)

end Tests

end StackBounds.Range
