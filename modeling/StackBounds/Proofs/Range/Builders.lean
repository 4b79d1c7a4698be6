import StackBounds.Proofs.Range.Shape

/-! Ranges that are built from signed bounds. All builders make the same arc from the residues
of two numbers; they differ in what they do when the arc would be empty or full.
-/

namespace StackBounds.Range

open Word (Valid Fits count half signed residue)

variable {bits : UInt32}

/-- The arc from one number up to, and without, another. -/
def arc (bits : UInt32) (start stop : Int) : Range :=
  ⟨bits, Word.ofInt bits start, Word.ofInt bits stop⟩

/-- The residue of the first number that does not fit is the sign bit. -/
theorem residue_half (valid : Valid bits) : residue bits (half bits) = half bits := by
  have double := valid.count_eq
  have positive := Word.half_pos bits
  have same : (half bits : Int) % (count bits : Int) = half bits :=
    Int.emod_eq_of_lt (by omega) (by omega)
  simp [residue, same]

/-- An arc between two numbers holds exactly the numbers between them, also when it stops right
at the end of the signed numbers. Only the arc over all of them would have equal bounds.
-/
theorem arc_spec (valid : Valid bits) (start stop : Int) (fits : Fits bits start)
    (ordered : start < stop) (bound : stop ≤ half bits)
    (proper : ¬ (start = -(half bits : Int) ∧ stop = half bits))
    : (arc bits start stop).OfWidth bits
      ∧ ¬ (arc bits start stop).IsAll
      ∧ ∀ value, (arc bits start stop).Holds value ↔ start ≤ value ∧ value < stop := by
  have double := valid.count_eq
  have lower := valid.toNat_ofInt start
  have upper := valid.toNat_ofInt stop
  have lowerLt := Word.residue_lt bits start
  have upperLt := Word.residue_lt bits stop
  have startCases := valid.residue_cases fits
  have stopCases : (0 ≤ stop ∧ (residue bits stop : Int) = stop)
      ∨ (stop < 0 ∧ (residue bits stop : Int) = stop + count bits) := by
    rcases Int.lt_or_eq_of_le bound with inside | edge
    · exact valid.residue_cases ⟨Int.le_trans fits.1 (Int.le_of_lt ordered), inside⟩
    · rw [edge, residue_half valid]
      omega
  unfold Fits at fits
  have differ : (arc bits start stop).lower.toNat ≠ (arc bits start stop).upper.toNat := by
    simp only [arc, lower, upper]
    omega
  have wf : (arc bits start stop).WellFormed :=
    wellFormed_of_ne valid (by simpa only [arc, lower] using lowerLt)
      (by simpa only [arc, upper] using upperLt) differ
  have notAll : ¬ (arc bits start stop).IsAll := fun h => differ (h.1.trans h.2.symm)
  refine ⟨⟨wf, rfl⟩, notAll, fun value => ?_⟩
  rw [wf.holds_iff_of_not_isAll notAll]
  have lowEq := valid.signed_cases lowerLt
  have highEq := valid.signed_cases upperLt
  simp only [low, high, arc, lower, upper, Fits]
  omega

/-- The signed interval between two numbers that fit. -/
theorem ofSigned_spec (valid : Valid bits) {lower upper : Int} (fitsLower : Fits bits lower)
    (fitsUpper : Fits bits upper) (ordered : lower ≤ upper)
    : ∃ range, ofSigned bits lower upper = .ok range
        ∧ range.OfWidth bits
        ∧ ¬ range.IsAll
        ∧ ∀ value, range.Holds value ↔ lower ≤ value ∧ value < upper := by
  rcases Int.lt_or_eq_of_le ordered with strict | same
  · obtain ⟨proper, notAll, elements⟩ :=
      arc_spec valid lower upper fitsLower strict (Int.le_of_lt fitsUpper.2)
        (fun h => absurd h.2 (Int.ne_of_lt fitsUpper.2))
    refine ⟨arc bits lower upper, ?_, proper, notAll, elements⟩
    have differ : Word.ofInt bits lower ≠ Word.ofInt bits upper := by
      intro equal
      have residues := congrArg UInt64.toNat equal
      rw [valid.toNat_ofInt, valid.toNat_ofInt] at residues
      rw [← valid.signed_residue fitsLower, ← valid.signed_residue fitsUpper, residues] at strict
      exact Int.lt_irrefl _ strict
    simp only [ofSigned, Int.ne_of_lt strict, differ, valid.mask_eq, ↓reduceIte, ok_bind,
      pure_eq_ok, arc]
  · have wf := ofWidth_bottom valid
    have nothing := isNone_bottom bits
    refine ⟨bottom bits, ?_, wf, wf.wellFormed.not_isAll_of_isNone nothing, fun value => ?_⟩
    · simp only [ofSigned, same, ↓reduceIte, empty_eq valid]
    · constructor
      · rintro ⟨_, member⟩
        exact absurd member (wf.wellFormed.not_mem_of_isNone nothing _)
      · omega

/-- The closed signed interval between two numbers that fit. -/
theorem ofSignedClosed_spec (valid : Valid bits) {least greatest : Int}
    (fitsLeast : Fits bits least) (fitsGreatest : Fits bits greatest)
    (ordered : least ≤ greatest)
    : ∃ range, ofSignedClosed bits least greatest = .ok range
        ∧ range.OfWidth bits
        ∧ ∀ value, range.Holds value ↔ least ≤ value ∧ value ≤ greatest := by
  have notReversed : ¬ greatest < least := by omega
  by_cases whole : least = -(half bits : Int) ∧ greatest = (half bits : Int) - 1
  · refine ⟨top bits, ?_, ofWidth_top valid, fun value => ?_⟩
    · rw [ofSignedClosed, if_neg notReversed, valid.signedMin_eq, valid.signedMax_eq]
      simp only [ok_bind, if_pos whole, full_eq valid]
    · constructor
      · rintro ⟨⟨_, _⟩, _⟩
        simp only [top] at *
        omega
      · intro inside
        refine holds_of_isAll (isAll_top valid) ⟨?_, ?_⟩ <;> simp only [top] <;> omega
  · unfold Fits at fitsGreatest
    obtain ⟨proper, _, elements⟩ := arc_spec valid least (greatest + 1)
      fitsLeast (by omega) (by omega) (by omega)
    refine ⟨arc bits least (greatest + 1), ?_, proper, fun value => ?_⟩
    · simp only [ofSignedClosed, notReversed, ↓reduceIte, valid.signedMin_eq, valid.signedMax_eq,
        ok_bind, whole, pure_eq_ok, arc]
    · rw [elements]
      omega

/-- A signed interval given by its extreme numbers covers the residue of every number between
them: either they all fit, or the interval is the full set.
-/
theorem ofSignedBounds_spec (valid : Valid bits) {least greatest : Int}
    (ordered : least ≤ greatest)
    : ∃ range, ofSignedBounds bits least greatest = .ok range
        ∧ range.OfWidth bits
        ∧ (∀ value, least ≤ value → value ≤ greatest → residue bits value ∈ range)
        ∧ (¬ range.IsAll
            → ∀ value, least ≤ value → value ≤ greatest → range.Holds value) := by
  have notReversed : ¬ greatest < least := by omega
  by_cases outside : least < -(half bits : Int) ∨ (half bits : Int) - 1 < greatest
  · refine ⟨top bits, ?_, ofWidth_top valid, fun value _ _ => ?_, fun h => ?_⟩
    · simp only [ofSignedBounds, notReversed, ↓reduceIte, valid.signedMin_eq, valid.signedMax_eq,
        ok_bind, outside, full_eq valid]
    · exact mem_of_isAll (isAll_top valid) (Word.residue_lt bits value)
    · exact absurd (isAll_top valid) h
  · have fitsLeast : Fits bits least := by
      unfold Fits
      omega
    have fitsGreatest : Fits bits greatest := by
      unfold Fits
      omega
    obtain ⟨range, built, proper, elements⟩ :=
      ofSignedClosed_spec valid fitsLeast fitsGreatest ordered
    have held (value : Int) (above : least ≤ value) (below : value ≤ greatest)
        : range.Holds value :=
      (elements value).mpr ⟨above, below⟩
    refine ⟨range, ?_, proper, fun value above below => ?_, fun _ => held⟩
    · simp only [ofSignedBounds, notReversed, ↓reduceIte, valid.signedMin_eq, valid.signedMax_eq,
        ok_bind, outside, built]
    · have member := (held value above below).2
      rwa [proper.bits_eq] at member

/-- The set of one number that fits. -/
theorem singleton_spec (valid : Valid bits) {number : Int} (fits : Fits bits number)
    : ∃ range, singleton bits number = .ok range
        ∧ range.OfWidth bits
        ∧ ¬ range.IsAll
        ∧ ∀ value, range.Holds value ↔ value = number := by
  have double := valid.count_eq
  have positive := Word.half_pos bits
  have bounds := fits
  unfold Fits at bounds
  obtain ⟨proper, notAll, elements⟩ := arc_spec valid number (number + 1) fits
    (by omega) (by omega) (by omega)
  refine ⟨arc bits number (number + 1), ?_, proper, notAll, fun value => ?_⟩
  · simp only [singleton, valid.mask_eq, ok_bind, pure_eq_ok, arc]
  · rw [elements]
    omega

end StackBounds.Range
