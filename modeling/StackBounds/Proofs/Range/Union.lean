import StackBounds.Proofs.Range.Builders
import StackBounds.Proofs.Range.Candidates

/-! The union of two ranges is a best interval around them. It has the elements of both and no
others where an interval can have them; where the two leave a gap on both sides, the union fills
the gap that the preference selects.
-/

namespace StackBounds.Range

open Word (Valid Fits count half signed residue)

-----------------------------------------------------------------------------------------
-- Unions of arcs
-----------------------------------------------------------------------------------------

/-- Two ranges leave a gap on both sides, and the second one does not wrap. Either the first one
does not wrap either and lies below or above the second, or the second lies in its hole.
-/
def Apart (left right : Range) : Prop :=
  right.lower.toNat < right.upper.toNat
    ∧ ((left.lower.toNat < left.upper.toNat
        ∧ (right.upper.toNat < left.lower.toNat ∨ left.upper.toNat < right.lower.toNat))
      ∨ (left.upper.toNat < right.lower.toNat ∧ right.upper.toNat < left.lower.toNat))

section Arcs

variable {left right : Range} (hleft : left.IsArc) (hright : right.IsArc)
  (width : left.bits = right.bits)

include hleft width

/-- An arc of exactly the elements of two others is their union. -/
theorem isUnion_of_bounds (preference : Preference) {lower upper : UInt64}
    (lowerLt : lower.toNat < count left.bits) (upperLt : upper.toNat < count left.bits)
    (differ : lower.toNat ≠ upper.toNat)
    (elements : ∀ word, word < count left.bits
      → ((lower.toNat < upper.toNat ∧ lower.toNat ≤ word ∧ word < upper.toNat)
          ∨ (upper.toNat < lower.toNat ∧ (lower.toNat ≤ word ∨ word < upper.toNat))
        ↔ word ∈ left ∨ word ∈ right))
    : IsUnion preference left right ⟨left.bits, lower, upper⟩ := by
  have arc : (⟨left.bits, lower, upper⟩ : Range).IsArc :=
    isArc_of_ne hleft.wellFormed.valid lowerLt upperLt differ
  refine isUnion_of_elements preference width ⟨arc.wellFormed, rfl⟩ fun word bound => ?_
  rw [arc.mem_iff, ← elements word bound]
  exact and_iff_right bound

/-- The full set is the union of two arcs that leave no word out. -/
theorem isUnion_top (preference : Preference)
    (everything : ∀ word, word < count left.bits → word ∈ left ∨ word ∈ right)
    : IsUnion preference left right (top left.bits) := by
  have valid := hleft.wellFormed.valid
  refine isUnion_of_elements preference width (ofWidth_top valid) fun word bound => ?_
  exact iff_of_true (mem_of_isAll (isAll_top valid) bound) (everything word bound)

include hright

/-- A cover of two arcs that are apart closes one of the gaps: it includes the arc across it. -/
theorem Covers.subset_or_subset {outer first second : Range} (covers : Covers left right outer)
    (apart : Apart left right) (firstArc : first.IsArc) (secondArc : second.IsArc)
    (firstEq : first = ⟨left.bits, left.lower, right.upper⟩)
    (secondEq : second = ⟨left.bits, right.lower, left.upper⟩)
    : first ⊆ outer ∨ second ⊆ outer := by
  have outerWidth := covers.ofWidth.bits_eq
  have firstWidth : first.bits = left.bits := by rw [firstEq]
  have secondWidth : second.bits = left.bits := by rw [secondEq]
  by_cases outerAll : outer.IsAll
  · exact Or.inl (subset_of_isAll outerAll (firstWidth.trans outerWidth.symm))
  have outerSome : ¬ outer.IsNone := fun none =>
    hleft.some (hleft.wellFormed.isNone_of_subset covers.ofWidth.wellFormed none
      covers.includesLeft)
  have outerArc : outer.IsArc := ⟨covers.ofWidth.wellFormed, outerSome, outerAll⟩
  have includesLeft := (hleft.subset_iff outerArc outerWidth).mp covers.includesLeft
  have includesRight :=
    (hright.subset_iff outerArc (outerWidth.trans width)).mp covers.includesRight
  rw [firstArc.subset_iff outerArc (outerWidth.trans firstWidth.symm),
    secondArc.subset_iff outerArc (outerWidth.trans secondWidth.symm), firstEq, secondEq]
  simp only
  -- What the cover leaves out lies between the two arcs or around them, never on both sides.
  obtain ⟨plain, ⟨leftPlain, below | above⟩ | hole⟩ := apart
  · by_cases between : outer.upper.toNat < outer.lower.toNat
        ∧ right.upper.toNat ≤ outer.upper.toNat ∧ outer.lower.toNat ≤ left.lower.toNat
    · exact Or.inl (Or.inr (Or.inr (by omega)))
    · right
      omega
  · by_cases between : outer.upper.toNat < outer.lower.toNat
        ∧ left.upper.toNat ≤ outer.upper.toNat ∧ outer.lower.toNat ≤ right.lower.toNat
    · exact Or.inr (Or.inr (Or.inr (by omega)))
    · left
      omega
  · by_cases reached : right.upper.toNat ≤ outer.upper.toNat
    · exact Or.inl (Or.inr (Or.inr (by omega)))
    · exact Or.inr (Or.inr (Or.inr (by omega)))

/-- Two arcs that are apart are joined across one of the gaps. The word right after an arc lies in
the gap behind it.
-/
theorem candidates_of_apart (apart : Apart left right)
    : Candidates left right ⟨left.bits, left.lower, right.upper⟩
        ⟨left.bits, right.lower, left.upper⟩ := by
  have valid := hleft.wellFormed.valid
  have leftLower := hleft.wellFormed.lower_lt
  have leftUpper := hleft.wellFormed.upper_lt
  have rightLower : right.lower.toNat < count left.bits := width ▸ hright.wellFormed.lower_lt
  have rightUpper : right.upper.toNat < count left.bits := width ▸ hright.wellFormed.upper_lt
  have bounds := apart
  unfold Apart at bounds
  generalize firstEq : (⟨left.bits, left.lower, right.upper⟩ : Range) = first
  generalize secondEq : (⟨left.bits, right.lower, left.upper⟩ : Range) = second
  have firstArc : first.IsArc := by
    rw [← firstEq]
    exact isArc_of_ne valid leftLower rightUpper (by simp only; omega)
  have secondArc : second.IsArc := by
    rw [← secondEq]
    exact isArc_of_ne valid rightLower leftUpper (by simp only; omega)
  have firstWidth : first.bits = left.bits := by rw [← firstEq]
  have secondWidth : second.bits = left.bits := by rw [← secondEq]
  have coversFirst : Covers left right first := by
    refine ⟨⟨firstArc.wellFormed, firstWidth⟩, ?_, ?_⟩
    · rw [hleft.subset_iff firstArc firstWidth, ← firstEq]
      simp only
      omega
    · rw [hright.subset_iff firstArc (firstWidth.trans width), ← firstEq]
      simp only
      omega
  have coversSecond : Covers left right second := by
    refine ⟨⟨secondArc.wellFormed, secondWidth⟩, ?_, ?_⟩
    · rw [hleft.subset_iff secondArc secondWidth, ← secondEq]
      simp only
      omega
    · rw [hright.subset_iff secondArc (secondWidth.trans width), ← secondEq]
      simp only
      omega
  have gapFirst : ∃ word ∈ first, word ∉ left ∧ word ∉ right := by
    refine ⟨left.upper.toNat, ?_, hleft.wellFormed.upper_not_mem hleft.notAll, ?_⟩
    · rw [firstArc.mem_iff, ← firstEq]
      simp only
      omega
    · rw [hright.mem_iff]
      omega
  have gapSecond : ∃ word ∈ second, word ∉ left ∧ word ∉ right := by
    refine ⟨right.upper.toNat, ?_, ?_, hright.wellFormed.upper_not_mem hright.notAll⟩
    · rw [secondArc.mem_iff, ← secondEq]
      simp only
      omega
    · rw [hleft.mem_iff]
      omega
  exact ⟨coversFirst, coversSecond, firstArc.notAll, secondArc.notAll, gapFirst, gapSecond,
    fun _ covers => covers.subset_or_subset hleft hright width apart firstArc secondArc
      firstEq.symm secondEq.symm⟩

theorem unionPlain_spec (preference : Preference) (plainLeft : left.isWrapped = false)
    (plainRight : right.isWrapped = false)
    : ∃ range, unionPlain preference left right = .ok range
        ∧ IsUnion preference left right range := by
  have valid := hleft.wellFormed.valid
  have leftDiffer := hleft.differ
  have rightDiffer := hright.differ
  have leftLower := hleft.wellFormed.lower_lt
  have leftUpper := hleft.wellFormed.upper_lt
  have rightLower : right.lower.toNat < count left.bits := width ▸ hright.wellFormed.lower_lt
  have rightUpper : right.upper.toNat < count left.bits := width ▸ hright.wellFormed.upper_lt
  have leftPlain : ¬ left.upper.toNat < left.lower.toNat := by
    rw [← isWrapped_iff, plainLeft]; simp
  have rightPlain : ¬ right.upper.toNat < right.lower.toNat := by
    rw [← isWrapped_iff, plainRight]; simp
  unfold unionPlain
  by_cases apart : right.upper < left.lower ∨ left.upper < right.lower
  · rw [if_pos apart]
    simp only [UInt64.lt_iff_toNat_lt] at apart
    have gaps : Apart left right := ⟨by omega, by omega⟩
    exact (candidates_of_apart hleft hright width gaps).exists_prefer preference
  · rw [if_neg apart, valid.mask_eq, ok_bind]
    have leftPred := valid.toNat_pred leftUpper
    have rightPred := valid.toNat_pred rightUpper
    rw [if_neg (by omega)] at leftPred rightPred
    generalize hlower : (if right.lower < left.lower then right.lower else left.lower) = lower
    generalize hupper : (if (left.upper - 1) &&& Word.ones left.bits
      < (right.upper - 1) &&& Word.ones left.bits then right.upper else left.upper) = upper
    simp only [UInt64.lt_iff_toNat_lt, leftPred, rightPred] at apart hlower hupper
    have lowerEq : lower.toNat = min left.lower.toNat right.lower.toNat := by
      rw [← hlower]
      split <;> omega
    have upperEq : upper.toNat = max left.upper.toNat right.upper.toNat := by
      rw [← hupper]
      split <;> omega
    have nonempty : ¬ (lower = 0 ∧ upper = 0) := by
      intro zero
      have upperZero : upper.toNat = 0 := congrArg UInt64.toNat zero.2
      omega
    refine ⟨_, if_neg nonempty, ?_⟩
    refine isUnion_of_bounds hleft width preference (by omega) (by omega) (by omega)
      fun word bound => ?_
    rw [hleft.mem_iff, hright.mem_iff, ← width]
    omega

/-- The wrapped arc comes first. Its two pieces and the hole between them give the cases. -/
theorem unionMixed_spec (preference : Preference) (wrapped : left.isWrapped = true)
    (plain : right.isWrapped = false)
    : ∃ range, unionMixed preference left right = .ok range
        ∧ IsUnion preference left right range := by
  have valid := hleft.wellFormed.valid
  have leftDiffer := hleft.differ
  have rightDiffer := hright.differ
  have leftLower := hleft.wellFormed.lower_lt
  have leftUpper := hleft.wellFormed.upper_lt
  have rightLower : right.lower.toNat < count left.bits := width ▸ hright.wellFormed.lower_lt
  have rightUpper : right.upper.toNat < count left.bits := width ▸ hright.wellFormed.upper_lt
  have leftWrapped := (isWrapped_iff left).mp wrapped
  have rightPlain : ¬ right.upper.toNat < right.lower.toNat := by
    rw [← isWrapped_iff, plain]; simp
  unfold unionMixed
  simp only [UInt64.le_iff_toNat_le, UInt64.lt_iff_toNat_lt]
  by_cases inPiece : right.upper.toNat ≤ left.upper.toNat ∨ left.lower.toNat ≤ right.lower.toNat
  · rw [if_pos inPiece]
    refine ⟨left, rfl, isUnion_of_bounds hleft width preference leftLower leftUpper leftDiffer
      fun word bound => ?_⟩
    rw [hleft.mem_iff, hright.mem_iff, ← width]
    omega
  rw [if_neg inPiece]
  by_cases bridges : right.lower.toNat ≤ left.upper.toNat ∧ left.lower.toNat ≤ right.upper.toNat
  · rw [if_pos bridges, full_eq valid]
    refine ⟨top left.bits, rfl, isUnion_top hleft width preference fun word bound => ?_⟩
    rw [hleft.mem_iff, hright.mem_iff, ← width]
    omega
  rw [if_neg bridges]
  by_cases inHole : left.upper.toNat < right.lower.toNat ∧ right.upper.toNat < left.lower.toNat
  · rw [if_pos inHole]
    have gaps : Apart left right := ⟨by omega, Or.inr inHole⟩
    exact (candidates_of_apart hleft hright width gaps).exists_prefer preference
  rw [if_neg inHole]
  by_cases above : left.upper.toNat < right.lower.toNat
  · rw [if_pos above]
    refine ⟨_, rfl, isUnion_of_bounds hleft width preference rightLower leftUpper (by omega)
      fun word bound => ?_⟩
    rw [hleft.mem_iff, hright.mem_iff, ← width]
    omega
  · rw [if_neg above]
    refine ⟨_, rfl, isUnion_of_bounds hleft width preference leftLower rightUpper (by omega)
      fun word bound => ?_⟩
    rw [hleft.mem_iff, hright.mem_iff, ← width]
    omega

theorem unionWrapped_spec (preference : Preference) (wrappedLeft : left.isWrapped = true)
    (wrappedRight : right.isWrapped = true)
    : ∃ range, unionWrapped left right = .ok range ∧ IsUnion preference left right range := by
  have valid := hleft.wellFormed.valid
  have leftLower := hleft.wellFormed.lower_lt
  have leftUpper := hleft.wellFormed.upper_lt
  have rightLower : right.lower.toNat < count left.bits := width ▸ hright.wellFormed.lower_lt
  have rightUpper : right.upper.toNat < count left.bits := width ▸ hright.wellFormed.upper_lt
  have leftWrapped := (isWrapped_iff left).mp wrappedLeft
  have rightWrapped := (isWrapped_iff right).mp wrappedRight
  unfold unionWrapped
  by_cases closed : right.lower ≤ left.upper ∨ left.lower ≤ right.upper
  · rw [if_pos closed, full_eq valid]
    simp only [UInt64.le_iff_toNat_le] at closed
    refine ⟨top left.bits, rfl, isUnion_top hleft width preference fun word bound => ?_⟩
    rw [hleft.mem_iff, hright.mem_iff, ← width]
    omega
  · rw [if_neg closed]
    generalize hlower : (if right.lower < left.lower then right.lower else left.lower) = lower
    generalize hupper : (if left.upper < right.upper then right.upper else left.upper) = upper
    simp only [UInt64.le_iff_toNat_le, UInt64.lt_iff_toNat_lt] at closed hlower hupper
    have lowerEq : lower.toNat = min left.lower.toNat right.lower.toNat := by
      rw [← hlower]
      split <;> omega
    have upperEq : upper.toNat = max left.upper.toNat right.upper.toNat := by
      rw [← hupper]
      split <;> omega
    refine ⟨_, rfl, isUnion_of_bounds hleft width preference (by omega) (by omega) (by omega)
      fun word bound => ?_⟩
    rw [hleft.mem_iff, hright.mem_iff, ← width]
    omega

end Arcs

-----------------------------------------------------------------------------------------
-- Unions of ranges
-----------------------------------------------------------------------------------------

section Ranges

variable {left right : Range} (wfLeft : left.WellFormed) (wfRight : right.WellFormed)
  (width : left.bits = right.bits)

include width

theorem union_of_isNone_left (none : left.IsNone) (preference : Preference)
    : left.union preference right = .ok right := by
  simp [union, requireSameWidth, width, isEmpty_iff.mpr none]

include wfRight

theorem union_of_isNone_right (some : ¬ left.IsNone) (none : right.IsNone)
    (preference : Preference)
    : left.union preference right = .ok left := by
  have leftSome : left.isEmpty = false := by simpa using fun h => some (isEmpty_iff.mp h)
  have rightFull : right.isFull = .ok false := by
    rw [wfRight.isFull_eq, decide_eq_false (wfRight.not_isAll_of_isNone none)]
  simp [union, requireSameWidth, width, leftSome, rightFull, isEmpty_iff.mpr none]

include wfLeft

/-- Ranges of one width have a union. -/
theorem exists_union (preference : Preference)
    : ∃ range, left.union preference right = .ok range ∧ IsUnion preference left right range := by
  by_cases leftNone : left.IsNone
  · refine ⟨right, union_of_isNone_left width leftNone preference,
      isUnion_of_elements preference width ⟨wfRight, width.symm⟩ fun word _ => ?_⟩
    exact (or_iff_right (wfLeft.not_mem_of_isNone leftNone word)).symm
  by_cases rightNone : right.IsNone
  · refine ⟨left, union_of_isNone_right wfRight width leftNone rightNone preference,
      isUnion_of_elements preference width ⟨wfLeft, rfl⟩ fun word _ => ?_⟩
    exact (or_iff_left (wfRight.not_mem_of_isNone rightNone word)).symm
  have leftSome : left.isEmpty = false := by simpa using fun h => leftNone (isEmpty_iff.mp h)
  have rightSome : right.isEmpty = false := by simpa using fun h => rightNone (isEmpty_iff.mp h)
  rw [union, requireSameWidth, if_pos width, wfRight.isFull_eq, wfLeft.isFull_eq]
  simp only [leftSome, rightSome, pure_eq_ok, ok_bind, Bool.false_eq_true, ↓reduceIte,
    decide_eq_true_eq]
  by_cases rightAll : right.IsAll
  · refine ⟨right, if_pos rightAll,
      isUnion_of_elements preference width ⟨wfRight, width.symm⟩ fun word _ => ?_⟩
    exact (or_iff_right_of_imp (subset_of_isAll rightAll width word)).symm
  rw [if_neg rightAll]
  by_cases leftAll : left.IsAll
  · refine ⟨left, if_pos leftAll,
      isUnion_of_elements preference width ⟨wfLeft, rfl⟩ fun word _ => ?_⟩
    exact (or_iff_left_of_imp (subset_of_isAll leftAll width.symm word)).symm
  rw [if_neg leftAll]
  have hleft : left.IsArc := ⟨wfLeft, leftNone, leftAll⟩
  have hright : right.IsArc := ⟨wfRight, rightNone, rightAll⟩
  cases hlwrap : left.isWrapped <;> cases hrwrap : right.isWrapped
  · exact unionPlain_spec hleft hright width preference hlwrap hrwrap
  · obtain ⟨range, built, isUnion⟩ :=
      unionMixed_spec hright hleft width.symm preference hrwrap hlwrap
    exact ⟨range, built, isUnion.symm width.symm⟩
  · exact unionMixed_spec hleft hright width preference hlwrap hrwrap
  · exact unionWrapped_spec hleft hright width preference hlwrap hrwrap

/-- The union answers for ranges of one width, and covers both. -/
theorem union_spec (preference : Preference)
    : ∃ range, left.union preference right = .ok range
        ∧ range.OfWidth left.bits ∧ left ⊆ range ∧ right ⊆ range := by
  obtain ⟨range, built, isUnion⟩ := exists_union wfLeft wfRight width preference
  exact ⟨range, built, isUnion.covers.ofWidth, isUnion.covers.includesLeft,
    isUnion.covers.includesRight⟩

end Ranges

-----------------------------------------------------------------------------------------
-- Signed intervals
-----------------------------------------------------------------------------------------

/-- A range spans two others when its signed bounds are their extreme bounds. -/
structure Spans (left right range : Range) : Prop where
  low : range.low = min left.low right.low
  high : range.high = max left.high right.high
  notAll : ¬ range.IsAll

/-- What a union of two arcs has to be. -/
structure Joins (preference : Preference) (left right range : Range) : Prop where
  ofWidth : range.OfWidth left.bits
  coversLeft : left ⊆ range
  coversRight : right ⊆ range
  spans : preference = .signed → left.low < left.high → right.low < right.high
    → Spans left right range

section Intervals

variable {left right : Range} (hleft : left.IsArc) (hright : right.IsArc)
  (width : left.bits = right.bits) (leftOrdered : left.low < left.high)
  (rightOrdered : right.low < right.high)

include hleft hright width leftOrdered rightOrdered

/-- The interval between the extreme bounds of two signed intervals is a one-sided cover. -/
theorem exists_spanning
    : ∃ hull, Covers left right hull ∧ hull.OneSided ∧ Spans left right hull
        ∧ ∀ value, hull.Holds value
          → min left.low right.low ≤ value ∧ value < max left.high right.high := by
  have valid := hleft.wellFormed.valid
  have leftLow := hleft.wellFormed.fits_low
  have leftHigh := hleft.wellFormed.fits_high
  have rightLow := hright.wellFormed.fits_low
  have rightHigh := hright.wellFormed.fits_high
  rw [← width] at rightLow rightHigh
  have startFits : Fits left.bits (min left.low right.low) := by
    unfold Fits at *
    omega
  have stopFits : Fits left.bits (max left.high right.high) := by
    unfold Fits at *
    omega
  obtain ⟨proper, notAll, elements⟩ := arc_spec valid _ _ startFits
    (show min left.low right.low < max left.high right.high by omega)
    (Int.le_of_lt stopFits.2) (fun whole => absurd whole.2 (Int.ne_of_lt stopFits.2))
  refine ⟨_, ⟨proper, ?_, ?_⟩, ?_, ⟨?_, ?_, notAll⟩, fun value => (elements value).mp⟩
  · rw [hleft.wellFormed.subset_iff_holds proper.wellFormed rfl]
    intro value held
    rw [hleft.wellFormed.holds_iff_of_not_isAll hleft.notAll] at held
    exact (elements value).mpr (by omega)
  · rw [hright.wellFormed.subset_iff_holds proper.wellFormed width.symm]
    intro value held
    rw [hright.wellFormed.holds_iff_of_not_isAll hright.notAll] at held
    exact (elements value).mpr (by omega)
  · intro both
    have greatest := (elements _).mp both.2
    have bound := stopFits.2
    simp only [arc] at greatest
    omega
  · rw [low, arc, valid.toNat_ofInt, valid.signed_residue startFits]
  · rw [high, arc, valid.toNat_ofInt, valid.signed_residue stopFits]

/-- A one-sided cover of two signed intervals holds what lies between their extreme bounds. -/
theorem Covers.holds_between {outer : Range} {value : Int} (covers : Covers left right outer)
    (oneSided : outer.OneSided) (above : min left.low right.low ≤ value)
    (below : value < max left.high right.high)
    : outer.Holds value := by
  have wfOuter := covers.ofWidth.wellFormed
  have outerWidth := covers.ofWidth.bits_eq.symm
  have keepsLeft :=
    (hleft.wellFormed.subset_iff_holds wfOuter outerWidth).mp covers.includesLeft
  have keepsRight := (hright.wellFormed.subset_iff_holds wfOuter
    (width.symm.trans outerWidth)).mp covers.includesRight
  have first : outer.Holds (min left.low right.low) := by
    rcases min_choice left.low right.low with isLeft | isRight
    · rw [isLeft]
      exact keepsLeft _ (hleft.wellFormed.holds_low hleft.some)
    · rw [isRight]
      exact keepsRight _ (hright.wellFormed.holds_low hright.some)
  have last : outer.Holds (max left.high right.high - 1) := by
    rcases max_choice left.high right.high with isLeft | isRight
    · rw [isLeft]
      exact keepsLeft _ (hleft.wellFormed.holds_last leftOrdered)
    · rw [isRight]
      exact keepsRight _ (hright.wellFormed.holds_last rightOrdered)
  exact oneSided.holds_between wfOuter first last above (Int.le_sub_one_of_lt below)

/-- The signed union of two signed intervals spans them: it is one-sided, so it includes the
interval between the extreme bounds, and it is no larger.
-/
theorem IsUnion.spans {union : Range} (isUnion : IsUnion .signed left right union)
    : Spans left right union := by
  obtain ⟨hull, covers, oneSided, spans, between⟩ :=
    exists_spanning hleft hright width leftOrdered rightOrdered
  obtain ⟨unionSided, small⟩ := isUnion.oneSided rfl hull covers oneSided
  have wfHull := covers.ofWidth.wellFormed
  have wfUnion := isUnion.covers.ofWidth.wellFormed
  have sameWidth := covers.ofWidth.bits_eq.trans isUnion.covers.ofWidth.bits_eq.symm
  have included : hull ⊆ union := by
    rw [wfHull.subset_iff_holds wfUnion sameWidth]
    intro value held
    exact isUnion.covers.holds_between hleft hright width leftOrdered rightOrdered unionSided
      (between value held).1 (between value held).2
  rw [← eq_of_subset_of_card_le wfHull wfUnion sameWidth included small]
  exact spans

end Intervals

theorem union_spec_of_arcs {left right : Range} (hleft : left.IsArc) (hright : right.IsArc)
    (width : left.bits = right.bits) (preference : Preference)
    : ∃ range, left.union preference right = .ok range ∧ Joins preference left right range := by
  obtain ⟨range, built, isUnion⟩ :=
    exists_union hleft.wellFormed hright.wellFormed width preference
  refine ⟨range, built, isUnion.covers.ofWidth, isUnion.covers.includesLeft,
    isUnion.covers.includesRight, ?_⟩
  intro isSigned leftOrdered rightOrdered
  subst isSigned
  exact isUnion.spans hleft hright width leftOrdered rightOrdered

-----------------------------------------------------------------------------------------
-- Optimality
-----------------------------------------------------------------------------------------

/-- The union is a best range around two others. With the smallest preference, no range around both
has a smaller size. With the signed preference, where some range around both neither is full nor
crosses the end of the signed numbers, the union is such a range too, and of the smallest size among
them. A range with the elements of both and no others is the union under either preference.
-/
theorem union_optimal {bits : UInt32} {left right : Range} (properLeft : left.OfWidth bits)
    (properRight : right.OfWidth bits) (preference : Preference)
    : ∃ union, left.union preference right = .ok union
        ∧ union.OfWidth bits ∧ left ⊆ union ∧ right ⊆ union
        ∧ (preference = .smallest
          → ∀ outer : Range, outer.OfWidth bits → left ⊆ outer → right ⊆ outer
          → ∃ size outerSize, union.size = .ok size ∧ outer.size = .ok outerSize
            ∧ size ≤ outerSize)
        ∧ (preference = .signed
          → ∀ outer : Range, outer.OfWidth bits → left ⊆ outer → right ⊆ outer
          → outer.isFull = .ok false → outer.crossesSign = .ok false
          → union.isFull = .ok false ∧ union.crossesSign = .ok false
            ∧ ∃ size outerSize, union.size = .ok size ∧ outer.size = .ok outerSize
              ∧ size ≤ outerSize)
        ∧ ∀ whole : Range, whole.OfWidth bits
          → (∀ word, word ∈ whole ↔ word ∈ left ∨ word ∈ right) → union = whole := by
  obtain ⟨union, built, isUnion⟩ := exists_union properLeft.wellFormed properRight.wellFormed
    (properLeft.bits_eq.trans properRight.bits_eq.symm) preference
  have proper := isUnion.covers.ofWidth
  have wf := proper.wellFormed
  rw [← properLeft.bits_eq]
  refine ⟨union, built, proper, isUnion.covers.includesLeft, isUnion.covers.includesRight, ?_, ?_,
    isUnion.exact⟩
  · intro isSmallest outer properOuter includesLeft includesRight
    exact ⟨_, _, wf.size_eq, properOuter.wellFormed.size_eq,
      isUnion.smallest isSmallest outer ⟨properOuter, includesLeft, includesRight⟩⟩
  · intro isSigned outer properOuter includesLeft includesRight notFull uncrossed
    have oneSided := properOuter.wellFormed.oneSided_iff_tests.mpr ⟨notFull, uncrossed⟩
    obtain ⟨unionSided, small⟩ :=
      isUnion.oneSided isSigned outer ⟨properOuter, includesLeft, includesRight⟩ oneSided
    obtain ⟨unionNotFull, unionUncrossed⟩ := wf.oneSided_iff_tests.mp unionSided
    exact ⟨unionNotFull, unionUncrossed, _, _, wf.size_eq, properOuter.wellFormed.size_eq, small⟩

/-- Witness: two byte ranges on the two sides of the sign bit. The smaller range around both crosses
it, so the preferences differ. Where the ranges overlap, they do not.
-/
theorem union_optimal_bytes
    : (Range.mk 8 100 110).union .smallest ⟨8, 150, 160⟩ = .ok ⟨8, 100, 160⟩
      ∧ (Range.mk 8 100 110).union .signed ⟨8, 150, 160⟩ = .ok ⟨8, 150, 110⟩
      ∧ (∃ size outerSize, (Range.mk 8 100 160).size = .ok size
        ∧ (Range.mk 8 150 110).size = .ok outerSize ∧ size ≤ outerSize)
      ∧ (Range.mk 8 150 110).crossesSign = .ok false
      ∧ (Range.mk 8 100 110).union .signed ⟨8, 105, 160⟩ = .ok ⟨8, 100, 160⟩ := by
  have properLow : (Range.mk 8 100 110).OfWidth 8 := by decide
  have properHigh : (Range.mk 8 150 160).OfWidth 8 := by decide
  have properLong : (Range.mk 8 105 160).OfWidth 8 := by decide
  have properSmall : (Range.mk 8 100 160).OfWidth 8 := by decide
  have properAround : (Range.mk 8 150 110).OfWidth 8 := by decide
  have includesLow : Range.mk 8 100 110 ⊆ Range.mk 8 150 110 :=
    (contains_eq_true_iff properAround.wellFormed properLow.wellFormed rfl).mp (by decide)
  have includesHigh : Range.mk 8 150 160 ⊆ Range.mk 8 150 110 :=
    (contains_eq_true_iff properAround.wellFormed properHigh.wellFormed rfl).mp (by decide)
  have smallResult : (Range.mk 8 100 110).union .smallest ⟨8, 150, 160⟩ = .ok ⟨8, 100, 160⟩ := by
    decide
  have signedResult : (Range.mk 8 100 110).union .signed ⟨8, 150, 160⟩ = .ok ⟨8, 150, 110⟩ := by
    decide
  obtain ⟨small, isSmall, _, _, _, smallest, _⟩ := union_optimal properLow properHigh .smallest
  obtain ⟨around, isAround, _, _, _, _, oneSided, _⟩ := union_optimal properLow properHigh .signed
  obtain ⟨long, isLong, _, _, _, _, _, exact⟩ := union_optimal properLow properLong .signed
  cases smallResult.symm.trans isSmall
  cases signedResult.symm.trans isAround
  have overlap (word : Nat)
      : word ∈ Range.mk 8 100 160 ↔ word ∈ Range.mk 8 100 110 ∨ word ∈ Range.mk 8 105 160 := by
    rw [properSmall.wellFormed.mem_iff, properLow.wellFormed.mem_iff, properLong.wellFormed.mem_iff]
    simp [IsAll, count]
    omega
  exact ⟨smallResult, signedResult, smallest rfl _ properAround includesLow includesHigh,
    (oneSided rfl _ properAround includesLow includesHigh (by decide) (by decide)).2.1,
    isLong.trans (congrArg Except.ok (exact _ properSmall overlap))⟩

end StackBounds.Range
