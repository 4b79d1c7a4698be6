import StackBounds.Proofs.Range.Sums

/-! Signed sums of ranges denote exactly the sums of elements as integers, unless one of them
overflows. Whether one does is told by the extreme elements.
-/

namespace StackBounds.Range

open Word (Valid Fits count half signed residue)

/-- What the signed sum of two ranges is: everything once a pair of elements overflows, and
otherwise the sums of the pairs.
-/
structure SignedSum (left right sum : Range) : Prop where
  ofWidth : sum.OfWidth left.bits
  overflow : ∀ x y, left.Holds x → right.Holds y → ¬ Fits left.bits (x + y) → sum.IsAll
  exact : (∀ x y, left.Holds x → right.Holds y → Fits left.bits (x + y))
    → ∀ value, sum.Holds value ↔ ∃ x y, left.Holds x ∧ right.Holds y ∧ value = x + y

/-- What a classification of the signed sums of two ranges has to say about the pairs of elements.
-/
structure Classifies (left right : Range) (answer : SumOverflow) : Prop where
  never : answer = .never ↔ ∀ x y, left.Holds x → right.Holds y → Fits left.bits (x + y)
  alwaysHigh : answer = .alwaysHigh
    ↔ ∀ x y, left.Holds x → right.Holds y → (half left.bits : Int) - 1 < x + y
  alwaysLow : answer = .alwaysLow
    ↔ ∀ x y, left.Holds x → right.Holds y → x + y < -(half left.bits : Int)

section Signed

variable {left right : Range}

theorem Classifies.sometimes {answer : SumOverflow} (classifies : Classifies left right answer)
    : answer = .sometimes
      ↔ ¬ (∀ x y, left.Holds x → right.Holds y → Fits left.bits (x + y))
        ∧ ¬ (∀ x y, left.Holds x → right.Holds y → (half left.bits : Int) - 1 < x + y)
        ∧ ¬ ∀ x y, left.Holds x → right.Holds y → x + y < -(half left.bits : Int) := by
  rw [← classifies.never, ← classifies.alwaysHigh, ← classifies.alwaysLow]
  cases answer <;> decide

/-- The least and the greatest signed number of a range. -/
structure HasExtremes (range : Range) (least greatest : Int) : Prop where
  signedMin_eq : range.signedMin = .ok least
  signedMax_eq : range.signedMax = .ok greatest
  holdsLeast : range.Holds least
  holdsGreatest : range.Holds greatest
  between : ∀ value, range.Holds value → least ≤ value ∧ value ≤ greatest

theorem WellFormed.exists_extremes {range : Range} (wf : range.WellFormed) (some : ¬ range.IsNone)
    : ∃ least greatest, range.HasExtremes least greatest := by
  obtain ⟨least, leastEq, holdsLeast, above⟩ := wf.signedMin_spec some
  obtain ⟨greatest, greatestEq, holdsGreatest, below⟩ := wf.signedMax_spec some
  exact ⟨least, greatest, leastEq, greatestEq, holdsLeast, holdsGreatest, fun value held =>
    ⟨above value held, below value held⟩⟩

section Extremes

variable {leftMin leftMax rightMin rightMax : Int} (hleft : left.HasExtremes leftMin leftMax)
  (hright : right.HasExtremes rightMin rightMax)

include hleft hright

theorem HasExtremes.add_between {x y : Int} (hx : left.Holds x) (hy : right.Holds y)
    : leftMin + rightMin ≤ x + y ∧ x + y ≤ leftMax + rightMax := by
  have first := hleft.between x hx
  have second := hright.between y hy
  omega

/-- All pairs fit when the two extreme pairs do. -/
theorem HasExtremes.forall_fits_iff
    : (∀ x y, left.Holds x → right.Holds y → Fits left.bits (x + y))
      ↔ -(half left.bits : Int) ≤ leftMin + rightMin ∧ leftMax + rightMax < half left.bits := by
  constructor
  · intro fits
    exact ⟨(fits _ _ hleft.holdsLeast hright.holdsLeast).1,
      (fits _ _ hleft.holdsGreatest hright.holdsGreatest).2⟩
  · intro bounds x y hx hy
    have between := hleft.add_between hright hx hy
    exact ⟨by omega, by omega⟩

/-- All pairs exceed a bound when the least pair does. -/
theorem HasExtremes.forall_lt_add_iff (bound : Int)
    : (∀ x y, left.Holds x → right.Holds y → bound < x + y) ↔ bound < leftMin + rightMin := by
  constructor
  · intro exceeds
    exact exceeds _ _ hleft.holdsLeast hright.holdsLeast
  · intro exceeds x y hx hy
    exact Int.lt_of_lt_of_le exceeds (hleft.add_between hright hx hy).1

/-- All pairs stay below a bound when the greatest pair does. -/
theorem HasExtremes.forall_add_lt_iff (bound : Int)
    : (∀ x y, left.Holds x → right.Holds y → x + y < bound) ↔ leftMax + rightMax < bound := by
  constructor
  · intro below
    exact below _ _ hleft.holdsGreatest hright.holdsGreatest
  · intro below x y hx hy
    exact Int.lt_of_le_of_lt (hleft.add_between hright hx hy).2 below

/-- The classification compares the sums of the extremes. The signs that it asks for first are no
restriction: two numbers that fit overflow only when they have the same sign.
-/
theorem HasExtremes.sumOverflow_compares (valid : Valid left.bits)
    (width : right.bits = left.bits) (leftSome : left.isEmpty = false)
    (rightSome : right.isEmpty = false)
    : ∃ answer, left.sumOverflow right = .ok answer
        ∧ (answer = .never ↔ -(half left.bits : Int) ≤ leftMin + rightMin
          ∧ leftMax + rightMax < half left.bits)
        ∧ (answer = .alwaysHigh ↔ (half left.bits : Int) - 1 < leftMin + rightMin)
        ∧ (answer = .alwaysLow ↔ leftMax + rightMax < -(half left.bits : Int)) := by
  have leftMinFits := hleft.holdsLeast.1
  have leftMaxFits := hleft.holdsGreatest.1
  have rightMinFits := hright.holdsLeast.1
  have rightMaxFits := hright.holdsGreatest.1
  have leftOrder := (hleft.between _ hleft.holdsLeast).2
  have rightOrder := (hright.between _ hright.holdsLeast).2
  rw [width] at rightMinFits rightMaxFits
  unfold Fits at leftMinFits leftMaxFits rightMinFits rightMaxFits
  unfold sumOverflow
  simp only [leftSome, rightSome, Bool.or_self, Bool.false_eq_true, ↓reduceIte, valid.signedMin_eq,
    valid.signedMax_eq, hleft.signedMin_eq, hleft.signedMax_eq, hright.signedMin_eq,
    hright.signedMax_eq, ok_bind, pure_eq_ok]
  split
  · exact ⟨_, rfl, by simp; omega⟩
  split
  · exact ⟨_, rfl, by simp; omega⟩
  split
  · exact ⟨_, rfl, by simp; omega⟩
  split
  · exact ⟨_, rfl, by simp; omega⟩
  · exact ⟨_, rfl, by simp; omega⟩

end Extremes

/-- The extreme elements tell what holds of all pairs, so the classification is right. -/
theorem sumOverflow_spec (wfLeft : left.WellFormed) (wfRight : right.WellFormed)
    (width : right.bits = left.bits) (leftSome : ¬ left.IsNone) (rightSome : ¬ right.IsNone)
    : ∃ answer, left.sumOverflow right = .ok answer ∧ Classifies left right answer := by
  obtain ⟨leftMin, leftMax, hleft⟩ := wfLeft.exists_extremes leftSome
  obtain ⟨rightMin, rightMax, hright⟩ := wfRight.exists_extremes rightSome
  obtain ⟨answer, result, never, alwaysHigh, alwaysLow⟩ :=
    hleft.sumOverflow_compares hright wfLeft.valid width
      (by simpa using fun h => leftSome (isEmpty_iff.mp h))
      (by simpa using fun h => rightSome (isEmpty_iff.mp h))
  exact ⟨answer, result, never.trans (hleft.forall_fits_iff hright).symm,
    alwaysHigh.trans (hleft.forall_lt_add_iff hright _).symm,
    alwaysLow.trans (hleft.forall_add_lt_iff hright _).symm⟩

/-- The wrapping sum is the signed sum when no pair overflows. -/
theorem add_signedSum (wfLeft : left.WellFormed) (wfRight : right.WellFormed)
    (width : right.bits = left.bits)
    (fits : ∀ x y, left.Holds x → right.Holds y → Fits left.bits (x + y))
    : ∃ sum, left.add right = .ok sum ∧ SignedSum left right sum := by
  have valid := wfLeft.valid
  obtain ⟨sum, result, proper, elements⟩ := add_spec wfLeft wfRight width
  refine ⟨sum, result, proper, fun x y hx hy outside => absurd (fits x y hx hy) outside,
    fun _ value => ?_⟩
  unfold Holds at *
  rw [proper.bits_eq, elements, width]
  constructor
  · rintro ⟨inside, x, hx, y, hy, equal⟩
    have leftBound := lt_of_mem hx
    have rightBound := lt_of_mem hy
    rw [width] at rightBound
    have leftHeld : Fits left.bits (signed left.bits x)
        ∧ residue left.bits (signed left.bits x) ∈ left :=
      ⟨valid.fits_signed leftBound, by rwa [valid.residue_signed leftBound]⟩
    have rightHeld : Fits left.bits (signed left.bits y)
        ∧ residue left.bits (signed left.bits y) ∈ right :=
      ⟨valid.fits_signed rightBound, by rwa [valid.residue_signed rightBound]⟩
    refine ⟨_, _, leftHeld, rightHeld, ?_⟩
    have sumFits : Fits left.bits (signed left.bits x + signed left.bits y) :=
      fits _ _ leftHeld (width ▸ rightHeld)
    rw [← valid.signed_residue inside, ← valid.signed_residue sumFits, equal, Word.residue_add,
      valid.residue_signed leftBound, valid.residue_signed rightBound]
  · rintro ⟨x, y, hx, hy, rfl⟩
    exact ⟨fits x y hx (width ▸ hy), _, hx.2, _, hy.2, Word.residue_add _ _ _⟩

theorem signedSum_of_isNone {sum : Range} (wfLeft : left.WellFormed) (wfRight : right.WellFormed)
    (none : left.IsNone ∨ right.IsNone) (proper : sum.OfWidth left.bits) (sumNone : sum.IsNone)
    : SignedSum left right sum := by
  have nothing (x y : Int) (hx : left.Holds x) (hy : right.Holds y) : False :=
    no_pair_of_isNone wfLeft wfRight none hx.2 hy.2
  refine ⟨proper, fun x y hx hy _ => (nothing x y hx hy).elim, fun _ value => ?_⟩
  refine iff_of_false (fun held => proper.wellFormed.not_mem_of_isNone sumNone _ held.2) ?_
  intro summed
  obtain ⟨x, y, hx, hy, _⟩ := summed
  exact nothing x y hx hy

/-- Adding an offset to everything overflows, unless the offset is zero. -/
theorem signedSum_of_isAll {sum : Range} (wfRight : right.WellFormed) (all : left.IsAll)
    (some : ¬ right.IsNone) (proper : sum.OfWidth left.bits) (sumAll : sum.IsAll)
    : SignedSum left right sum := by
  have positive := Word.half_pos left.bits
  refine ⟨proper, fun _ _ _ _ _ => sumAll, fun fits value => ?_⟩
  constructor
  · intro held
    have valueFits : Fits left.bits value := proper.bits_eq ▸ held.1
    have offset := wfRight.holds_low some
    have least := fits (-(half left.bits : Int)) right.low
      (holds_of_isAll all ⟨by omega, by omega⟩) offset
    have greatest := fits ((half left.bits : Int) - 1) right.low
      (holds_of_isAll all ⟨by omega, by omega⟩) offset
    refine ⟨value, right.low, holds_of_isAll all valueFits, offset, ?_⟩
    unfold Fits at least greatest
    omega
  · rintro ⟨x, y, hx, hy, rfl⟩
    exact holds_of_isAll sumAll (proper.bits_eq.symm ▸ fits x y hx hy)

/-- The signed sum has an answer for ranges of one width. -/
theorem addSigned_spec (wfLeft : left.WellFormed) (wfRight : right.WellFormed)
    (width : right.bits = left.bits)
    : ∃ sum, left.addSigned right = .ok sum ∧ SignedSum left right sum := by
  have valid := wfLeft.valid
  unfold addSigned
  by_cases none : left.IsNone ∨ right.IsNone
  · have someEmpty : (left.isEmpty || right.isEmpty) = true := by
      simpa [isEmpty_iff] using none
    exact ⟨bottom left.bits, by rw [if_pos someEmpty, empty_eq valid],
      signedSum_of_isNone wfLeft wfRight none (ofWidth_bottom valid) (isNone_bottom _)⟩
  · obtain ⟨leftSome, rightSome⟩ := not_or.mp none
    have notEmpty : (left.isEmpty || right.isEmpty) = false := by
      simp [← Bool.not_eq_true, isEmpty_iff, leftSome, rightSome]
    obtain ⟨answer, classified, classifies⟩ :=
      sumOverflow_spec wfLeft wfRight width leftSome rightSome
    have meaning := classifies.never
    rw [notEmpty, classified, if_neg Bool.false_ne_true, ok_bind]
    by_cases never : answer = .never
    · obtain ⟨sum, result, meets⟩ := add_signedSum wfLeft wfRight width (meaning.mp never)
      exact ⟨sum, by rw [never, ← result], meets⟩
    · refine ⟨top left.bits, ?_, ofWidth_top valid, fun _ _ _ _ _ => isAll_top valid, ?_⟩
      · rw [← full_eq valid]
        cases answer <;> first | rfl | exact absurd rfl never
      · intro fits
        exact absurd (meaning.mpr fits) never

/-- Ranges of two widths have a signed sum only where it is full or empty. -/
theorem addSigned_ofWidth {sum : Range} (wfLeft : left.WellFormed) (wfRight : right.WellFormed)
    (summed : left.addSigned right = .ok sum)
    : sum.OfWidth left.bits := by
  have valid := wfLeft.valid
  by_cases width : right.bits = left.bits
  · obtain ⟨answer, result, meets⟩ := addSigned_spec wfLeft wfRight width
    cases summed.symm.trans result
    exact meets.ofWidth
  unfold addSigned at summed
  split at summed
  · rw [empty_eq valid, Except.ok.injEq] at summed
    exact summed ▸ ofWidth_bottom valid
  · obtain ⟨answer, _, summed⟩ := exists_of_bind_eq_ok summed
    split at summed
    · obtain ⟨_, required, _⟩ := exists_of_bind_eq_ok summed
      rw [requireSameWidth, if_neg (Ne.symm width)] at required
      cases required
    · rw [full_eq valid, Except.ok.injEq] at summed
      exact summed ▸ ofWidth_top valid

/-- A signed sum covers the sum of every pair of elements. -/
theorem SignedSum.covers {sum : Range} (meets : SignedSum left right sum) {x y : Int}
    (hx : left.Holds x) (hy : right.Holds y)
    : sum.Allows (x + y) := by
  by_cases fits : ∀ x y, left.Holds x → right.Holds y → Fits left.bits (x + y)
  · exact Or.inr ((meets.exact fits _).mpr ⟨x, y, hx, hy, rfl⟩)
  · push Not at fits
    obtain ⟨x, y, hx, hy, outside⟩ := fits
    exact Or.inl (meets.overflow x y hx hy outside)

theorem SignedSum.not_isNone {sum : Range} (meets : SignedSum left right sum)
    (wfLeft : left.WellFormed) (wfRight : right.WellFormed) (leftSome : ¬ left.IsNone)
    (rightSome : ¬ right.IsNone)
    : ¬ sum.IsNone := by
  have wfSum := meets.ofWidth.wellFormed
  intro none
  rcases meets.covers (wfLeft.holds_low leftSome) (wfRight.holds_low rightSome) with all | held
  · exact wfSum.not_isAll_of_isNone none all
  · exact wfSum.not_mem_of_isNone none _ held.2

/-- The signed sum is empty exactly when an operand is. -/
theorem SignedSum.isNone_iff {sum : Range} (meets : SignedSum left right sum)
    (wfLeft : left.WellFormed) (wfRight : right.WellFormed)
    : sum.IsNone ↔ left.IsNone ∨ right.IsNone := by
  constructor
  · intro none
    by_contra some
    obtain ⟨leftSome, rightSome⟩ := not_or.mp some
    exact meets.not_isNone wfLeft wfRight leftSome rightSome none
  · intro none
    have nothing (x y : Int) (hx : left.Holds x) (hy : right.Holds y) : False :=
      no_pair_of_isNone wfLeft wfRight none hx.2 hy.2
    by_contra some
    obtain ⟨x, y, hx, hy, _⟩ := (meets.exact (fun x y hx hy => (nothing x y hx hy).elim) _).mp
      (meets.ofWidth.wellFormed.holds_low some)
    exact nothing x y hx hy

/-- Adding everything to something gives everything: the only number that can be added without an
overflow is zero.
-/
theorem SignedSum.isAll_of_right {sum : Range} (meets : SignedSum left right sum)
    (wfLeft : left.WellFormed) (some : ¬ left.IsNone) (width : right.bits = left.bits)
    (all : right.IsAll)
    : sum.IsAll := by
  have positive := Word.half_pos left.bits
  have held := wfLeft.holds_low some
  have holds (value : Int) (fits : Fits left.bits value) : right.Holds value :=
    holds_of_isAll all (width ▸ fits)
  by_contra notAll
  have fits (x y : Int) (hx : left.Holds x) (hy : right.Holds y) : Fits left.bits (x + y) := by
    by_contra outside
    exact notAll (meets.overflow x y hx hy outside)
  have least := fits _ _ held (holds (-(half left.bits : Int)) ⟨by omega, by omega⟩)
  have greatest := fits _ _ held (holds ((half left.bits : Int) - 1) ⟨by omega, by omega⟩)
  unfold Fits at least greatest
  have wfSum := meets.ofWidth.wellFormed
  have last := meets.ofWidth.bits_eq ▸ wfSum.fits_high
  refine wfSum.upper_not_mem notAll (wfSum.mem_iff_holds.mpr ⟨wfSum.upper_lt, ?_⟩)
  exact (meets.exact fits _).mpr ⟨left.low, sum.high, held, holds _ last, by
    change sum.high = left.low + sum.high
    omega⟩

/-- Signed sums grow with their left operand. -/
theorem SignedSum.mono {larger sum largerSum : Range} (meets : SignedSum left right sum)
    (largerMeets : SignedSum larger right largerSum) (wfLeft : left.WellFormed)
    (wfLarger : larger.WellFormed) (width : left.bits = larger.bits) (grows : left ⊆ larger)
    : sum ⊆ largerSum := by
  have sumWidth := meets.ofWidth.bits_eq
  have largerWidth := largerMeets.ofWidth.bits_eq
  have equalWidth : sum.bits = largerSum.bits := by rw [sumWidth, largerWidth, width]
  have held := (wfLeft.subset_iff_holds wfLarger width).mp grows
  by_cases fits : ∀ x y, larger.Holds x → right.Holds y → Fits larger.bits (x + y)
  · rw [meets.ofWidth.wellFormed.subset_iff_holds largerMeets.ofWidth.wellFormed equalWidth]
    intro value member
    have smallFits (x y : Int) (hx : left.Holds x) (hy : right.Holds y)
        : Fits left.bits (x + y) :=
      width ▸ fits x y (held x hx) hy
    obtain ⟨x, y, hx, hy, equal⟩ := (meets.exact smallFits value).mp member
    exact (largerMeets.exact fits value).mpr ⟨x, y, held x hx, hy, equal⟩
  · push Not at fits
    obtain ⟨x, y, hx, hy, outside⟩ := fits
    exact subset_of_isAll (largerMeets.overflow x y hx hy outside) equalWidth

/-- The signed sum is exact. It is empty when an operand is empty and full when a pair of elements
overflows, and it holds the sums of the pairs and no other number when none does. The
classification tells apart that no pair overflows, that all of them do on one side, and the rest.
-/
theorem addSigned_exact {bits : UInt32} (properLeft : left.OfWidth bits)
    (properRight : right.OfWidth bits)
    : (∃ sum, left.addSigned right = .ok sum ∧ sum.OfWidth bits
        ∧ sum.isEmpty = (left.isEmpty || right.isEmpty)
        ∧ ((∃ x y, left.Holds x ∧ right.Holds y ∧ ¬ Fits bits (x + y)) → sum.isFull = .ok true)
        ∧ ((∀ x y, left.Holds x → right.Holds y → Fits bits (x + y))
          → ∀ value, sum.Holds value ↔ ∃ x y, left.Holds x ∧ right.Holds y ∧ value = x + y))
      ∧ (left.isEmpty = false → right.isEmpty = false
        → ∃ answer, left.sumOverflow right = .ok answer
          ∧ (answer = .never ↔ ∀ x y, left.Holds x → right.Holds y → Fits bits (x + y))
          ∧ (answer = .alwaysHigh
            ↔ ∀ x y, left.Holds x → right.Holds y → (half bits : Int) - 1 < x + y)
          ∧ (answer = .alwaysLow
            ↔ ∀ x y, left.Holds x → right.Holds y → x + y < -(half bits : Int))
          ∧ (answer = .sometimes
            ↔ (∃ x y, left.Holds x ∧ right.Holds y ∧ ¬ Fits bits (x + y))
              ∧ (∃ x y, left.Holds x ∧ right.Holds y ∧ x + y ≤ (half bits : Int) - 1)
              ∧ ∃ x y, left.Holds x ∧ right.Holds y ∧ -(half bits : Int) ≤ x + y)) := by
  have width := properRight.bits_eq.trans properLeft.bits_eq.symm
  have wfLeft := properLeft.wellFormed
  have wfRight := properRight.wellFormed
  rw [← properLeft.bits_eq]
  constructor
  · obtain ⟨sum, result, meets⟩ := addSigned_spec wfLeft wfRight width
    refine ⟨sum, result, meets.ofWidth, ?_, ?_, meets.exact⟩
    · rw [Bool.eq_iff_iff, Bool.or_eq_true, isEmpty_iff, isEmpty_iff, isEmpty_iff]
      exact meets.isNone_iff wfLeft wfRight
    · intro overflow
      obtain ⟨x, y, hx, hy, outside⟩ := overflow
      rw [meets.ofWidth.wellFormed.isFull_eq, decide_eq_true (meets.overflow x y hx hy outside)]
  · intro leftSome rightSome
    have leftNonempty : ¬ left.IsNone := by simp [← isEmpty_iff, leftSome]
    have rightNonempty : ¬ right.IsNone := by simp [← isEmpty_iff, rightSome]
    obtain ⟨answer, classified, classifies⟩ :=
      sumOverflow_spec wfLeft wfRight width leftNonempty rightNonempty
    refine ⟨answer, classified, classifies.never, classifies.alwaysHigh, classifies.alwaysLow, ?_⟩
    rw [classifies.sometimes]
    simp only [not_forall, Int.not_lt, exists_prop]

/-- Witness: byte ranges whose greatest sum is the last signed byte, and the same with one more
element, which overflows.
-/
theorem addSigned_exact_bytes
    : (Range.mk 8 100 120).sumOverflow ⟨8, 5, 9⟩ = .ok .never
      ∧ (Range.mk 8 100 120).addSigned ⟨8, 5, 9⟩ = .ok ⟨8, 105, 128⟩
      ∧ (∀ value, (Range.mk 8 105 128).Holds value
        ↔ ∃ x y, (Range.mk 8 100 120).Holds x ∧ (Range.mk 8 5 9).Holds y ∧ value = x + y)
      ∧ (Range.mk 8 100 120).sumOverflow ⟨8, 5, 10⟩ = .ok .sometimes
      ∧ ∃ sum, (Range.mk 8 100 120).addSigned ⟨8, 5, 10⟩ = .ok sum ∧ sum.isFull = .ok true := by
  have properLeft : (Range.mk 8 100 120).OfWidth 8 := by decide
  have properShort : (Range.mk 8 5 9).OfWidth 8 := by decide
  have properLong : (Range.mk 8 5 10).OfWidth 8 := by decide
  have fitting : (Range.mk 8 100 120).sumOverflow ⟨8, 5, 9⟩ = .ok .never := by decide
  have summed : (Range.mk 8 100 120).addSigned ⟨8, 5, 9⟩ = .ok ⟨8, 105, 128⟩ := by decide
  have overflowing : (Range.mk 8 100 120).sumOverflow ⟨8, 5, 10⟩ = .ok .sometimes := by decide
  obtain ⟨⟨short, isShort, _, _, _, exact⟩, classifyShort⟩ := addSigned_exact properLeft properShort
  obtain ⟨⟨long, isLong, _, _, full, _⟩, classifyLong⟩ := addSigned_exact properLeft properLong
  obtain ⟨shortAnswer, isShortAnswer, never, _⟩ := classifyShort rfl rfl
  obtain ⟨longAnswer, isLongAnswer, _, _, _, sometimes⟩ := classifyLong rfl rfl
  cases summed.symm.trans isShort
  cases fitting.symm.trans isShortAnswer
  cases overflowing.symm.trans isLongAnswer
  exact ⟨fitting, summed, exact (never.mp rfl), overflowing, long, isLong,
    full (sometimes.mp rfl).1⟩

end Signed

end StackBounds.Range
