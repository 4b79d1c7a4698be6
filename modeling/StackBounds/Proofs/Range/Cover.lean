import StackBounds.Proofs.Range.Union

/-! The cover of two ranges is the least range that includes both and does not pass the end of
the signed numbers.
-/

namespace StackBounds.Range

open Word (Valid Fits count half signed residue)

/-- The range does not pass the end of the signed numbers, not even to stop right there. -/
def Straight (range : Range) : Prop := range.IsNone ∨ range.IsAll ∨ range.low < range.high

instance (range : Range) : Decidable range.Straight := inferInstanceAs (Decidable (_ ∨ _ ∨ _))

theorem WellFormed.straight_iff {range : Range} (wf : range.WellFormed)
    : range.Straight ↔ range.IsNone ∨ range.IsAll ∨ ¬ range.high < range.low := by
  unfold Straight
  by_cases none : range.IsNone
  · simp [none]
  by_cases all : range.IsAll
  · simp [all]
  have differ := wf.low_ne_high none all
  simp only [none, all, false_or]
  omega

theorem IsArc.straight_iff {range : Range} (arc : range.IsArc)
    : range.Straight ↔ range.low < range.high := by
  simp only [Straight, arc.some, arc.notAll, false_or]

theorem straight_top {bits : UInt32} (valid : Valid bits) : (top bits).Straight :=
  Or.inr (Or.inl (isAll_top valid))

/-- Only signed intervals lie inside a signed interval: an arc that passes the end of the signed
numbers holds the greatest of them, which no signed interval does.
-/
theorem IsArc.bounds_of_subset {inner outer : Range} (hinner : inner.IsArc)
    (houter : outer.IsArc) (width : inner.bits = outer.bits) (straight : outer.low < outer.high)
    (included : inner ⊆ outer)
    : outer.low ≤ inner.low ∧ inner.low < inner.high ∧ inner.high ≤ outer.high := by
  have held := (hinner.wellFormed.subset_iff_holds houter.wellFormed width).mp included
  have lowFits := hinner.wellFormed.fits_low
  have highFits := hinner.wellFormed.fits_high
  have outerFits := houter.wellFormed.fits_high
  have differ := hinner.wellFormed.low_ne_high hinner.some hinner.notAll
  have first := held _ (hinner.wellFormed.holds_low hinner.some)
  simp only [hinner.wellFormed.holds_iff_of_not_isAll hinner.notAll,
    houter.wellFormed.holds_iff_of_not_isAll houter.notAll, ← width] at held first
  rw [← width] at outerFits
  unfold Fits at *
  by_cases wrapped : inner.high < inner.low
  · have greatest := held ((half inner.bits : Int) - 1)
    omega
  · have last := held (inner.high - 1)
    omega

/-- A signed interval includes another one when it includes the bounds. -/
theorem IsArc.subset_of_bounds {inner outer : Range} (hinner : inner.IsArc)
    (houter : outer.IsArc) (width : inner.bits = outer.bits) (straight : inner.low < inner.high)
    (low : outer.low ≤ inner.low) (high : inner.high ≤ outer.high)
    : inner ⊆ outer := by
  rw [hinner.wellFormed.subset_iff_holds houter.wellFormed width]
  intro value
  rw [hinner.wellFormed.holds_iff_of_not_isAll hinner.notAll,
    houter.wellFormed.holds_iff_of_not_isAll houter.notAll, ← width]
  rintro ⟨fits, inside⟩
  exact ⟨fits, by omega⟩

theorem WellFormed.cover_eq {left right union : Range}
    (built : left.union .signed right = .ok union) (wf : union.WellFormed)
    : left.cover right = .ok (if union.high < union.low then top union.bits else union) := by
  rw [cover, built, ok_bind, wf.isSignWrapped_eq, ok_bind]
  by_cases wrapped : union.high < union.low <;> simp [wrapped, full_eq wf.valid]

section Covers

variable {left right : Range} (wfLeft : left.WellFormed) (wfRight : right.WellFormed)
  (width : left.bits = right.bits)

include wfLeft wfRight width

/-- The cover answers for ranges of one width, is straight, and covers both. -/
theorem cover_spec
    : ∃ range, left.cover right = .ok range
        ∧ range.OfWidth left.bits ∧ range.Straight ∧ left ⊆ range ∧ right ⊆ range := by
  obtain ⟨union, built, proper, coversLeft, coversRight⟩ := union_spec wfLeft wfRight width .signed
  refine ⟨_, WellFormed.cover_eq built proper.wellFormed, ?_⟩
  by_cases wrapped : union.high < union.low
  · rw [if_pos wrapped, proper.bits_eq]
    have valid := wfLeft.valid
    exact ⟨ofWidth_top valid, straight_top valid, subset_of_isAll (isAll_top valid) rfl,
      subset_of_isAll (isAll_top valid) width.symm⟩
  · rw [if_neg wrapped]
    exact ⟨proper, proper.wellFormed.straight_iff.mpr (Or.inr (Or.inr wrapped)), coversLeft,
      coversRight⟩

omit wfRight width in
/-- Inside a straight range that leaves something out, nothing passes the end of the signed
numbers.
-/
theorem not_signWrapped_of_subset {outer : Range} (wfOuter : outer.WellFormed)
    (widthOuter : left.bits = outer.bits) (straight : outer.Straight) (notAll : ¬ outer.IsAll)
    (included : left ⊆ outer)
    : ¬ left.high < left.low := by
  by_cases none : left.IsNone
  · simp only [Range.low, Range.high, none.1, none.2]
    omega
  have leftAll : ¬ left.IsAll := fun all =>
    notAll (wfOuter.isAll_of_superset all widthOuter.symm included)
  have outerSome : ¬ outer.IsNone := fun outerNone =>
    none (wfLeft.isNone_of_subset wfOuter outerNone included)
  have outerArc : outer.IsArc := ⟨wfOuter, outerSome, notAll⟩
  have bounds := IsArc.bounds_of_subset ⟨wfLeft, none, leftAll⟩ outerArc widthOuter
    (outerArc.straight_iff.mp straight) included
  omega

omit wfLeft wfRight in
/-- Inside a straight range, the union of two arcs spans them. -/
theorem union_subset_of_arcs {union outer : Range} (leftArc : left.IsArc) (rightArc : right.IsArc)
    (outerArc : outer.IsArc) (built : left.union .signed right = .ok union)
    (widthOuter : left.bits = outer.bits) (straight : outer.Straight)
    (includesLeft : left ⊆ outer) (includesRight : right ⊆ outer)
    : union ⊆ outer := by
  have ordered := outerArc.straight_iff.mp straight
  have leftBounds := leftArc.bounds_of_subset outerArc widthOuter ordered includesLeft
  have rightBounds :=
    rightArc.bounds_of_subset outerArc (width.symm.trans widthOuter) ordered includesRight
  obtain ⟨spanned, found, joined⟩ := union_spec_of_arcs leftArc rightArc width .signed
  cases built.symm.trans found
  obtain ⟨low, high, notAll⟩ := joined.spans rfl leftBounds.2.1 rightBounds.2.1
  have notNone : ¬ union.IsNone := fun none =>
    leftArc.some (leftArc.wellFormed.isNone_of_subset joined.ofWidth.wellFormed none
      joined.coversLeft)
  have unionArc : union.IsArc := ⟨joined.ofWidth.wellFormed, notNone, notAll⟩
  exact unionArc.subset_of_bounds outerArc (joined.ofWidth.bits_eq.trans widthOuter)
    (by omega) (by omega) (by omega)

/-- The cover is the least straight range that includes both. Witness: the union is inside, so it
does not pass the end of the signed numbers.
-/
theorem cover_least {range outer : Range} (built : left.cover right = .ok range)
    (wfOuter : outer.WellFormed) (widthOuter : outer.bits = left.bits)
    (straight : outer.Straight) (includesLeft : left ⊆ outer) (includesRight : right ⊆ outer)
    : range ⊆ outer := by
  by_cases outerAll : outer.IsAll
  · obtain ⟨_, found, proper, _⟩ := cover_spec wfLeft wfRight width
    cases built.symm.trans found
    exact subset_of_isAll outerAll (proper.bits_eq.trans widthOuter.symm)
  obtain ⟨union, united, proper, _⟩ := union_spec wfLeft wfRight width .signed
  have inside : union ⊆ outer := by
    by_cases leftNone : left.IsNone
    · cases united.symm.trans (union_of_isNone_left width leftNone .signed)
      exact includesRight
    by_cases rightNone : right.IsNone
    · cases united.symm.trans (union_of_isNone_right wfRight width leftNone rightNone .signed)
      exact includesLeft
    have leftAll : ¬ left.IsAll := fun all =>
      outerAll (wfOuter.isAll_of_superset all widthOuter includesLeft)
    have rightAll : ¬ right.IsAll := fun all =>
      outerAll (wfOuter.isAll_of_superset all (widthOuter.trans width) includesRight)
    have outerSome : ¬ outer.IsNone := fun none =>
      leftNone (wfLeft.isNone_of_subset wfOuter none includesLeft)
    exact union_subset_of_arcs width ⟨wfLeft, leftNone, leftAll⟩ ⟨wfRight, rightNone, rightAll⟩
      ⟨wfOuter, outerSome, outerAll⟩ united widthOuter.symm straight includesLeft includesRight
  have notWrapped := not_signWrapped_of_subset proper.wellFormed wfOuter
    (proper.bits_eq.trans widthOuter.symm) straight outerAll inside
  rw [WellFormed.cover_eq united proper.wellFormed, if_neg notWrapped] at built
  cases built
  exact inside

end Covers

end StackBounds.Range
