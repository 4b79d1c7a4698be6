import StackBounds.Proofs.Range.Sizes

/-! Ranges that include two others, and which of them is best. Where the two ranges make up an
interval, that one is. Where they leave a gap on both sides there are two candidates. Every range
around both includes one of them, so the preferred candidate is preferred over all of these.
-/

namespace StackBounds.Range

open Word (count)

/-- A range of the width of two others that includes them. -/
structure Covers (left right range : Range) : Prop where
  ofWidth : range.OfWidth left.bits
  includesLeft : left ⊆ range
  includesRight : right ⊆ range

/-- What the union of two ranges has to be: a cover that is at least as good as every other one
under the preference, and nothing more than the two ranges where a range can say that.
-/
structure IsUnion (preference : Preference) (left right union : Range) : Prop where
  covers : Covers left right union
  smallest : preference = .smallest → ∀ outer, Covers left right outer
    → union.elements.card ≤ outer.elements.card
  oneSided : preference = .signed → ∀ outer, Covers left right outer → outer.OneSided
    → union.OneSided ∧ union.elements.card ≤ outer.elements.card
  exact : ∀ whole : Range, whole.OfWidth left.bits
    → (∀ word, word ∈ whole ↔ word ∈ left ∨ word ∈ right) → union = whole

theorem Covers.symm {left right range : Range} (width : left.bits = right.bits)
    (covers : Covers left right range)
    : Covers right left range :=
  ⟨width ▸ covers.ofWidth, covers.includesRight, covers.includesLeft⟩

theorem IsUnion.symm {preference : Preference} {left right union : Range}
    (width : left.bits = right.bits) (isUnion : IsUnion preference left right union)
    : IsUnion preference right left union where
  covers := isUnion.covers.symm width
  smallest isSmallest outer covers := isUnion.smallest isSmallest outer (covers.symm width.symm)
  oneSided isSigned outer covers := isUnion.oneSided isSigned outer (covers.symm width.symm)
  exact whole proper elements := isUnion.exact whole (width ▸ proper) fun word =>
    (elements word).trans or_comm

/-- A range with exactly the elements of both covers them. -/
theorem covers_of_elements {left right range : Range} (proper : range.OfWidth left.bits)
    (elements : ∀ word, word ∈ range ↔ word ∈ left ∨ word ∈ right)
    : Covers left right range :=
  ⟨proper, fun word member => (elements word).mpr (Or.inl member),
    fun word member => (elements word).mpr (Or.inr member)⟩

/-- The range of exactly the elements of both is the union under every preference, because every
cover includes it.
-/
theorem isUnion_of_elements (preference : Preference) {left right union : Range}
    (width : left.bits = right.bits) (proper : union.OfWidth left.bits)
    (inside : ∀ word, word < count left.bits → (word ∈ union ↔ word ∈ left ∨ word ∈ right))
    : IsUnion preference left right union := by
  have elements (word : Nat) : word ∈ union ↔ word ∈ left ∨ word ∈ right := by
    by_cases bound : word < count left.bits
    · exact inside word bound
    · refine iff_of_false (fun member => bound (proper.bits_eq ▸ lt_of_mem member))
        (not_or.mpr ⟨fun member => bound (lt_of_mem member), fun member => bound ?_⟩)
      exact width ▸ lt_of_mem member
  have least (outer : Range) (covers : Covers left right outer) : union ⊆ outer := by
    intro word member
    rcases (elements word).mp member with inLeft | inRight
    · exact covers.includesLeft word inLeft
    · exact covers.includesRight word inRight
  refine ⟨covers_of_elements proper elements, ?_, ?_, ?_⟩
  · intro _ outer covers
    exact card_le_of_subset (least outer covers)
  · intro _ outer covers oneSided
    have outerWidth := proper.bits_eq.trans covers.ofWidth.bits_eq.symm
    exact ⟨oneSided.of_subset outerWidth (least outer covers),
      card_le_of_subset (least outer covers)⟩
  · intro whole properWhole elementsWhole
    refine eq_of_subset_of_subset proper.wellFormed properWhole.wellFormed
      (proper.bits_eq.trans properWhole.bits_eq.symm)
      (least whole (covers_of_elements properWhole elementsWhole)) ?_
    intro word member
    exact (elements word).mpr ((elementsWhole word).mp member)

-----------------------------------------------------------------------------------------
-- Preferences
-----------------------------------------------------------------------------------------

theorem smaller_spec {first second : Range} (hfirst : first.WellFormed)
    (hsecond : second.WellFormed) (width : second.bits = first.bits)
    : ∃ range, smaller first second = .ok range
        ∧ (range = first ∨ range = second)
        ∧ range.elements.card ≤ first.elements.card
        ∧ range.elements.card ≤ second.elements.card := by
  rw [smaller, isSmallerThan_eq hsecond hfirst width, ok_bind]
  by_cases shorter : second.elements.card < first.elements.card
  · exact ⟨second, by rw [decide_eq_true shorter, if_pos rfl, pure_eq_ok], Or.inr rfl,
      Nat.le_of_lt shorter, Nat.le_refl _⟩
  · exact ⟨first, by rw [decide_eq_false shorter, if_neg Bool.false_ne_true, pure_eq_ok],
      Or.inl rfl, Nat.le_refl _, Nat.not_lt.mp shorter⟩

/-- A preference selects one of two candidates, either the smaller one or, with the signed
preference, the smaller one of those that do not cross the end of the signed numbers.
-/
theorem prefer_spec (preference : Preference) {first second : Range} (hfirst : first.WellFormed)
    (hsecond : second.WellFormed) (width : second.bits = first.bits)
    : ∃ range, prefer preference first second = .ok range
        ∧ (range = first ∨ range = second)
        ∧ (preference = .smallest → range.elements.card ≤ first.elements.card
          ∧ range.elements.card ≤ second.elements.card)
        ∧ (preference = .signed → ∀ candidate, candidate = first ∨ candidate = second
          → ¬ candidate.Crosses
          → ¬ range.Crosses ∧ range.elements.card ≤ candidate.elements.card) := by
  obtain ⟨range, selected, among, belowFirst, belowSecond⟩ := smaller_spec hfirst hsecond width
  cases preference with
  | smallest => exact ⟨range, selected, among, fun _ => ⟨belowFirst, belowSecond⟩, by simp⟩
  | signed =>
      simp only [prefer, hfirst.crossesSign_eq, hsecond.crossesSign_eq, ok_bind]
      by_cases crossFirst : first.Crosses <;> by_cases crossSecond : second.Crosses <;>
        simp only [crossFirst, crossSecond, decide_true, decide_false]
      · exact ⟨range, selected, among, by simp, by simp [crossFirst, crossSecond]⟩
      · exact ⟨second, rfl, by simp, by simp, by simp [crossFirst, crossSecond]⟩
      · exact ⟨first, rfl, by simp, by simp, by simp [crossFirst, crossSecond]⟩
      · refine ⟨range, selected, among, by simp, fun _ candidate choice _ => ⟨?_, ?_⟩⟩
        · rcases among with same | same <;> rw [same] <;> assumption
        · rcases choice with same | same <;> rw [same] <;> assumption

-----------------------------------------------------------------------------------------
-- Two candidates
-----------------------------------------------------------------------------------------

/-- Two covers, each of which fills a gap that the two ranges leave, and such that every cover
includes one of them.
-/
structure Candidates (left right first second : Range) : Prop where
  coversFirst : Covers left right first
  coversSecond : Covers left right second
  notAllFirst : ¬ first.IsAll
  notAllSecond : ¬ second.IsAll
  gapFirst : ∃ word ∈ first, word ∉ left ∧ word ∉ right
  gapSecond : ∃ word ∈ second, word ∉ left ∧ word ∉ right
  inside : ∀ outer, Covers left right outer → first ⊆ outer ∨ second ⊆ outer

namespace Candidates

variable {left right first second : Range} (candidates : Candidates left right first second)

include candidates

/-- No range has exactly the elements of both, since it would include a gap. -/
theorem not_exact {whole : Range} (proper : whole.OfWidth left.bits)
    (elements : ∀ word, word ∈ whole ↔ word ∈ left ∨ word ∈ right)
    : False := by
  have covers := covers_of_elements proper elements
  have gap : ∃ word ∈ whole, word ∉ left ∧ word ∉ right := by
    rcases candidates.inside whole covers with included | included
    · obtain ⟨word, member, missing⟩ := candidates.gapFirst
      exact ⟨word, included word member, missing⟩
    · obtain ⟨word, member, missing⟩ := candidates.gapSecond
      exact ⟨word, included word member, missing⟩
  obtain ⟨word, member, missing⟩ := gap
  exact not_or.mpr missing ((elements word).mp member)

/-- The preferred candidate is the union: it is as good as the candidate that a cover includes, and
that one is as good as the cover.
-/
theorem exists_prefer (preference : Preference)
    : ∃ range, prefer preference first second = .ok range
        ∧ IsUnion preference left right range := by
  have properFirst := candidates.coversFirst.ofWidth
  have properSecond := candidates.coversSecond.ofWidth
  obtain ⟨range, selected, among, smallest, uncrossed⟩ :=
    prefer_spec preference properFirst.wellFormed properSecond.wellFormed
      (properSecond.bits_eq.trans properFirst.bits_eq.symm)
  obtain ⟨covers, notAll⟩ : Covers left right range ∧ ¬ range.IsAll := by
    rcases among with same | same
    · exact same ▸ ⟨candidates.coversFirst, candidates.notAllFirst⟩
    · exact same ▸ ⟨candidates.coversSecond, candidates.notAllSecond⟩
  refine ⟨range, selected, covers, ?_, ?_, fun whole proper elements =>
    (candidates.not_exact proper elements).elim⟩
  · intro isSmallest outer outerCovers
    rcases candidates.inside outer outerCovers with included | included
    · exact Nat.le_trans (smallest isSmallest).1 (card_le_of_subset included)
    · exact Nat.le_trans (smallest isSmallest).2 (card_le_of_subset included)
  · intro isSigned outer outerCovers oneSided
    obtain ⟨candidate, choice, proper, included⟩ : ∃ candidate,
        (candidate = first ∨ candidate = second) ∧ candidate.OfWidth left.bits
        ∧ candidate ⊆ outer := by
      rcases candidates.inside outer outerCovers with included | included
      · exact ⟨first, Or.inl rfl, properFirst, included⟩
      · exact ⟨second, Or.inr rfl, properSecond, included⟩
    have straight : candidate.OneSided :=
      oneSided.of_subset (proper.bits_eq.trans outerCovers.ofWidth.bits_eq.symm) included
    obtain ⟨notCrossing, small⟩ :=
      uncrossed isSigned candidate choice (proper.wellFormed.oneSided_iff.mp straight).2
    exact ⟨covers.ofWidth.wellFormed.oneSided_iff.mpr ⟨notAll, notCrossing⟩,
      Nat.le_trans small (card_le_of_subset included)⟩

end Candidates

end StackBounds.Range
