import Mathlib.Order.Interval.Finset.Nat
import StackBounds.Proofs.Range.Inclusion

/-! The size of a range is the number of its elements, so a range inside another one is not larger,
and it is the other one when it is not smaller either.
-/

namespace StackBounds.Range

open Word (Valid count)

/-- The elements of a range. -/
def elements (range : Range) : Finset Nat :=
  (Finset.range (count range.bits)).filter (· ∈ range)

@[simp] theorem mem_elements {range : Range} {word : Nat}
    : word ∈ range.elements ↔ word ∈ range := by
  rw [elements, Finset.mem_filter, Finset.mem_range]
  exact and_iff_right_of_imp lt_of_mem

theorem elements_subset_iff {inner outer : Range}
    : inner.elements ⊆ outer.elements ↔ inner ⊆ outer := by
  simp only [Finset.subset_iff, mem_elements]
  exact Iff.rfl

/-- A range inside another one has no more elements. -/
theorem card_le_of_subset {inner outer : Range} (included : inner ⊆ outer)
    : inner.elements.card ≤ outer.elements.card :=
  Finset.card_le_card (elements_subset_iff.mpr included)

/-- A range inside another one with no more elements is that range. -/
theorem eq_of_subset_of_card_le {inner outer : Range} (wfInner : inner.WellFormed)
    (wfOuter : outer.WellFormed) (width : inner.bits = outer.bits) (included : inner ⊆ outer)
    (large : outer.elements.card ≤ inner.elements.card)
    : inner = outer := by
  have same := Finset.eq_of_subset_of_card_le (elements_subset_iff.mpr included) large
  exact eq_of_subset_of_subset wfInner wfOuter width included
    (elements_subset_iff.mp (subset_of_eq same.symm))

section Counting

variable {range : Range}

theorem card_elements_of_isAll (all : range.IsAll) : range.elements.card = count range.bits := by
  have everything : range.elements = Finset.range (count range.bits) := by
    ext word
    rw [mem_elements, Finset.mem_range]
    exact ⟨lt_of_mem, mem_of_isAll all⟩
  rw [everything, Finset.card_range]

theorem WellFormed.card_elements_of_isNone (wf : range.WellFormed) (none : range.IsNone)
    : range.elements.card = 0 := by
  rw [Finset.card_eq_zero, Finset.eq_empty_iff_forall_notMem]
  intro word member
  exact wf.not_mem_of_isNone none word (mem_elements.mp member)

/-- An arc has as many elements as steps from its lower to its upper bound. A wrapped one is made
of two pieces, one up to the last word and one from the first word on.
-/
theorem IsArc.card_elements (arc : range.IsArc) : range.elements.card = range.span := by
  have lower := arc.wellFormed.lower_lt
  have upper := arc.wellFormed.upper_lt
  have spanEq : range.span
      = if range.lower.toNat ≤ range.upper.toNat then range.upper.toNat - range.lower.toNat
        else range.upper.toNat + count range.bits - range.lower.toNat := by
    rw [span, ← Nat.add_sub_assoc (Nat.le_of_lt lower), distance_eq lower upper]
  rw [spanEq]
  rcases Nat.lt_or_gt_of_ne arc.differ with plain | wrapped
  · have piece : range.elements = Finset.Ico range.lower.toNat range.upper.toNat := by
      ext word
      rw [mem_elements, arc.mem_iff, Finset.mem_Ico]
      omega
    rw [piece, Nat.card_Ico, if_pos (Nat.le_of_lt plain)]
  · have pieces : range.elements = Finset.Ico range.lower.toNat (count range.bits)
        ∪ Finset.range range.upper.toNat := by
      ext word
      rw [mem_elements, arc.mem_iff, Finset.mem_union, Finset.mem_Ico, Finset.mem_range]
      omega
    have apart : Disjoint (Finset.Ico range.lower.toNat (count range.bits))
        (Finset.range range.upper.toNat) := by
      rw [Finset.disjoint_left]
      intro word above below
      rw [Finset.mem_Ico] at above
      rw [Finset.mem_range] at below
      omega
    rw [pieces, Finset.card_union_of_disjoint apart, Nat.card_Ico, Finset.card_range,
      if_neg (Nat.not_le_of_lt wrapped)]
    omega

/-- Everything but the full set leaves a word out. -/
theorem WellFormed.card_elements_lt (wf : range.WellFormed) (notAll : ¬ range.IsAll)
    : range.elements.card < count range.bits := by
  have beyond : range.upper.toNat ∉ range.elements := by
    rw [mem_elements]
    exact wf.upper_not_mem notAll
  have fewer : range.elements.card < (Finset.range (count range.bits)).card :=
    Finset.card_lt_card (Finset.ssubset_iff_of_subset (Finset.filter_subset _ _) |>.mpr
      ⟨range.upper.toNat, Finset.mem_range.mpr wf.upper_lt, beyond⟩)
  rwa [Finset.card_range] at fewer

/-- The distance between the bounds counts the elements of every range but the full set. -/
theorem WellFormed.exists_length (wf : range.WellFormed) (notAll : ¬ range.IsAll)
    : ∃ length, range.length = .ok length ∧ length.toNat = range.elements.card := by
  obtain ⟨length, measured, lengthEq⟩ := wf.length_spec
  refine ⟨length, measured, lengthEq.trans ?_⟩
  by_cases none : range.IsNone
  · rw [wf.card_elements_of_isNone none, span, none.1, none.2, Nat.zero_add, Nat.sub_zero,
      Nat.mod_self]
  · exact (IsArc.card_elements ⟨wf, none, notAll⟩).symm

/-- The size of a range is the number of its elements. -/
theorem WellFormed.size_eq (wf : range.WellFormed) : range.size = .ok range.elements.card := by
  rw [size, wf.isFull_eq, ok_bind]
  by_cases all : range.IsAll
  · rw [if_pos (decide_eq_true all), card_elements_of_isAll all, pure_eq_ok]
  · obtain ⟨length, measured, lengthEq⟩ := wf.exists_length all
    rw [if_neg (by simpa using all), measured, ok_bind, lengthEq, pure_eq_ok]

end Counting

/-- Ranges of one width are compared by the number of their elements. -/
theorem isSmallerThan_eq {first second : Range} (wfFirst : first.WellFormed)
    (wfSecond : second.WellFormed) (width : first.bits = second.bits)
    : first.isSmallerThan second
      = .ok (decide (first.elements.card < second.elements.card)) := by
  rw [isSmallerThan, wfFirst.isFull_eq, wfSecond.isFull_eq, ok_bind, ok_bind]
  by_cases firstAll : first.IsAll
  · have large : second.elements.card ≤ first.elements.card :=
      card_le_of_subset (subset_of_isAll firstAll width.symm)
    rw [if_pos (decide_eq_true firstAll), decide_eq_false (Nat.not_lt.mpr large), pure_eq_ok]
  rw [if_neg (by simpa using firstAll)]
  by_cases secondAll : second.IsAll
  · have short : first.elements.card < second.elements.card := by
      rw [card_elements_of_isAll secondAll, ← width]
      exact wfFirst.card_elements_lt firstAll
    rw [if_pos (decide_eq_true secondAll), decide_eq_true short, pure_eq_ok]
  · obtain ⟨firstLength, hfirst, firstEq⟩ := wfFirst.exists_length firstAll
    obtain ⟨secondLength, hsecond, secondEq⟩ := wfSecond.exists_length secondAll
    rw [if_neg (by simpa using secondAll), hfirst, hsecond, ok_bind, ok_bind, ← firstEq, ← secondEq,
      pure_eq_ok]
    simp only [UInt64.lt_iff_toNat_lt]

end StackBounds.Range
