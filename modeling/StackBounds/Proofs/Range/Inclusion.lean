import StackBounds.Proofs.Range.Shape
import StackBounds.Range.Join

/-! Inclusion of ranges is decided by their bounds, and two ranges of one width with the same
elements are equal.
-/

namespace StackBounds.Range

open Word (Valid Fits count half signed residue)

/-- The range is neither empty nor full, so its bounds differ and it is an arc. -/
structure IsArc (range : Range) : Prop where
  wellFormed : range.WellFormed
  some : ¬ range.IsNone
  notAll : ¬ range.IsAll

theorem isArc_of_ne {range : Range} (valid : Valid range.bits)
    (lower : range.lower.toNat < count range.bits)
    (upper : range.upper.toNat < count range.bits)
    (differ : range.lower.toNat ≠ range.upper.toNat)
    : range.IsArc :=
  ⟨wellFormed_of_ne valid lower upper differ, fun h => differ (h.1.trans h.2.symm),
    fun h => differ (h.1.trans h.2.symm)⟩

theorem IsArc.differ {range : Range} (arc : range.IsArc)
    : range.lower.toNat ≠ range.upper.toNat := by
  rcases arc.wellFormed.cases with none | all | differ
  · exact absurd none arc.some
  · exact absurd all arc.notAll
  · exact differ

theorem IsArc.mem_iff {range : Range} (arc : range.IsArc) {word : Nat}
    : word ∈ range
      ↔ word < count range.bits
        ∧ ((range.lower.toNat < range.upper.toNat
              ∧ range.lower.toNat ≤ word ∧ word < range.upper.toNat)
          ∨ (range.upper.toNat < range.lower.toNat
              ∧ (range.lower.toNat ≤ word ∨ word < range.upper.toNat))) := by
  rw [arc.wellFormed.mem_iff]
  simp only [arc.notAll, false_or]

theorem WellFormed.lower_mem {range : Range} (wf : range.WellFormed) (some : ¬ range.IsNone)
    : range.lower.toNat ∈ range := by
  by_cases all : range.IsAll
  · exact mem_of_isAll all wf.lower_lt
  · have arc : range.IsArc := ⟨wf, some, all⟩
    rw [arc.mem_iff]
    have := arc.differ
    have := wf.lower_lt
    omega

/-- The upper bound is the first word after the arc. -/
theorem WellFormed.upper_not_mem {range : Range} (wf : range.WellFormed)
    (notAll : ¬ range.IsAll)
    : range.upper.toNat ∉ range := by
  by_cases none : range.IsNone
  · exact wf.not_mem_of_isNone none _
  · have arc : range.IsArc := ⟨wf, none, notAll⟩
    rw [arc.mem_iff]
    omega

/-- Inclusion of arcs by their bounds. A wrapped arc is never inside one that does not wrap,
since only the former holds the last word.
-/
theorem IsArc.subset_iff {inner outer : Range} (hinner : inner.IsArc) (houter : outer.IsArc)
    (width : outer.bits = inner.bits)
    : inner ⊆ outer
      ↔ (outer.lower.toNat < outer.upper.toNat
          ∧ inner.lower.toNat < inner.upper.toNat
          ∧ outer.lower.toNat ≤ inner.lower.toNat ∧ inner.upper.toNat ≤ outer.upper.toNat)
        ∨ (outer.upper.toNat < outer.lower.toNat
          ∧ inner.lower.toNat < inner.upper.toNat
          ∧ (inner.upper.toNat ≤ outer.upper.toNat ∨ outer.lower.toNat ≤ inner.lower.toNat))
        ∨ (outer.upper.toNat < outer.lower.toNat
          ∧ inner.upper.toNat < inner.lower.toNat
          ∧ inner.upper.toNat ≤ outer.upper.toNat
          ∧ outer.lower.toNat ≤ inner.lower.toNat) := by
  have innerDiffer := hinner.differ
  have outerDiffer := houter.differ
  have innerLower := hinner.wellFormed.lower_lt
  have innerUpper := hinner.wellFormed.upper_lt
  have outerUpper := houter.wellFormed.upper_lt
  rw [width] at outerUpper
  constructor
  · intro included
    have elements (word : Nat) := included word
    simp only [hinner.mem_iff, houter.mem_iff, width] at elements
    have first := elements inner.lower.toNat
    -- The second word is one that an outer arc of the wrong shape would miss.
    rcases Nat.lt_or_gt_of_ne outerDiffer with outerPlain | outerWrapped
    · rcases Nat.lt_or_gt_of_ne innerDiffer with innerPlain | innerWrapped
      · have last := elements (inner.upper.toNat - 1)
        omega
      · have greatest := elements (count inner.bits - 1)
        omega
    · have beyond := elements outer.upper.toNat
      omega
  · intro bounds word
    rw [hinner.mem_iff, houter.mem_iff, width]
    omega

/-- The inclusion test answers for ranges of one width, and decides inclusion of sets. -/
theorem contains_spec {outer inner : Range} (wfOuter : outer.WellFormed)
    (wfInner : inner.WellFormed) (width : outer.bits = inner.bits)
    : ∃ answer, outer.contains inner = .ok answer ∧ (answer = true ↔ inner ⊆ outer) := by
  have same : outer.requireSameWidth inner = .ok () := by simp [requireSameWidth, width]
  unfold contains
  rw [same, ok_bind, wfOuter.isFull_eq, ok_bind]
  by_cases outerAll : outer.IsAll
  · exact ⟨true, by simp [outerAll], by simp [subset_of_isAll outerAll width.symm]⟩
  by_cases innerNone : inner.IsNone
  · exact ⟨true, by simp [outerAll, isEmpty_iff.mpr innerNone],
      by simp [wfInner.subset_of_isNone innerNone outer]⟩
  have innerSome : inner.isEmpty = false := by simpa using fun h => innerNone (isEmpty_iff.mp h)
  by_cases outerNone : outer.IsNone
  · refine ⟨false, by simp [outerAll, innerSome, isEmpty_iff.mpr outerNone], ?_⟩
    simp only [Bool.false_eq_true, false_iff]
    intro included
    exact wfOuter.not_mem_of_isNone outerNone _ (included _ (wfInner.lower_mem innerNone))
  have outerSome : outer.isEmpty = false := by simpa using fun h => outerNone (isEmpty_iff.mp h)
  by_cases innerAll : inner.IsAll
  · refine ⟨false, by simp [outerAll, innerSome, outerSome, wfInner.isFull_eq, innerAll], ?_⟩
    simp only [Bool.false_eq_true, false_iff]
    intro included
    exact wfOuter.upper_not_mem outerAll
      (included _ (mem_of_isAll innerAll (width ▸ wfOuter.upper_lt)))
  have hinner : inner.IsArc := ⟨wfInner, innerNone, innerAll⟩
  have houter : outer.IsArc := ⟨wfOuter, outerNone, outerAll⟩
  have innerDiffer := hinner.differ
  have outerDiffer := houter.differ
  have outerWrap := isWrapped_iff outer
  have innerWrap := isWrapped_iff inner
  rw [hinner.subset_iff houter width]
  simp only [outerAll, innerSome, outerSome, wfInner.isFull_eq, innerAll, decide_false,
    Bool.false_eq_true, ↓reduceIte, ok_bind, pure_eq_ok, Except.ok.injEq, exists_eq_left']
  cases howrap : outer.isWrapped <;> cases hiwrap : inner.isWrapped <;>
    simp only [howrap, hiwrap, Bool.false_eq_true, false_iff, true_iff] at outerWrap innerWrap <;>
    simp only [decide_eq_true_eq, UInt64.le_iff_toNat_le, Bool.false_eq_true, false_iff] <;> omega

/-- The inclusion test only answers for ranges of one width. -/
theorem bits_eq_of_contains {outer inner : Range} {answer : Bool}
    (decided : outer.contains inner = .ok answer)
    : outer.bits = inner.bits := by
  obtain ⟨_, required, _⟩ := exists_of_bind_eq_ok decided
  rw [requireSameWidth] at required
  split at required
  · assumption
  · cases required

/-- The inclusion test, when it answers. -/
theorem contains_eq_true_iff {outer inner : Range} (wfOuter : outer.WellFormed)
    (wfInner : inner.WellFormed) (width : outer.bits = inner.bits)
    : outer.contains inner = .ok true ↔ inner ⊆ outer := by
  obtain ⟨answer, decided, meaning⟩ := contains_spec wfOuter wfInner width
  rw [decided, ← meaning]
  simp

theorem contains_eq_false_iff {outer inner : Range} (wfOuter : outer.WellFormed)
    (wfInner : inner.WellFormed) (width : outer.bits = inner.bits)
    : outer.contains inner = .ok false ↔ ¬ inner ⊆ outer := by
  obtain ⟨answer, decided, meaning⟩ := contains_spec wfOuter wfInner width
  rw [decided, ← meaning]
  simp

/-- A range that includes the full set is the full set. -/
theorem WellFormed.isAll_of_superset {inner outer : Range} (wf : outer.WellFormed)
    (all : inner.IsAll) (width : outer.bits = inner.bits) (included : inner ⊆ outer)
    : outer.IsAll := by
  by_contra notAll
  exact wf.upper_not_mem notAll (included _ (mem_of_isAll all (width ▸ wf.upper_lt)))

/-- A range inside the empty set is empty. -/
theorem WellFormed.isNone_of_subset {inner outer : Range} (wfInner : inner.WellFormed)
    (wfOuter : outer.WellFormed) (none : outer.IsNone) (included : inner ⊆ outer)
    : inner.IsNone := by
  by_contra some
  exact wfOuter.not_mem_of_isNone none _ (included _ (wfInner.lower_mem some))

/-- The number is an element, or nothing is known. -/
def Allows (range : Range) (value : Int) : Prop := range.IsAll ∨ range.Holds value

theorem Allows.of_subset {inner outer : Range} {value : Int} (allowed : inner.Allows value)
    (wfInner : inner.WellFormed) (wfOuter : outer.WellFormed) (width : inner.bits = outer.bits)
    (included : inner ⊆ outer)
    : outer.Allows value := by
  rcases allowed with all | held
  · exact Or.inl (wfOuter.isAll_of_superset all width.symm included)
  · exact Or.inr ((wfInner.subset_iff_holds wfOuter width).mp included value held)

/-- Ranges of one width are determined by their elements. -/
theorem eq_of_subset_of_subset {first second : Range} (wfFirst : first.WellFormed)
    (wfSecond : second.WellFormed) (width : first.bits = second.bits)
    (forth : first ⊆ second) (back : second ⊆ first)
    : first = second := by
  by_cases firstAll : first.IsAll
  · have secondAll := wfSecond.isAll_of_superset firstAll width.symm forth
    rw [eq_top wfFirst.valid rfl firstAll, eq_top wfFirst.valid width.symm secondAll]
  by_cases firstNone : first.IsNone
  · have secondNone := wfSecond.isNone_of_subset wfFirst firstNone back
    rw [eq_bottom rfl firstNone, eq_bottom width.symm secondNone]
  have secondAll : ¬ second.IsAll := fun h =>
    firstAll (wfFirst.isAll_of_superset h width back)
  have secondNone : ¬ second.IsNone := fun h =>
    firstNone (wfFirst.isNone_of_subset wfSecond h forth)
  have hfirst : first.IsArc := ⟨wfFirst, firstNone, firstAll⟩
  have hsecond : second.IsArc := ⟨wfSecond, secondNone, secondAll⟩
  have forthBounds := (hfirst.subset_iff hsecond width.symm).mp forth
  have backBounds := (hsecond.subset_iff hfirst width).mp back
  have bounds : first.lower.toNat = second.lower.toNat
      ∧ first.upper.toNat = second.upper.toNat := by
    omega
  obtain ⟨_, _, _⟩ := first
  obtain ⟨_, _, _⟩ := second
  simp only [mk.injEq]
  exact ⟨width, UInt64.toNat_inj.mp bounds.1, UInt64.toNat_inj.mp bounds.2⟩

/-- The inclusion test is exact: it has an answer for ranges of one width, namely whether every
element of the inner range is one of the outer range. The elements are the words that come before
the upper bound on the way up from the lower bound, around the circle, and all words for the full
set.
-/
theorem contains_decides_inclusion {bits : UInt32} {outer inner : Range}
    (properOuter : outer.OfWidth bits) (properInner : inner.OfWidth bits)
    : (∃ answer, outer.contains inner = .ok answer
        ∧ (answer = true ↔ ∀ word, word ∈ inner → word ∈ outer))
      ∧ ∀ range : Range, range.OfWidth bits → ∀ word : Nat,
        word ∈ range
        ↔ word < count bits
          ∧ (range.IsAll
            ∨ ((word : Int) - range.lower.toNat) % count bits
              < ((range.upper.toNat : Int) - range.lower.toNat) % count bits) := by
  refine ⟨contains_spec properOuter.wellFormed properInner.wellFormed
    (properOuter.bits_eq.trans properInner.bits_eq.symm), fun range proper word => ?_⟩
  rw [← proper.bits_eq]
  exact proper.wellFormed.mem_iff_distance

/-- Witness: a range around zero includes one that stops right there, and not the other way round.
-/
theorem contains_decides_inclusion_bytes
    : (Range.mk 8 250 10).contains ⟨8, 253, 0⟩ = .ok true
      ∧ (∀ word, word ∈ Range.mk 8 253 0 → word ∈ Range.mk 8 250 10)
      ∧ (Range.mk 8 253 0).contains ⟨8, 250, 10⟩ = .ok false
      ∧ ¬ ∀ word, word ∈ Range.mk 8 250 10 → word ∈ Range.mk 8 253 0 := by
  have properWide : (Range.mk 8 250 10).OfWidth 8 := by decide
  have properNarrow : (Range.mk 8 253 0).OfWidth 8 := by decide
  obtain ⟨⟨forth, isForth, includes⟩, _⟩ := contains_decides_inclusion properWide properNarrow
  obtain ⟨⟨back, isBack, excludes⟩, _⟩ := contains_decides_inclusion properNarrow properWide
  have forthResult : (Range.mk 8 250 10).contains ⟨8, 253, 0⟩ = .ok true := by decide
  have backResult : (Range.mk 8 253 0).contains ⟨8, 250, 10⟩ = .ok false := by decide
  cases forthResult.symm.trans isForth
  cases backResult.symm.trans isBack
  exact ⟨forthResult, includes.mp rfl, backResult, fun all => absurd (excludes.mpr all) (by decide)⟩

end StackBounds.Range
