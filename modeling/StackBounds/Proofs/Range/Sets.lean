import StackBounds.Proofs.Range.Words

/-! Ranges as sets. A range that denotes a set is an arc on the circle of words, and it is the
same arc whether the circle is cut at zero or at the end of the signed numbers. Both readings
are given in a form that linear arithmetic decides.
-/

namespace StackBounds.Range

open Word (Valid Fits count half signed residue)

/-- The bounds denote every word. -/
def IsAll (range : Range) : Prop :=
  range.lower.toNat = count range.bits - 1 ∧ range.upper.toNat = count range.bits - 1

/-- The bounds denote no word. -/
def IsNone (range : Range) : Prop := range.lower.toNat = 0 ∧ range.upper.toNat = 0

instance (range : Range) : Decidable range.IsAll := inferInstanceAs (Decidable (_ ∧ _))

instance (range : Range) : Decidable range.IsNone := inferInstanceAs (Decidable (_ ∧ _))

/-- The lower bound as a signed number. -/
def low (range : Range) : Int := signed range.bits range.lower.toNat

/-- The upper bound as a signed number. -/
def high (range : Range) : Int := signed range.bits range.upper.toNat

/-- A signed number of the range's width whose word is an element. -/
def Holds (range : Range) (value : Int) : Prop :=
  Fits range.bits value ∧ residue range.bits value ∈ range

/-- Every element of the first range is one of the second. -/
instance : HasSubset Range := ⟨fun inner outer => ∀ word, word ∈ inner → word ∈ outer⟩

/-- A range of a given width that denotes a set. -/
structure OfWidth (bits : UInt32) (range : Range) : Prop where
  wellFormed : range.WellFormed
  bits_eq : range.bits = bits

instance (range : Range) (word : Nat) : Decidable (word ∈ range) :=
  inferInstanceAs (Decidable (_ ∧ (_ ∨ _)))

instance (range : Range) (value : Int) : Decidable (range.Holds value) :=
  inferInstanceAs (Decidable (_ ∧ _))

instance (range : Range) : Decidable range.WellFormed :=
  inferInstanceAs (Decidable (_ ∧ _ ∧ _ ∧ _ ∧ (_ → _)))

instance (bits : UInt32) (range : Range) : Decidable (range.OfWidth bits) :=
  decidable_of_iff (range.WellFormed ∧ range.bits = bits)
    ⟨fun h => ⟨h.1, h.2⟩, fun h => ⟨h.wellFormed, h.bits_eq⟩⟩

theorem subset_refl (range : Range) : range ⊆ range := fun _ member => member

theorem subset_trans {inner middle outer : Range} (first : inner ⊆ middle)
    (second : middle ⊆ outer)
    : inner ⊆ outer :=
  fun word member => second word (first word member)

section Bounds

variable {range : Range}

theorem WellFormed.valid (wf : range.WellFormed) : Valid range.bits := ⟨wf.1, wf.2.1⟩

theorem WellFormed.lower_lt (wf : range.WellFormed) : range.lower.toNat < count range.bits :=
  wf.2.2.1

theorem WellFormed.upper_lt (wf : range.WellFormed) : range.upper.toNat < count range.bits :=
  wf.2.2.2.1

/-- Equal bounds leave two patterns only. -/
theorem WellFormed.cases (wf : range.WellFormed)
    : range.IsNone ∨ range.IsAll ∨ range.lower.toNat ≠ range.upper.toNat := by
  by_cases same : range.lower = range.upper
  · have number : range.lower.toNat = range.upper.toNat := congrArg UInt64.toNat same
    rcases wf.2.2.2.2 same with zero | ones
    · exact Or.inl ⟨zero, number ▸ zero⟩
    · exact Or.inr (Or.inl ⟨ones, number ▸ ones⟩)
  · refine Or.inr (Or.inr fun number => same ?_)
    exact UInt64.toNat_inj.mp number

/-- Bounds below the modulus denote a set when they differ. -/
theorem wellFormed_of_ne (valid : Valid range.bits)
    (lower : range.lower.toNat < count range.bits)
    (upper : range.upper.toNat < count range.bits)
    (differ : range.lower.toNat ≠ range.upper.toNat)
    : range.WellFormed :=
  ⟨valid.1, valid.2, lower, upper, fun same => absurd (congrArg UInt64.toNat same) differ⟩

theorem WellFormed.not_isAll_of_isNone (wf : range.WellFormed) (none : range.IsNone)
    : ¬ range.IsAll := by
  intro all
  have := wf.valid.count_eq
  have := Word.half_pos range.bits
  have := none.1
  have := all.1
  omega

/-- The signed bounds lie in the signed numbers. -/
theorem WellFormed.fits_low (wf : range.WellFormed) : Fits range.bits range.low :=
  wf.valid.fits_signed wf.lower_lt

theorem WellFormed.fits_high (wf : range.WellFormed) : Fits range.bits range.high :=
  wf.valid.fits_signed wf.upper_lt

-----------------------------------------------------------------------------------------
-- Elements
-----------------------------------------------------------------------------------------

/-- The distance from one word to another along the circle. -/
theorem distance_eq {modulus start stop : Nat} (hstart : start < modulus) (hstop : stop < modulus)
    : (stop + modulus - start) % modulus
      = if start ≤ stop then stop - start else stop + modulus - start := by
  split
  · have shift : stop + modulus - start = (stop - start) + modulus := by omega
    rw [shift, Nat.add_mod_right]
    exact Nat.mod_eq_of_lt (by omega)
  · exact Nat.mod_eq_of_lt (by omega)

/-- The elements, with the circle cut at zero: an arc that does not wrap lies between its
bounds, and one that wraps lies outside them.
-/
theorem WellFormed.mem_iff (wf : range.WellFormed) {word : Nat}
    : word ∈ range
      ↔ word < count range.bits
        ∧ (range.IsAll
          ∨ (range.lower.toNat < range.upper.toNat
              ∧ range.lower.toNat ≤ word ∧ word < range.upper.toNat)
          ∨ (range.upper.toNat < range.lower.toNat
              ∧ (range.lower.toNat ≤ word ∨ word < range.upper.toNat))) := by
  have lower := wf.lower_lt
  have upper := wf.upper_lt
  change Mem range word ↔ _
  unfold Mem
  refine and_congr_right fun bound => ?_
  rw [distance_eq lower bound, distance_eq lower upper, ← UInt64.toNat_inj, IsAll]
  split <;> split <;> omega

/-- The distance from one word to another as the remainder of their difference. -/
theorem natCast_distance {modulus start : Nat} (bound : start ≤ modulus) (stop : Nat)
    : (((stop + modulus - start) % modulus : Nat) : Int) = ((stop : Int) - start) % modulus := by
  rw [Int.natCast_mod, Int.natCast_sub (by omega), Int.natCast_add,
    show (stop : Int) + modulus - start = (stop : Int) - start + modulus by omega,
    Int.add_emod_right]

/-- The elements by their distance from the lower bound along the circle. -/
theorem WellFormed.mem_iff_distance (wf : range.WellFormed) {word : Nat}
    : word ∈ range
      ↔ word < count range.bits
        ∧ (range.IsAll
          ∨ ((word : Int) - range.lower.toNat) % count range.bits
            < ((range.upper.toNat : Int) - range.lower.toNat) % count range.bits) := by
  have lower := Nat.le_of_lt wf.lower_lt
  change Mem range word ↔ _
  rw [← natCast_distance lower, ← natCast_distance lower, Int.ofNat_lt, IsAll]
  unfold Mem
  refine and_congr_right fun _ => or_congr_left ⟨?_, ?_⟩
  · intro full
    exact ⟨full.2, full.1 ▸ full.2⟩
  · intro all
    exact ⟨UInt64.toNat_inj.mp (all.1.trans all.2.symm), all.1⟩

/-- An element is a word of the width. -/
theorem lt_of_mem {word : Nat} (member : word ∈ range) : word < count range.bits :=
  And.left (show Mem range word from member)

/-- The elements as signed numbers, with the circle cut at the end of the signed numbers. The
shape is that of `mem_iff`, because turning the circle by half a turn keeps arcs.
-/
theorem WellFormed.holds_iff (wf : range.WellFormed) {value : Int}
    : range.Holds value
      ↔ Fits range.bits value
        ∧ (range.IsAll
          ∨ (range.low < range.high ∧ range.low ≤ value ∧ value < range.high)
          ∨ (range.high < range.low ∧ (range.low ≤ value ∨ value < range.high))) := by
  refine and_congr_right fun fits => ?_
  have double := wf.valid.count_eq
  have lower := wf.valid.signed_cases wf.lower_lt
  have upper := wf.valid.signed_cases wf.upper_lt
  have number := wf.valid.residue_cases fits
  have bound := Word.residue_lt range.bits value
  have lowerBound := wf.lower_lt
  have upperBound := wf.upper_lt
  rw [wf.mem_iff]
  unfold Fits at fits
  unfold low high IsAll
  rcases lower with ⟨_, lower⟩ | ⟨_, lower⟩ <;> rcases upper with ⟨_, upper⟩ | ⟨_, upper⟩ <;>
    rcases number with ⟨_, number⟩ | ⟨_, number⟩ <;> omega

/-- The elements of a range that is not the full set, as signed numbers. -/
theorem WellFormed.holds_iff_of_not_isAll (wf : range.WellFormed) (notAll : ¬ range.IsAll)
    {value : Int}
    : range.Holds value
      ↔ Fits range.bits value
        ∧ ((range.low < range.high ∧ range.low ≤ value ∧ value < range.high)
          ∨ (range.high < range.low ∧ (range.low ≤ value ∨ value < range.high))) := by
  rw [wf.holds_iff]
  simp only [notAll, false_or]

/-- A word is an element when its signed reading is. -/
theorem WellFormed.mem_iff_holds (wf : range.WellFormed) {word : Nat}
    : word ∈ range ↔ word < count range.bits ∧ range.Holds (signed range.bits word) := by
  constructor
  · intro member
    have bound := lt_of_mem member
    refine ⟨bound, wf.valid.fits_signed bound, ?_⟩
    rwa [wf.valid.residue_signed bound]
  · rintro ⟨bound, _, member⟩
    rwa [wf.valid.residue_signed bound] at member

theorem WellFormed.not_mem_of_isNone (wf : range.WellFormed) (none : range.IsNone) (word : Nat)
    : word ∉ range := by
  rw [wf.mem_iff]
  have notAll := wf.not_isAll_of_isNone none
  obtain ⟨lower, upper⟩ := none
  simp [notAll, lower, upper]

theorem mem_of_isAll (all : range.IsAll) {word : Nat} (h : word < count range.bits)
    : word ∈ range :=
  ⟨h, Or.inl ⟨UInt64.toNat_inj.mp (all.1.trans all.2.symm), all.1⟩⟩

theorem holds_of_isAll (all : range.IsAll) {value : Int} (h : Fits range.bits value)
    : range.Holds value :=
  ⟨h, mem_of_isAll all (Word.residue_lt _ _)⟩

/-- A range that is not empty holds its lower bound. -/
theorem WellFormed.holds_low (wf : range.WellFormed) (some : ¬ range.IsNone)
    : range.Holds range.low := by
  rw [wf.holds_iff]
  refine ⟨wf.fits_low, ?_⟩
  rcases wf.cases with none | all | differ
  · exact absurd none some
  · exact Or.inl all
  · have lower := wf.valid.residue_signed wf.lower_lt
    have upper := wf.valid.residue_signed wf.upper_lt
    have distinct : range.low ≠ range.high := by
      intro same
      unfold low high at same
      exact differ (lower ▸ upper ▸ congrArg (residue range.bits) same)
    omega

/-- Inclusion in terms of signed numbers, for ranges of one width. -/
theorem WellFormed.subset_iff_holds {inner outer : Range} (wfInner : inner.WellFormed)
    (wfOuter : outer.WellFormed) (width : inner.bits = outer.bits)
    : inner ⊆ outer ↔ ∀ value, inner.Holds value → outer.Holds value := by
  constructor
  · rintro included value ⟨fits, member⟩
    exact ⟨width ▸ fits, width ▸ included _ member⟩
  · intro included word member
    obtain ⟨bound, held⟩ := wfInner.mem_iff_holds.mp member
    refine wfOuter.mem_iff_holds.mpr ⟨width ▸ bound, ?_⟩
    rw [← width]
    exact included _ held

end Bounds

end StackBounds.Range
