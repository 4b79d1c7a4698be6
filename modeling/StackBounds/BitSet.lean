/-! Sets of numbers, held as the bits of one number. -/

namespace StackBounds

/-- A finite set of numbers: those whose bits are set. -/
structure BitSet where
  bits : Nat
  deriving DecidableEq, Repr

namespace BitSet

/-- The set without numbers. -/
def empty : BitSet := ⟨0⟩

/-- The number is in the set. -/
def contains (set : BitSet) (number : Nat) : Bool := set.bits.testBit number

/-- The set with a number. -/
def insert (set : BitSet) (number : Nat) : BitSet := ⟨set.bits ||| 1 <<< number⟩

/-- The set without a number. -/
def remove (set : BitSet) (number : Nat) : BitSet := ⟨set.bits ^^^ (set.bits &&& 1 <<< number)⟩

/-- The numbers that are in both sets. -/
def intersect (set other : BitSet) : BitSet := ⟨set.bits &&& other.bits⟩

@[simp]
theorem contains_empty (number : Nat) : empty.contains number = false := Nat.zero_testBit number

@[simp]
theorem contains_insert (set : BitSet) (number other : Nat)
    : (set.insert number).contains other = (set.contains other || decide (number = other)) := by
  rw [contains, insert, Nat.testBit_or, Nat.one_shiftLeft, Nat.testBit_two_pow, contains]

@[simp]
theorem contains_remove (set : BitSet) (number other : Nat)
    : (set.remove number).contains other = (set.contains other && !decide (number = other)) := by
  rw [contains, remove, Nat.testBit_xor, Nat.testBit_and, Nat.one_shiftLeft, Nat.testBit_two_pow,
    contains]
  cases set.bits.testBit other <;> cases decide (number = other) <;> rfl

@[simp]
theorem contains_intersect (set other : BitSet) (number : Nat)
    : (set.intersect other).contains number = (set.contains number && other.contains number) :=
  Nat.testBit_and _ _ _

/-- Sets of the same numbers are equal. -/
theorem ext {set other : BitSet} (same : ∀ number, set.contains number = other.contains number)
    : set = other := by
  obtain ⟨bits⟩ := set
  obtain ⟨bitsOther⟩ := other
  exact congrArg mk (Nat.eq_of_testBit_eq same)

instance : HasSubset BitSet where
  Subset set other := ∀ number, set.contains number = true → other.contains number = true

theorem subset_refl (set : BitSet) : set ⊆ set := fun _ member => member

theorem subset_trans {first second third : BitSet} (below : first ⊆ second) (above : second ⊆ third)
    : first ⊆ third := fun number member => above number (below number member)

theorem eq_of_subset_of_subset {set other : BitSet} (below : set ⊆ other) (above : other ⊆ set)
    : set = other :=
  ext fun number => Bool.eq_iff_iff.mpr ⟨below number, above number⟩

/-- A part that is not the whole lacks some number of it. -/
theorem exists_of_subset_of_ne {set other : BitSet} (below : set ⊆ other) (differ : set ≠ other)
    : ∃ number, other.contains number = true ∧ set.contains number = false := by
  by_cases above : other ⊆ set
  · exact absurd (eq_of_subset_of_subset below above) differ
  · obtain ⟨number, missing⟩ := Classical.not_forall.mp above
    obtain ⟨member, missing⟩ := Classical.not_imp.mp missing
    exact ⟨number, member, Bool.eq_false_iff.mpr missing⟩

end BitSet

end StackBounds
