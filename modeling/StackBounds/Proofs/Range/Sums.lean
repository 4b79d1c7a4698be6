import StackBounds.Proofs.Range.Sizes
import StackBounds.Range.Sum

/-! Wrapping sums of ranges denote exactly the sums of elements modulo the number of words. An
element is a number of steps away from the lower bound, and the steps add up.
-/

namespace StackBounds.Range

open Word (Valid Fits count half signed residue)

-----------------------------------------------------------------------------------------
-- Elements by their distance from the lower bound
-----------------------------------------------------------------------------------------

theorem add_distance_mod {modulus start stop : Nat} (hstart : start < modulus)
    (hstop : stop < modulus)
    : (start + (stop + modulus - start) % modulus) % modulus = stop := by
  rw [Nat.add_mod_mod, show start + (stop + modulus - start) = stop + modulus by omega,
    Nat.add_mod_right]
  exact Nat.mod_eq_of_lt hstop

/-- Going around the circle by a number of steps covers that distance, modulo the circle. -/
theorem distance_add_mod (modulus start steps : Nat) (positive : 0 < modulus)
    : ((start + steps) % modulus + (modulus - start % modulus)) % modulus = steps % modulus := by
  have bound := Nat.mod_lt start positive
  rw [← Nat.mod_add_mod start modulus steps, Nat.mod_add_mod,
    show start % modulus + steps + (modulus - start % modulus) = steps + modulus by omega,
    Nat.add_mod_right]

section Arcs

variable {range : Range}

theorem IsArc.upper_eq (arc : range.IsArc)
    : range.upper.toNat = (range.lower.toNat + range.span) % count range.bits := by
  have lower := arc.wellFormed.lower_lt
  have round := add_distance_mod lower arc.wellFormed.upper_lt
  rw [span, ← Nat.add_sub_assoc (Nat.le_of_lt lower)]
  exact round.symm

theorem span_lt (range : Range) : range.span < count range.bits :=
  Nat.mod_lt _ (Word.count_pos _)

theorem IsArc.span_pos (arc : range.IsArc) : 0 < range.span := by
  rcases Nat.eq_zero_or_pos range.span with zero | positive
  · have upper := arc.upper_eq
    rw [zero, Nat.add_zero, Nat.mod_eq_of_lt arc.wellFormed.lower_lt] at upper
    exact absurd upper.symm arc.differ
  · exact positive

theorem IsArc.mem_iff_step (arc : range.IsArc) {word : Nat}
    : word ∈ range
      ↔ ∃ step, step < range.span ∧ word = (range.lower.toNat + step) % count range.bits := by
  have lower := arc.wellFormed.lower_lt
  have distance (word : Nat) : word ∈ range ↔ word < count range.bits
      ∧ (word + count range.bits - range.lower.toNat) % count range.bits < range.span := by
    change Mem range word ↔ _
    unfold Mem
    have bounds : ¬ range.lower = range.upper := fun h => arc.differ (congrArg UInt64.toNat h)
    simp only [bounds, false_and, false_or, span, Nat.add_sub_assoc (Nat.le_of_lt lower)]
  rw [distance]
  constructor
  · rintro ⟨bound, inside⟩
    exact ⟨_, inside, (add_distance_mod lower bound).symm⟩
  · rintro ⟨step, inside, rfl⟩
    refine ⟨Nat.mod_lt _ (Word.count_pos _), ?_⟩
    have stepLt := Nat.lt_trans inside (span_lt range)
    have round := distance_add_mod (count range.bits) range.lower.toNat step (Word.count_pos _)
    rw [Nat.mod_eq_of_lt lower, Nat.mod_eq_of_lt stepLt] at round
    rwa [Nat.add_sub_assoc (Nat.le_of_lt lower), round]

end Arcs

section Wrapping

variable {left right : Range}

/-- The sums of two arcs are the words within the joint distance of the sum of the bounds. -/
theorem IsArc.exists_add_iff (hleft : left.IsArc) (hright : right.IsArc)
    (width : right.bits = left.bits) {word : Nat}
    : (∃ x ∈ left, ∃ y ∈ right, word = (x + y) % count left.bits)
      ↔ ∃ step, step < left.span + right.span - 1
        ∧ word = (left.lower.toNat + right.lower.toNat + step) % count left.bits := by
  have leftPos := hleft.span_pos
  have rightPos := hright.span_pos
  have regroup (i j : Nat)
      : ((left.lower.toNat + i) % count left.bits + (right.lower.toNat + j) % count left.bits)
          % count left.bits
        = (left.lower.toNat + right.lower.toNat + (i + j)) % count left.bits := by
    rw [← Nat.add_mod]
    congr 1
    omega
  constructor
  · rintro ⟨x, hx, y, hy, rfl⟩
    obtain ⟨i, hi, rfl⟩ := hleft.mem_iff_step.mp hx
    obtain ⟨j, hj, rfl⟩ := hright.mem_iff_step.mp hy
    refine ⟨i + j, by omega, ?_⟩
    rw [width, regroup]
  · rintro ⟨step, inside, rfl⟩
    -- The left operand takes as much of the distance as it can.
    refine ⟨_, hleft.mem_iff_step.mpr ⟨min step (left.span - 1), by omega, rfl⟩,
      _, hright.mem_iff_step.mpr ⟨step - min step (left.span - 1), by omega, rfl⟩, ?_⟩
    rw [width, regroup]
    congr 2
    omega

/-- The interval between the sums of the bounds. -/
def boundSum (left right : Range) : Range :=
  ⟨left.bits, (left.lower + right.lower) &&& Word.ones left.bits,
    (left.upper + right.upper - 1) &&& Word.ones left.bits⟩

theorem toNat_lower_boundSum (valid : Valid left.bits) (right : Range)
    : (boundSum left right).lower.toNat
      = (left.lower.toNat + right.lower.toNat) % count left.bits :=
  valid.toNat_add_and_ones _ _

theorem toNat_upper_boundSum (hleft : left.IsArc) (hright : right.IsArc)
    (width : right.bits = left.bits)
    : (boundSum left right).upper.toNat
      = (left.lower.toNat + right.lower.toNat + (left.span + right.span - 1))
        % count left.bits := by
  have valid := hleft.wellFormed.valid
  have positive := Word.count_pos left.bits
  have leftPos := hleft.span_pos
  have rightPos := hright.span_pos
  have one : (1 : UInt64).toNat = 1 := rfl
  have rightUpper := hright.upper_eq
  rw [width] at rightUpper
  calc ((left.upper + right.upper - 1) &&& Word.ones left.bits).toNat
      = ((left.upper.toNat + right.upper.toNat) % 2 ^ 64 + (count left.bits - 1))
        % count left.bits := by
        rw [valid.toNat_sub_and_ones (by rw [one]; exact positive), one, UInt64.toNat_add]
    _ = (left.upper.toNat + right.upper.toNat + (count left.bits - 1)) % count left.bits := by
        rw [← Nat.mod_add_mod, valid.mod_size_mod, Nat.mod_add_mod]
    _ = (left.lower.toNat + left.span + (right.lower.toNat + right.span)
        + (count left.bits - 1)) % count left.bits := by
        rw [hleft.upper_eq, rightUpper, ← Nat.mod_add_mod, ← Nat.add_mod, Nat.mod_add_mod]
    _ = (left.lower.toNat + right.lower.toNat + (left.span + right.span - 1)
        + count left.bits) % count left.bits := by
        congr 1
        omega
    _ = _ := Nat.add_mod_right _ _

/-- The joint length, reduced by one full turn when that is needed. -/
theorem span_boundSum (hleft : left.IsArc) (hright : right.IsArc)
    (width : right.bits = left.bits)
    : (boundSum left right).span = (left.span + right.span - 1) % count left.bits := by
  unfold span
  rw [toNat_upper_boundSum hleft hright width,
    toNat_lower_boundSum hleft.wellFormed.valid right]
  exact distance_add_mod _ _ _ (Word.count_pos _)

theorem boundSum_isArc (hleft : left.IsArc) (hright : right.IsArc)
    (width : right.bits = left.bits)
    (differ : (boundSum left right).lower ≠ (boundSum left right).upper)
    : (boundSum left right).IsArc := by
  have positive := Word.count_pos left.bits
  have lower := toNat_lower_boundSum hleft.wellFormed.valid right
  have upper := toNat_upper_boundSum hleft hright width
  exact isArc_of_ne hleft.wellFormed.valid (lower ▸ Nat.mod_lt _ positive)
    (upper ▸ Nat.mod_lt _ positive) fun same => differ (UInt64.toNat_inj.mp same)

/-- The joint length fills the circle exactly when the bounds meet or the interval between them came
out shorter than an operand. The bounds meet after exactly one turn, and after more than one the
interval is shorter than both operands.
-/
theorem boundSum_turns_iff (hleft : left.IsArc) (hright : right.IsArc)
    (width : right.bits = left.bits)
    : ((boundSum left right).lower = (boundSum left right).upper
        ∨ (boundSum left right).isSmallerThan left = .ok true
        ∨ (boundSum left right).isSmallerThan right = .ok true)
      ↔ count left.bits ≤ left.span + right.span - 1 := by
  have positive := Word.count_pos left.bits
  have leftPos := hleft.span_pos
  have rightPos := hright.span_pos
  have leftLt := span_lt left
  have rightLt := span_lt right
  rw [width] at rightLt
  have spanEq := span_boundSum hleft hright width
  have whole (short : left.span + right.span - 1 < count left.bits)
      : (boundSum left right).span = left.span + right.span - 1 := by
    rw [spanEq, Nat.mod_eq_of_lt short]
  by_cases meet : (boundSum left right).lower = (boundSum left right).upper
  · refine iff_of_true (Or.inl meet) ?_
    have closed : (boundSum left right).span = 0 := by
      have bound : (boundSum left right).lower.toNat < count left.bits := by
        rw [toNat_lower_boundSum hleft.wellFormed.valid right]
        exact Nat.mod_lt _ positive
      unfold span
      rw [← meet]
      exact (congrArg (· % _) (Nat.add_sub_cancel' (Nat.le_of_lt bound))).trans (Nat.mod_self _)
    by_contra short
    have := whole (Nat.lt_of_not_le short)
    omega
  · have arc := boundSum_isArc hleft hright width meet
    rw [isSmallerThan_eq arc.wellFormed hleft.wellFormed rfl,
      isSmallerThan_eq arc.wellFormed hright.wellFormed width.symm, arc.card_elements,
      hleft.card_elements, hright.card_elements]
    simp only [meet, false_or, Except.ok.injEq, decide_eq_true_eq]
    constructor
    · intro shorter
      by_contra short
      have := whole (Nat.lt_of_not_le short)
      omega
    · intro turn
      left
      rw [spanEq, Nat.mod_eq_sub_mod turn, Nat.mod_eq_of_lt (by omega)]
      omega

/-- The sum of two arcs is everything when their joint length fills the circle, and the interval
between the sums of the bounds otherwise.
-/
theorem IsArc.add_cases (hleft : left.IsArc) (hright : right.IsArc)
    (width : right.bits = left.bits)
    : (count left.bits ≤ left.span + right.span - 1 ∧ left.add right = .ok (top left.bits))
      ∨ (left.span + right.span - 1 < count left.bits
        ∧ left.add right = .ok (boundSum left right) ∧ (boundSum left right).IsArc) := by
  have valid := hleft.wellFormed.valid
  have turns := boundSum_turns_iff hleft hright width
  have leftSome : left.isEmpty = false := by simpa using fun h => hleft.some (isEmpty_iff.mp h)
  have rightSome : right.isEmpty = false := by
    simpa using fun h => hright.some (isEmpty_iff.mp h)
  have unfolded : left.add right
      = if (boundSum left right).lower = (boundSum left right).upper then full left.bits
        else (do
          if ← (boundSum left right).isSmallerThan left then
            full left.bits
          else if ← (boundSum left right).isSmallerThan right then
            full left.bits
          else
            pure (boundSum left right)) := by
    simp only [add, requireSameWidth, width, ↓reduceIte, pure_eq_ok, ok_bind, leftSome, rightSome,
      hleft.wellFormed.isFull_eq, hright.wellFormed.isFull_eq, hleft.notAll, hright.notAll,
      Bool.or_self, Bool.false_eq_true, decide_false, valid.mask_eq, boundSum]
    rfl
  rw [unfolded]
  by_cases meet : (boundSum left right).lower = (boundSum left right).upper
  · exact Or.inl ⟨turns.mp (Or.inl meet), by rw [if_pos meet, full_eq valid]⟩
  have arc := boundSum_isArc hleft hright width meet
  have leftTest := isSmallerThan_eq arc.wellFormed hleft.wellFormed rfl
  have rightTest := isSmallerThan_eq arc.wellFormed hright.wellFormed width.symm
  rw [if_neg meet]
  generalize decide ((boundSum left right).elements.card < left.elements.card) = shorterLeft
    at leftTest
  generalize decide ((boundSum left right).elements.card < right.elements.card) = shorterRight
    at rightTest
  rw [leftTest, rightTest] at turns ⊢
  cases shorterLeft with
  | true => exact Or.inl ⟨turns.mp (by simp), by simp [full_eq valid]⟩
  | false =>
      cases shorterRight with
      | true => exact Or.inl ⟨turns.mp (by simp), by simp [full_eq valid]⟩
      | false => exact Or.inr ⟨by simpa [meet] using turns, rfl, arc⟩

/-- An empty operand leaves no pair of elements. -/
theorem no_pair_of_isNone {x y : Nat} (wfLeft : left.WellFormed) (wfRight : right.WellFormed)
    (none : left.IsNone ∨ right.IsNone) (hx : x ∈ left) (hy : y ∈ right)
    : False := by
  rcases none with leftNone | rightNone
  · exact wfLeft.not_mem_of_isNone leftNone x hx
  · exact wfRight.not_mem_of_isNone rightNone y hy

/-- The wrapping sum denotes the sums of elements modulo the number of words. -/
theorem add_spec (wfLeft : left.WellFormed) (wfRight : right.WellFormed)
    (width : right.bits = left.bits)
    : ∃ sum, left.add right = .ok sum
        ∧ sum.OfWidth left.bits
        ∧ ∀ word, word ∈ sum ↔ ∃ x ∈ left, ∃ y ∈ right, word = (x + y) % count left.bits := by
  have valid := wfLeft.valid
  have positive := Word.count_pos left.bits
  have same : left.requireSameWidth right = .ok () := by simp [requireSameWidth, width]
  by_cases none : left.IsNone ∨ right.IsNone
  · have someEmpty : (left.isEmpty || right.isEmpty) = true := by
      simpa [isEmpty_iff] using none
    refine ⟨bottom left.bits, ?_, ofWidth_bottom valid, fun word => ?_⟩
    · rw [add, same, ok_bind, if_pos someEmpty, empty_eq valid]
    · have nothing := (ofWidth_bottom valid).wellFormed.not_mem_of_isNone (isNone_bottom _) word
      refine iff_of_false nothing fun summed => ?_
      obtain ⟨x, hx, y, hy, _⟩ := summed
      exact no_pair_of_isNone wfLeft wfRight none hx hy
  obtain ⟨leftNone, rightNone⟩ := not_or.mp none
  have leftSome : left.isEmpty = false := by simpa using fun h => leftNone (isEmpty_iff.mp h)
  have rightSome : right.isEmpty = false := by simpa using fun h => rightNone (isEmpty_iff.mp h)
  -- Once every word is a sum, the full set is the right answer.
  have everything (all : ∀ word, word < count left.bits
        → ∃ x ∈ left, ∃ y ∈ right, word = (x + y) % count left.bits) (word : Nat)
      : word ∈ top left.bits ↔ ∃ x ∈ left, ∃ y ∈ right, word = (x + y) % count left.bits := by
    constructor
    · intro member
      have bound : word < count (top left.bits).bits := lt_of_mem member
      exact all word bound
    · rintro ⟨x, _, y, _, rfl⟩
      exact mem_of_isAll (isAll_top valid) (Nat.mod_lt _ positive)
  by_cases leftAll : left.IsAll
  · refine ⟨top left.bits, ?_, ofWidth_top valid, everything fun word bound => ?_⟩
    · simp [add, same, leftSome, rightSome, wfLeft.isFull_eq, leftAll, full_eq valid]
    · have lower := wfRight.lower_lt
      rw [width] at lower
      refine ⟨_, mem_of_isAll leftAll (Nat.mod_lt (word + count left.bits - right.lower.toNat)
        positive), _, wfRight.lower_mem rightNone, ?_⟩
      rw [Nat.add_comm]
      exact (add_distance_mod lower bound).symm
  by_cases rightAll : right.IsAll
  · refine ⟨top left.bits, ?_, ofWidth_top valid, everything fun word bound => ?_⟩
    · simp [add, same, leftSome, rightSome, wfLeft.isFull_eq, leftAll, wfRight.isFull_eq, rightAll,
        full_eq valid]
    · refine ⟨_, wfLeft.lower_mem leftNone,
        (word + count left.bits - left.lower.toNat) % count left.bits,
        mem_of_isAll rightAll (by rw [width]; exact Nat.mod_lt _ positive), ?_⟩
      exact (add_distance_mod wfLeft.lower_lt bound).symm
  have hleft : left.IsArc := ⟨wfLeft, leftNone, leftAll⟩
  have hright : right.IsArc := ⟨wfRight, rightNone, rightAll⟩
  rcases hleft.add_cases hright width with ⟨turn, result⟩ | ⟨short, result, arc⟩
  · refine ⟨top left.bits, result, ofWidth_top valid, everything fun word bound => ?_⟩
    rw [hleft.exists_add_iff hright width]
    have start := Nat.mod_lt (left.lower.toNat + right.lower.toNat) positive
    refine ⟨(word + count left.bits - (left.lower.toNat + right.lower.toNat) % count left.bits)
      % count left.bits, Nat.lt_of_lt_of_le (Nat.mod_lt _ positive) turn, ?_⟩
    rw [← Nat.mod_add_mod]
    exact (add_distance_mod start bound).symm
  · refine ⟨boundSum left right, result, ⟨arc.wellFormed, rfl⟩, fun word => ?_⟩
    rw [hleft.exists_add_iff hright width, arc.mem_iff_step, span_boundSum hleft hright width,
      toNat_lower_boundSum valid right, Nat.mod_eq_of_lt short]
    simp only [Nat.mod_add_mod, boundSum]

/-- The wrapping sum is exact: it denotes the sums of elements modulo the number of words. The
tests for a sum of two arcs that goes around find out exactly when every word is a sum.
-/
theorem add_denotes_sums {bits : UInt32} (properLeft : left.OfWidth bits)
    (properRight : right.OfWidth bits)
    : (∃ sum, left.add right = .ok sum ∧ sum.OfWidth bits
        ∧ ∀ word, word ∈ sum ↔ ∃ x ∈ left, ∃ y ∈ right, word = (x + y) % count bits)
      ∧ (left.IsArc → right.IsArc
        → ((boundSum left right).lower = (boundSum left right).upper
            ∨ (boundSum left right).isSmallerThan left = .ok true
            ∨ (boundSum left right).isSmallerThan right = .ok true
          ↔ ∀ word, word < count bits → ∃ x ∈ left, ∃ y ∈ right, word = (x + y) % count bits)) := by
  have width := properRight.bits_eq.trans properLeft.bits_eq.symm
  rw [← properLeft.bits_eq]
  obtain ⟨sum, result, proper, elements⟩ :=
    add_spec properLeft.wellFormed properRight.wellFormed width
  refine ⟨⟨sum, result, proper, elements⟩, fun hleft hright => ?_⟩
  rw [boundSum_turns_iff hleft hright width]
  rcases hleft.add_cases hright width with ⟨turn, found⟩ | ⟨short, found, arc⟩
  · cases result.symm.trans found
    refine iff_of_true turn fun word bound => ?_
    exact (elements word).mp (mem_of_isAll (isAll_top hleft.wellFormed.valid) bound)
  · cases result.symm.trans found
    refine iff_of_false (Nat.not_le_of_lt short) fun everything => ?_
    -- The interval between the bounds leaves out the word after it.
    exact arc.wellFormed.upper_not_mem arc.notAll
      ((elements _).mpr (everything _ arc.wellFormed.upper_lt))

/-- Witness: byte ranges of 128 elements have a sum that leaves out one word, and one more element
makes it everything.
-/
theorem add_denotes_sums_bytes
    : (Range.mk 8 0 128).add ⟨8, 0, 128⟩ = .ok ⟨8, 0, 255⟩
      ∧ (Range.mk 8 0 129).add ⟨8, 0, 128⟩ = .ok ⟨8, 255, 255⟩
      ∧ (∀ word, word ∈ Range.mk 8 0 255
        ↔ ∃ x ∈ Range.mk 8 0 128, ∃ y ∈ Range.mk 8 0 128, word = (x + y) % count 8)
      ∧ ∀ word, word < count 8
        → ∃ x ∈ Range.mk 8 0 129, ∃ y ∈ Range.mk 8 0 128, word = (x + y) % count 8 := by
  have proper : (Range.mk 8 0 128).OfWidth 8 := by decide
  have properLong : (Range.mk 8 0 129).OfWidth 8 := by decide
  obtain ⟨⟨sum, isSum, _, elements⟩, _⟩ := add_denotes_sums proper proper
  obtain ⟨_, turns⟩ := add_denotes_sums properLong proper
  have result : (Range.mk 8 0 128).add ⟨8, 0, 128⟩ = .ok ⟨8, 0, 255⟩ := by decide
  cases result.symm.trans isSum
  exact ⟨result, by decide, elements, (turns ⟨properLong.wellFormed, by decide, by decide⟩
    ⟨proper.wellFormed, by decide, by decide⟩).mp (by decide)⟩

end Wrapping

end StackBounds.Range
