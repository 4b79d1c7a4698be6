import StackBounds.Proofs.Local.Totality

/-! Lengths of memory operations. The range of such an operation holds the bytes of exactly those
possible lengths that are below half the address space: a longer one is negative when it is read as
signed, and then the largest of the others decides.
-/

namespace StackBounds

open Word (Valid Fits count half)

namespace LocalAnalysis

variable {analysis : LocalAnalysis} {lifetime : Lifetime} {addr base length : ValueId}
  {positions offsets range : Range}

/-- A known range of an access holds the sums of the offsets and the positions, and nothing else. -/
theorem accessRange_holds_iff (reads : analysis.Reads lifetime)
    (proper : positions.OfWidth analysis.pointer.bits)
    (result : analysis.accessRange addr base positions = .ok range) (known : ¬ range.IsAll)
    (moved : analysis.offset addr base = .ok offsets) (value : Int)
    : range.Holds value
      ↔ ∃ offset index, offsets.Holds offset ∧ positions.Holds index
        ∧ value = offset + index := by
  have closed := Possible.closed_empty analysis.func analysis.pointer
  obtain ⟨properRange, all | ⟨none, rangeNone⟩ | ⟨_, found, _, meets⟩⟩ :=
    accessRange_cases reads.proper proper result
  · exact absurd all known
  · refine iff_of_false ?_ ?_
    · intro held
      exact properRange.wellFormed.not_mem_of_isNone rangeNone _ held.2
    · rintro ⟨_, index, _, held, _⟩
      exact proper.wellFormed.not_mem_of_isNone none _ held.2
  · cases moved.symm.trans found
    refine meets.exact ?_ value
    intro x y heldX heldY
    by_contra outside
    exact known (meets.overflow x y heldX heldY outside)

/-- A known range of a memory operation holds the bytes of one length. It is below half the address
space, and no possible length below that is longer.
-/
theorem exists_longest {number : Range} (reads : analysis.Reads lifetime)
    (evaluated : analysis.addresses.signedRange length = .ok number)
    (moved : analysis.offset addr base = .ok offsets)
    (result : analysis.bulkRange addr base length = .ok range) (known : ¬ range.IsAll)
    : ∃ longest : Nat, longest < half analysis.pointer.bits
      ∧ (∀ word ∈ number, word % count analysis.pointer.bits < half analysis.pointer.bits
        → word % count analysis.pointer.bits ≤ longest)
      ∧ ∀ value, range.Holds value
        ↔ ∃ offset, ∃ index < longest, offsets.Holds offset ∧ value = offset + (index : Int) := by
  have valid := analysis.pointer.valid_bits
  have closed := Possible.closed_empty analysis.func analysis.pointer
  rcases bulkRange_cases reads.proper result with
    ⟨_, all⟩ | ⟨_, sizes, positions, found, resizing, notAll, forward, above, properPositions,
      elements, accessed⟩
  · exact absurd all known
  cases evaluated.symm.trans found
  have bounds := Function.rangeOf_bounds closed _ (reads.addresses ▸ evaluated)
  obtain ⟨_, resized, proper, keeps⟩ := Range.resizeUnsigned_spec bounds.wellFormed valid
  cases resizing.symm.trans resized
  have fits := proper.wellFormed.fits_high
  rw [proper.bits_eq] at fits
  unfold Fits at fits
  refine ⟨(sizes.high - 1).toNat, by omega, fun word member short => ?_, fun value => ?_⟩
  · have held := (proper.wellFormed.mem_iff_holds.mp (keeps word member)).2
    rw [proper.wellFormed.holds_iff_of_not_isAll notAll, proper.bits_eq] at held
    have double := valid.count_eq
    have reading := valid.signed_cases (Nat.lt_of_lt_of_le short (by omega))
    omega
  · rw [accessRange_holds_iff reads properPositions accessed known moved]
    constructor
    · rintro ⟨offset, index, heldOffset, held, rfl⟩
      have inside := (elements index).mp held
      exact ⟨offset, index.toNat, by omega, heldOffset, by omega⟩
    · rintro ⟨offset, index, below, held, rfl⟩
      exact ⟨offset, index, held, (elements index).mpr (by omega), rfl⟩

/-- A known range of a memory operation holds the bytes of a possible length, behind every possible
offset, exactly when the length is below half the address space.
-/
theorem bulkRange_covers_iff_short {func : Function} {pointer : PointerWidth} {number : Range}
    (made : ofFunction func pointer = .ok analysis)
    (evaluated : func.signedRange pointer length = .ok number)
    (moved : analysis.offset addr base = .ok offsets)
    (result : analysis.bulkRange addr base length = .ok range) (known : ¬ range.IsAll)
    {word : Nat} (can : word ∈ number)
    : (∀ offset, offsets.Holds offset
        → ∀ index : Nat, index < word % count pointer.bits → range.Holds (offset + index))
      ↔ word % count pointer.bits < half pointer.bits := by
  obtain ⟨rfl, rfl, _, reads⟩ := reads_of_ofFunction made
  have closed := Possible.closed_empty analysis.func analysis.pointer
  obtain ⟨longest, below, longer, elements⟩ :=
    exists_longest reads (by rw [reads.addresses]; exact evaluated) moved result known
  constructor
  · intro covered
    by_contra long
    -- Behind the last offset, the byte after the longest of the other lengths is not held.
    obtain ⟨proper, some, _⟩ := offset_covers reads closed moved
    obtain ⟨last, _, held, greatest⟩ := proper.wellFormed.signedMax_spec some
    obtain ⟨offset, index, inside, heldOffset, same⟩ :=
      (elements _).mp (covered last held longest (by omega))
    have order := greatest offset heldOffset
    omega
  · intro short offset held index inside
    have bound := longer word can short
    exact (elements _).mpr ⟨offset, index, by omega, held, rfl⟩

/-- The analysis of an allocation that is wiped with a length of minus one or four. -/
theorem exists_wipe_analysis
    : ∃ analysis, ofFunction (wipe 4) .w64 = .ok analysis
      ∧ (wipe 4).signedRange .w64 ⟨5⟩ = .ok ⟨64, -1, 5⟩
      ∧ analysis.offset ⟨1⟩ ⟨1⟩ = .ok ⟨64, 0, 1⟩
      ∧ analysis.bulkRange ⟨1⟩ ⟨1⟩ ⟨5⟩ = .ok ⟨64, 0, 4⟩ := by
  have straight : (wipe 4).IsStraight ⟨⟨0⟩, [⟨0⟩, ⟨1⟩, ⟨2⟩, ⟨3⟩]⟩ := ⟨rfl, rfl, rfl⟩
  let lifetime := Lifetime.straight (wipe 4) ⟨0⟩
  let analysis : LocalAnalysis := ⟨wipe 4, .w64,
    ⟨lifetime.isReachable, lifetime.isAliveAfter⟩,
    ⟨(wipe 4).offsetFrom .w64, (wipe 4).signedRange .w64⟩⟩
  have made : ofFunction (wipe 4) .w64 = .ok analysis := by
    rw [ofFunction, straight.lifetime, ok_bind, pure_eq_ok]
  exact ⟨analysis, made, by decide +kernel, by decide +kernel, by decide +kernel⟩

/-- The length minus one is the largest one, but the range has four bytes only. -/
theorem exists_uncovered_wipe
    : ∃ analysis number offsets range, ofFunction (wipe 4) .w64 = .ok analysis
      ∧ (wipe 4).signedRange .w64 ⟨5⟩ = .ok number
      ∧ analysis.offset ⟨1⟩ ⟨1⟩ = .ok offsets
      ∧ analysis.bulkRange ⟨1⟩ ⟨1⟩ ⟨5⟩ = .ok range
      ∧ ¬ range.IsAll
      ∧ 2 ^ 64 - 1 ∈ number
      ∧ offsets.Holds 0
      ∧ 4 < (2 ^ 64 - 1) % count 64
      ∧ ¬ range.Holds (0 + 4) := by
  obtain ⟨analysis, made, evaluated, moved, result⟩ := exists_wipe_analysis
  exact ⟨analysis, _, _, _, made, evaluated, moved, result, by decide, by decide, by decide,
    by decide, by decide⟩

/-- Witness: the four bytes of the other length are covered. -/
theorem bulkRange_covers_iff_short_wipe
    : ∃ analysis number offsets range, ofFunction (wipe 4) .w64 = .ok analysis
      ∧ (wipe 4).signedRange .w64 ⟨5⟩ = .ok number
      ∧ analysis.offset ⟨1⟩ ⟨1⟩ = .ok offsets
      ∧ analysis.bulkRange ⟨1⟩ ⟨1⟩ ⟨5⟩ = .ok range
      ∧ ¬ range.IsAll
      ∧ 4 ∈ number
      ∧ ∀ offset, offsets.Holds offset
        → ∀ index : Nat, index < 4 % count 64 → range.Holds (offset + index) := by
  obtain ⟨analysis, made, evaluated, moved, result⟩ := exists_wipe_analysis
  have known : ¬ (Range.mk 64 0 4).IsAll := by decide
  have can : 4 ∈ Range.mk 64 (-1) 5 := by decide
  exact ⟨analysis, _, _, _, made, evaluated, moved, result, known, can,
    (bulkRange_covers_iff_short made evaluated moved result known can).mpr (by decide)⟩

end LocalAnalysis

end StackBounds
