import StackBounds.Proofs.Values

/-! Conversions of ranges against the operations on bit vectors. Ranges at another width cover the
converted vectors, and an extension adds none to a range that lies in one piece; multiples cover the
products of all elements.
-/

namespace StackBounds.Range

open Word (Valid Fits count residue)

/-- What the range of converted bit vectors is: it covers them, an empty range stays empty, nothing
changes at the same width, and an extension adds nothing to a range in one piece.
-/
structure Converts (range : Range) (bits : UInt32)
    (convert : BitVec range.bits.toNat → BitVec bits.toNat) (onePiece : Prop) (resized : Range)
    : Prop where
  ofWidth : resized.OfWidth bits
  covers : ∀ vector, range.Describes vector → resized.Describes (convert vector)
  empty : range.isEmpty = true → resized.isEmpty = true
  same : range.bits = bits → resized = range
  exact : range.bits.toNat ≤ bits.toNat → onePiece
    → ∀ vector : BitVec bits.toNat, resized.Describes vector
      → ∃ source, range.Describes source ∧ convert source = vector

variable {range resized : Range} {bits : UInt32}

-----------------------------------------------------------------------------------------
-- Empty ranges and equal widths
-----------------------------------------------------------------------------------------

theorem resizeSigned_self (range : Range) : range.resizeSigned range.bits = .ok range := by
  simp [resizeSigned]

theorem resizeUnsigned_self (range : Range) : range.resizeUnsigned range.bits = .ok range := by
  simp [resizeUnsigned]

/-- The empty set stays empty when extensions and truncations say so, since it is already empty
where the widths are the same.
-/
theorem resize_eq_bottom (empty : range.isEmpty = true) {extended truncated : Except Fault Range}
    (extension : extended = .ok (bottom bits)) (truncation : truncated = .ok (bottom bits))
    : (if range.bits < bits then extended else if bits < range.bits then truncated else pure range)
      = .ok (bottom bits) := by
  split
  · exact extension
  · rename_i notWider
    split
    · exact truncation
    · rename_i notNarrower
      have same := UInt32.le_antisymm (UInt32.not_lt.mp notNarrower) (UInt32.not_lt.mp notWider)
      exact congrArg Except.ok (eq_bottom same (isEmpty_iff.mp empty))

theorem resizeSigned_of_isEmpty (valid : Valid bits) (empty : range.isEmpty = true)
    : range.resizeSigned bits = .ok (bottom bits) :=
  resize_eq_bottom empty (by simp [signExtend, empty, empty_eq valid])
    (by simp [truncate, empty, empty_eq valid])

theorem resizeUnsigned_of_isEmpty (valid : Valid bits) (empty : range.isEmpty = true)
    : range.resizeUnsigned bits = .ok (bottom bits) :=
  resize_eq_bottom empty (by simp [zeroExtend, empty, empty_eq valid])
    (by simp [truncate, empty, empty_eq valid])

-----------------------------------------------------------------------------------------
-- Extensions
-----------------------------------------------------------------------------------------

/-- The widths are the same, or the second is strictly wider. -/
theorem bits_eq_or_lt (wider : range.bits.toNat ≤ bits.toNat)
    : range.bits = bits ∨ range.bits < bits := by
  rcases Nat.eq_or_lt_of_le wider with same | wider
  · exact Or.inl (UInt32.toNat_inj.mp same)
  · exact Or.inr (UInt32.lt_iff_toNat_lt.mpr wider)

/-- Sign extension adds no number to a range that does not cross the end of the signed numbers. -/
theorem WellFormed.holds_of_resizeSigned (wf : range.WellFormed) (valid : Valid bits)
    (wider : range.bits.toNat ≤ bits.toNat) (uncrossed : ¬ range.Crosses)
    (result : range.resizeSigned bits = .ok resized) {value : Int} (held : resized.Holds value)
    : range.Holds value := by
  rcases bits_eq_or_lt wider with rfl | wider
  · cases (resizeSigned_self range).symm.trans result
    exact held
  · obtain ⟨_, extended, _, _, adds⟩ :=
      signExtend_spec wf valid (UInt32.lt_iff_toNat_lt.mp wider)
    rw [resizeSigned, if_pos wider, extended] at result
    cases result
    exact adds uncrossed value held

/-- Zero extension adds no word to a range that does not wrap, or only up to the last word. -/
theorem WellFormed.mem_of_resizeUnsigned (wf : range.WellFormed) (valid : Valid bits)
    (wider : range.bits.toNat ≤ bits.toNat)
    (together : range.lower.toNat ≤ range.upper.toNat ∨ range.upper.toNat = 0)
    (result : range.resizeUnsigned bits = .ok resized) {word : Nat} (member : word ∈ resized)
    : word ∈ range := by
  rcases bits_eq_or_lt wider with rfl | wider
  · cases (resizeUnsigned_self range).symm.trans result
    exact member
  · obtain ⟨_, extended, _, _, adds⟩ :=
      zeroExtend_spec wf valid (UInt32.lt_iff_toNat_lt.mp wider)
    rw [resizeUnsigned, if_pos wider, extended] at result
    cases result
    exact adds together word member

/-- A number that the range holds is described as a bit vector, and read back from it. -/
theorem WellFormed.exists_describes (wf : range.WellFormed) {value : Int}
    (held : range.Holds value)
    : ∃ vector : BitVec range.bits.toNat, range.Describes vector ∧ vector.toInt = value := by
  refine ⟨BitVec.ofInt range.bits.toNat value, OfWidth.describes_ofInt ⟨wf, rfl⟩ held.2, ?_⟩
  have word : (BitVec.ofInt range.bits.toNat value).toNat = residue range.bits value :=
    BitVec.toNat_ofInt ..
  rw [← signed_toNat, word, wf.valid.signed_residue held.1]

theorem resizeSigned_converts (wf : range.WellFormed) (valid : Valid bits)
    : ∃ resized, range.resizeSigned bits = .ok resized
        ∧ range.Converts bits (·.signExtend bits.toNat) (range.crossesSign = .ok false)
          resized := by
  obtain ⟨resized, result, _, _⟩ := resizeSigned_spec wf valid
  obtain ⟨proper, covers⟩ := resizeSigned_describes wf valid result
  refine ⟨resized, result, proper, fun _ => covers, fun empty => ?_, ?_,
    fun wider uncrossed vector can => ?_⟩
  · cases (resizeSigned_of_isEmpty valid empty).symm.trans result
    rfl
  · rintro rfl
    exact Except.ok.inj (result.symm.trans (resizeSigned_self range))
  · have plain : ¬ range.Crosses := by simpa [wf.crossesSign_eq] using uncrossed
    have held := wf.holds_of_resizeSigned valid wider plain result (can.holds proper.wellFormed)
    obtain ⟨source, described, reading⟩ := wf.exists_describes held
    exact ⟨source, described, by rw [BitVec.signExtend, reading, BitVec.ofInt_toInt]⟩

theorem resizeUnsigned_converts (wf : range.WellFormed) (valid : Valid bits)
    : ∃ resized, range.resizeUnsigned bits = .ok resized
        ∧ range.Converts bits (·.setWidth bits.toNat)
          (range.isWrapped = false ∨ range.upper = 0) resized := by
  obtain ⟨resized, result, _, _⟩ := resizeUnsigned_spec wf valid
  obtain ⟨proper, covers⟩ := resizeUnsigned_describes wf valid result
  refine ⟨resized, result, proper, fun _ => covers, fun empty => ?_, ?_,
    fun wider onePiece vector can => ?_⟩
  · cases (resizeUnsigned_of_isEmpty valid empty).symm.trans result
    rfl
  · rintro rfl
    exact Except.ok.inj (result.symm.trans (resizeUnsigned_self range))
  · have together : range.lower.toNat ≤ range.upper.toNat ∨ range.upper.toNat = 0 := by
      refine onePiece.imp (fun plain => ?_) (congrArg UInt64.toNat)
      rw [← Bool.not_eq_true, isWrapped_iff] at plain
      exact Nat.not_lt.mp plain
    have member := wf.mem_of_resizeUnsigned valid wider together result can.2
    have bound := lt_of_mem member
    have narrowed : (vector.setWidth range.bits.toNat).toNat = vector.toNat := by
      rw [BitVec.toNat_setWidth]
      exact Nat.mod_eq_of_lt bound
    refine ⟨vector.setWidth range.bits.toNat, ⟨rfl, narrowed.symm ▸ member⟩, ?_⟩
    apply BitVec.eq_of_toNat_eq
    rw [BitVec.toNat_setWidth, narrowed]
    exact Nat.mod_eq_of_lt vector.isLt

/-- Conversions and multiples cover the concrete operations, for all widths from 1 to 64. Ranges at
another width follow sign extension, zero extension and truncation; every multiple is the full set
or holds the product of the factor with each element.
-/
theorem conversions_cover (wf : range.WellFormed) (valid : Valid bits)
    : (∃ resized, range.resizeSigned bits = .ok resized
        ∧ range.Converts bits (·.signExtend bits.toNat) (range.crossesSign = .ok false) resized)
      ∧ (∃ resized, range.resizeUnsigned bits = .ok resized
        ∧ range.Converts bits (·.setWidth bits.toNat)
          (range.isWrapped = false ∨ range.upper = 0) resized)
      ∧ ∀ factor, ∃ scaled, range.scale factor = .ok scaled
        ∧ scaled.OfWidth range.bits
        ∧ (scaled.IsAll ∨ ∀ value, range.Holds value → scaled.Holds (factor * value)) := by
  refine ⟨resizeSigned_converts wf valid, resizeUnsigned_converts wf valid, fun factor => ?_⟩
  obtain ⟨scaled, result, proper, allows⟩ := scale_spec wf factor
  refine ⟨scaled, result, proper, or_iff_not_imp_left.mpr fun notAll value held => ?_⟩
  rw [Int.mul_comm]
  exact (allows value held).resolve_left notAll

/-- Witness: the bytes from -3 to -1 are words up to the last one, so both extensions to 64 bits
have exactly three elements, and minus three times them are the numbers from 3 to 9.
-/
theorem conversions_cover_bytes
    : (∃ resized, (mk 8 253 0).resizeSigned 64 = .ok resized
        ∧ resized.Describes ((253 : BitVec 8).signExtend 64)
        ∧ ¬ resized.Describes (252 : BitVec 64))
      ∧ (∃ resized, (mk 8 253 0).resizeUnsigned 64 = .ok resized
        ∧ resized.Describes ((253 : BitVec 8).setWidth 64)
        ∧ ¬ resized.Describes (252 : BitVec 64))
      ∧ ∃ scaled, (mk 8 253 0).scale (-3) = .ok scaled ∧ scaled.Holds 9 := by
  have wf : (mk 8 253 0).WellFormed := by decide
  obtain ⟨⟨signed, signedResult, signedConverts⟩, ⟨plain, plainResult, plainConverts⟩, multiples⟩ :=
    conversions_cover wf (show Valid 64 by decide)
  refine ⟨⟨signed, signedResult, signedConverts.covers 253 ⟨rfl, by decide⟩, fun can => ?_⟩,
    ⟨plain, plainResult, plainConverts.covers 253 ⟨rfl, by decide⟩, fun can => ?_⟩, ?_⟩
  · obtain ⟨source, ⟨_, member⟩, same⟩ := signedConverts.exact (by decide) rfl 252 can
    revert source
    decide
  · obtain ⟨source, ⟨_, member⟩, same⟩ := plainConverts.exact (by decide) (Or.inr rfl) 252 can
    revert source
    decide
  · obtain ⟨scaled, result, proper, covers⟩ := multiples (-3)
    have computed : (mk 8 253 0).scale (-3) = .ok ⟨8, 3, 10⟩ := by decide
    cases result.symm.trans computed
    exact ⟨_, computed, show Holds _ (-3 * -3) from covers.resolve_left (by decide) _ (by decide)⟩

end StackBounds.Range
