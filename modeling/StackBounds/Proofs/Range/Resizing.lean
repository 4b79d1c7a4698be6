import StackBounds.Proofs.Range.Builders
import StackBounds.Proofs.Range.Inclusion
import StackBounds.Range.Resize
import StackBounds.Range.Sum

/-! Ranges at another width and multiples of ranges: what they hold contains what becomes of every
element. The second half says so for bit vectors.
-/

namespace StackBounds.Word

variable {narrow wide : UInt32}

theorem half_le_half (h : narrow.toNat ≤ wide.toNat) : half narrow ≤ half wide :=
  Nat.pow_le_pow_right (by decide) (by omega)

/-- A number that fits a width fits every wider one. -/
theorem Fits.widen {value : Int} (fits : Fits narrow value) (h : narrow.toNat ≤ wide.toNat)
    : Fits wide value := by
  have := half_le_half h
  unfold Fits at *
  omega

/-- The low bits of a wide residue are the narrow one. -/
theorem residue_mod (h : narrow.toNat ≤ wide.toNat) (value : Int)
    : residue wide value % count narrow = residue narrow value := by
  apply Int.natCast_inj.mp
  rw [Int.natCast_mod, natCast_residue, natCast_residue]
  exact Int.emod_emod_of_dvd value (Int.natCast_dvd_natCast.mpr (Nat.pow_dvd_pow 2 h))

end StackBounds.Word

namespace StackBounds.Range

open Word (Valid Fits count half signed residue)

variable {range : Range} {bits : UInt32}

-----------------------------------------------------------------------------------------
-- Other widths
-----------------------------------------------------------------------------------------

/-- The numbers between two elements are elements too, unless the range crosses the end of the
signed numbers.
-/
theorem WellFormed.holds_between {first value last : Int} (wf : range.WellFormed)
    (uncrossed : ¬ range.Crosses) (heldFirst : range.Holds first) (heldLast : range.Holds last)
    (above : first ≤ value) (below : value ≤ last)
    : range.Holds value := by
  by_cases all : range.IsAll
  · exact holds_of_isAll all
      ⟨Int.le_trans heldFirst.1.1 above, Int.lt_of_le_of_lt below heldLast.1.2⟩
  · exact (wf.oneSided_iff.mpr ⟨all, uncrossed⟩).holds_between wf heldFirst heldLast above below

/-- Sign extension keeps every number, and adds none unless it fills the gap of a range that crosses
the end of the signed numbers.
-/
theorem signExtend_spec (wf : range.WellFormed) (valid : Valid bits)
    (wider : range.bits.toNat < bits.toNat)
    : ∃ resized, range.signExtend bits = .ok resized
        ∧ resized.OfWidth bits
        ∧ (∀ value, range.Holds value → resized.Holds value)
        ∧ (¬ range.Crosses → ∀ value, resized.Holds value → range.Holds value) := by
  by_cases none : range.IsNone
  · refine ⟨bottom bits, ?_, ofWidth_bottom valid, fun value held => ?_, fun _ value held => ?_⟩
    · rw [signExtend, if_pos (isEmpty_iff.mpr none), empty_eq valid]
    · exact absurd held.2 (wf.not_mem_of_isNone none _)
    · exact absurd held.2
        ((ofWidth_bottom valid).wellFormed.not_mem_of_isNone (isNone_bottom bits) _)
  · obtain ⟨least, hleast, leastHeld, lower⟩ := wf.signedMin_spec none
    obtain ⟨greatest, hgreatest, greatestHeld, upper⟩ := wf.signedMax_spec none
    have widen {value : Int} (fits : Fits range.bits value) : Fits bits value :=
      fits.widen (Nat.le_of_lt wider)
    obtain ⟨resized, built, proper, elements⟩ := ofSignedClosed_spec valid (widen leastHeld.1)
      (widen greatestHeld.1) (lower _ greatestHeld)
    refine ⟨resized, ?_, proper, fun value held => ?_, fun uncrossed value held => ?_⟩
    · rw [signExtend, if_neg fun h => none (isEmpty_iff.mp h), hleast, hgreatest]
      exact built
    · exact (elements value).mpr ⟨lower value held, upper value held⟩
    · obtain ⟨above, below⟩ := (elements value).mp held
      exact wf.holds_between uncrossed leastHeld greatestHeld above below

/-- Zero extension keeps every word, and adds none unless it fills the gap of a range with words at
both ends.
-/
theorem zeroExtend_spec (wf : range.WellFormed) (valid : Valid bits)
    (wider : range.bits.toNat < bits.toNat)
    : ∃ resized, range.zeroExtend bits = .ok resized
        ∧ resized.OfWidth bits
        ∧ (∀ word, word ∈ range → word ∈ resized)
        ∧ (range.lower.toNat ≤ range.upper.toNat ∨ range.upper.toNat = 0
          → ∀ word, word ∈ resized → word ∈ range) := by
  have lower := wf.lower_lt
  have upper := wf.upper_lt
  have narrow := valid.count_le_half wider
  have double := valid.count_eq
  have positive := Word.half_pos bits
  by_cases none : range.IsNone
  · refine ⟨bottom bits, ?_, ofWidth_bottom valid, fun word member => ?_, fun _ word member => ?_⟩
    · rw [zeroExtend, if_pos (isEmpty_iff.mpr none), empty_eq valid]
    · exact absurd member (wf.not_mem_of_isNone none word)
    · exact absurd member
        ((ofWidth_bottom valid).wellFormed.not_mem_of_isNone (isNone_bottom bits) word)
  have some : ¬ range.isEmpty = true := fun h => none (isEmpty_iff.mp h)
  by_cases around : range.IsAll ∨ range.upper.toNat < range.lower.toNat
  · -- The arc passes the last narrow word, so the extension ends right after that one.
    have below : range.bits < 64 := by
      rw [UInt32.lt_iff_toNat_lt]
      exact Nat.lt_of_lt_of_le wider valid.2
    have beyond : (UInt64.ofNat (count range.bits)).toNat = count range.bits :=
      Word.toNat_ofNat_of_lt (by have := valid.count_le; omega)
    have tested : (decide range.IsAll || range.isWrapped) = true := by
      simpa [isWrapped_iff] using around
    let start : UInt64 := if range.upper = 0 then range.lower else 0
    have begins : (range.upper.toNat ≠ 0 ∧ start.toNat = 0)
        ∨ (range.upper.toNat = 0 ∧ start.toNat = range.lower.toNat) := by
      unfold start
      split
      · rename_i zero
        exact Or.inr ⟨congrArg UInt64.toNat zero, rfl⟩
      · rename_i positive
        exact Or.inl ⟨fun zero => positive (UInt64.toNat_inj.mp zero), rfl⟩
    have arc : IsArc ⟨bits, start, UInt64.ofNat (count range.bits)⟩ :=
      isArc_of_ne valid (by simp only; omega) (by simp only [beyond]; omega)
        (by simp only [beyond]; omega)
    refine ⟨_, ?_, ⟨arc.wellFormed, rfl⟩, fun word member => ?_, fun together word member => ?_⟩
    · rw [zeroExtend, if_neg some, wf.isFull_eq, ok_bind, if_pos tested, firstBeyond,
        if_pos below]
      rfl
    · rw [arc.mem_iff]
      have bound := lt_of_mem member
      rw [wf.mem_iff] at member
      unfold IsAll at member around
      simp only [beyond]
      omega
    · rw [arc.mem_iff] at member
      simp only [beyond] at member
      rw [wf.mem_iff]
      rcases around with all | wrapped
      · exact ⟨by omega, Or.inl all⟩
      · exact ⟨by omega, Or.inr (Or.inr ⟨wrapped, by omega⟩)⟩
  · obtain ⟨notAll, plain⟩ := not_or.mp around
    have tested : (decide range.IsAll || range.isWrapped) = false := by
      simpa [notAll, ← Bool.not_eq_true, isWrapped_iff] using plain
    have source : range.IsArc := ⟨wf, none, notAll⟩
    have arc : IsArc ⟨bits, range.lower, range.upper⟩ :=
      isArc_of_ne valid (by simp only; omega) (by simp only; omega) source.differ
    refine ⟨_, ?_, ⟨arc.wellFormed, rfl⟩, fun word member => ?_, fun _ word member => ?_⟩
    · rw [zeroExtend, if_neg some, wf.isFull_eq, ok_bind, tested]
      rfl
    · rw [arc.mem_iff]
      rw [source.mem_iff] at member
      simp only
      omega
    · rw [source.mem_iff]
      rw [arc.mem_iff] at member
      simp only at member
      omega

/-- The words of an arc fit a narrower width as they are. -/
theorem IsArc.fitsUnsigned_eq (source : range.IsArc) (valid : Valid bits)
    : truncate.fitsUnsigned range bits
      = .ok (decide (range.lower.toNat < range.upper.toNat
          ∧ range.upper.toNat ≤ count bits - 1)) := by
  have differ := source.differ
  unfold truncate.fitsUnsigned
  by_cases wrapped : range.upper.toNat < range.lower.toNat
  · rw [if_pos ((isWrapped_iff range).mpr wrapped)]
    simp only [pure_eq_ok, Except.ok.injEq, Bool.false_eq, decide_eq_false_iff_not]
    omega
  · rw [if_neg fun h => wrapped ((isWrapped_iff range).mp h), valid.mask_eq]
    simp only [ok_bind, pure_eq_ok, Except.ok.injEq, UInt64.le_iff_toNat_le, valid.toNat_ones,
      decide_eq_decide]
    omega

/-- Truncation keeps the low bits of every word. -/
theorem truncate_spec (wf : range.WellFormed) (valid : Valid bits)
    (narrower : bits.toNat < range.bits.toNat)
    : ∃ resized, range.truncate bits = .ok resized
        ∧ resized.OfWidth bits
        ∧ ∀ word, word ∈ range → word % count bits ∈ resized := by
  have positive := Word.count_pos bits
  unfold truncate
  by_cases none : range.IsNone
  · refine ⟨bottom bits, ?_, ofWidth_bottom valid, fun word member => ?_⟩
    · rw [if_pos (isEmpty_iff.mpr none), empty_eq valid]
    · exact absurd member (wf.not_mem_of_isNone none word)
  rw [if_neg fun h => none (isEmpty_iff.mp h), wf.isFull_eq, ok_bind]
  have full : ∀ word, word ∈ range → word % count bits ∈ top bits :=
    fun word _ => mem_of_isAll (isAll_top valid) (Nat.mod_lt word positive)
  by_cases all : range.IsAll
  · refine ⟨top bits, ?_, ofWidth_top valid, full⟩
    rw [if_pos (decide_eq_true all), full_eq valid]
  rw [if_neg (by simpa using all)]
  have source : range.IsArc := ⟨wf, none, all⟩
  rw [source.fitsUnsigned_eq valid, ok_bind]
  by_cases plain : range.lower.toNat < range.upper.toNat ∧ range.upper.toNat ≤ count bits - 1
  · have arc : IsArc ⟨bits, range.lower, range.upper⟩ :=
      isArc_of_ne valid (by simp only; omega) (by simp only; omega) source.differ
    refine ⟨_, by rw [if_pos (decide_eq_true plain)]; rfl, ⟨arc.wellFormed, rfl⟩,
      fun word member => ?_⟩
    rw [source.mem_iff] at member
    rw [Nat.mod_eq_of_lt (by omega), arc.mem_iff]
    simp only
    omega
  · obtain ⟨least, hleast, leastHeld, lower⟩ := wf.signedMin_spec none
    obtain ⟨greatest, hgreatest, greatestHeld, upper⟩ := wf.signedMax_spec none
    rw [if_neg (by simpa using plain), hleast, hgreatest, valid.signedMin_eq, valid.signedMax_eq]
    simp only [ok_bind]
    by_cases outside : least < -(half bits : Int) ∨ (half bits : Int) - 1 < greatest
    · refine ⟨top bits, ?_, ofWidth_top valid, full⟩
      rw [if_pos outside, full_eq valid]
    · have ordered := lower _ greatestHeld
      obtain ⟨resized, built, proper, elements⟩ := ofSignedClosed_spec valid
        (show Fits bits least by unfold Fits; omega)
        (show Fits bits greatest by unfold Fits; omega) ordered
      refine ⟨resized, by rw [if_neg outside, built], proper, fun word member => ?_⟩
      obtain ⟨bound, held⟩ := wf.mem_iff_holds.mp member
      have member := ((elements _).mpr ⟨lower _ held, upper _ held⟩).2
      rw [proper.bits_eq, ← Word.residue_mod (Nat.le_of_lt narrower),
        wf.valid.residue_signed bound] at member
      exact member

theorem resizeSigned_spec (wf : range.WellFormed) (valid : Valid bits)
    : ∃ resized, range.resizeSigned bits = .ok resized
        ∧ resized.OfWidth bits
        ∧ ∀ value, range.Holds value → residue bits value ∈ resized := by
  unfold resizeSigned
  by_cases wider : range.bits < bits
  · obtain ⟨resized, result, proper, keeps, _⟩ :=
      signExtend_spec wf valid (UInt32.lt_iff_toNat_lt.mp wider)
    refine ⟨resized, by rw [if_pos wider, result], proper, fun value held => ?_⟩
    have member := (keeps value held).2
    rwa [proper.bits_eq] at member
  · rw [if_neg wider]
    by_cases narrower : bits < range.bits
    · obtain ⟨resized, result, proper, keeps⟩ :=
        truncate_spec wf valid (UInt32.lt_iff_toNat_lt.mp narrower)
      refine ⟨resized, by rw [if_pos narrower, result], proper, fun value held => ?_⟩
      rw [← Word.residue_mod (Nat.le_of_lt (UInt32.lt_iff_toNat_lt.mp narrower))]
      exact keeps _ held.2
    · have same : range.bits = bits := UInt32.le_antisymm (UInt32.not_lt.mp narrower)
        (UInt32.not_lt.mp wider)
      exact ⟨range, by rw [if_neg narrower]; rfl, ⟨wf, same⟩, fun value held => same ▸ held.2⟩

/-- A wider range holds the same numbers. -/
theorem WellFormed.holds_resizeSigned {resized : Range} {value : Int} (wf : range.WellFormed)
    (valid : Valid bits) (wider : range.bits.toNat ≤ bits.toNat)
    (result : range.resizeSigned bits = .ok resized) (held : range.Holds value)
    : resized.Holds value := by
  obtain ⟨_, again, proper, keeps⟩ := resizeSigned_spec wf valid
  cases result.symm.trans again
  have fits : Fits resized.bits value := proper.bits_eq ▸ Fits.widen held.1 wider
  exact ⟨fits, by rw [proper.bits_eq]; exact keeps value held⟩

theorem resizeUnsigned_spec (wf : range.WellFormed) (valid : Valid bits)
    : ∃ resized, range.resizeUnsigned bits = .ok resized
        ∧ resized.OfWidth bits
        ∧ ∀ word, word ∈ range → word % count bits ∈ resized := by
  unfold resizeUnsigned
  by_cases wider : range.bits < bits
  · have widths := UInt32.lt_iff_toNat_lt.mp wider
    obtain ⟨resized, result, proper, keeps, _⟩ := zeroExtend_spec wf valid widths
    refine ⟨resized, by rw [if_pos wider, result], proper, fun word member => ?_⟩
    have bound := Nat.lt_of_lt_of_le (lt_of_mem member)
      (Word.count_le_count (Nat.le_of_lt widths))
    rw [Nat.mod_eq_of_lt bound]
    exact keeps word member
  · rw [if_neg wider]
    by_cases narrower : bits < range.bits
    · obtain ⟨resized, result, proper, keeps⟩ :=
        truncate_spec wf valid (UInt32.lt_iff_toNat_lt.mp narrower)
      exact ⟨resized, by rw [if_pos narrower, result], proper, keeps⟩
    · have same : range.bits = bits := UInt32.le_antisymm (UInt32.not_lt.mp narrower)
        (UInt32.not_lt.mp wider)
      refine ⟨range, by rw [if_neg narrower]; rfl, ⟨wf, same⟩, fun word member => ?_⟩
      rwa [Nat.mod_eq_of_lt (same ▸ lt_of_mem member)]

-----------------------------------------------------------------------------------------
-- Multiples
-----------------------------------------------------------------------------------------

/-- The multiples of numbers in an interval lie between those of its ends. -/
theorem mul_between {low high value : Int} (above : low ≤ value) (below : value ≤ high)
    (factor : Int)
    : min (low * factor) (high * factor) ≤ value * factor
      ∧ value * factor ≤ max (low * factor) (high * factor) := by
  rcases Int.le_total 0 factor with positive | negative
  · have first := Int.mul_le_mul_of_nonneg_right above positive
    have last := Int.mul_le_mul_of_nonneg_right below positive
    omega
  · have first := Int.mul_le_mul_of_nonpos_right above negative
    have last := Int.mul_le_mul_of_nonpos_right below negative
    omega

/-- Scaling covers every multiple, or gives up. -/
theorem scale_spec (wf : range.WellFormed) (factor : Int)
    : ∃ scaled, range.scale factor = .ok scaled
        ∧ scaled.OfWidth range.bits
        ∧ ∀ value, range.Holds value → scaled.Allows (value * factor) := by
  unfold scale
  by_cases none : range.IsNone
  · exact ⟨range, by rw [if_pos (isEmpty_iff.mpr none)]; rfl, ⟨wf, rfl⟩,
      fun value held => absurd held.2 (wf.not_mem_of_isNone none _)⟩
  · obtain ⟨least, hleast, _, lower⟩ := wf.signedMin_spec none
    obtain ⟨greatest, hgreatest, _, upper⟩ := wf.signedMax_spec none
    rw [if_neg fun h => none (isEmpty_iff.mp h), hleast, hgreatest]
    obtain ⟨scaled, built, proper, _, exact⟩ := ofSignedBounds_spec wf.valid
      (show min (least * factor) (greatest * factor) ≤ max (least * factor) (greatest * factor)
        by omega)
    refine ⟨scaled, built, proper, fun value held => ?_⟩
    by_cases all : scaled.IsAll
    · exact Or.inl all
    · obtain ⟨above, below⟩ := mul_between (lower value held) (upper value held) factor
      exact Or.inr (exact all _ above below)

end StackBounds.Range
