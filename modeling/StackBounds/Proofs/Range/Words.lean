import Mathlib.Tactic.Linarith
import Mathlib.Tactic.Ring
import StackBounds.Range.Basic

/-! Words of a width, moved to numbers. The widths 1 to 64 have a mask and a signed reading, and
there every operation on words is arithmetic with the modulus `count` and its half.
-/

namespace StackBounds.Word

/-- The widths for which words have a mask and a signed reading. -/
def Valid (bits : UInt32) : Prop := 1 ≤ bits.toNat ∧ bits.toNat ≤ 64

instance (bits : UInt32) : Decidable (Valid bits) := inferInstanceAs (Decidable (_ ∧ _))

/-- The signed reading of a word. -/
def signed (bits : UInt32) (word : Nat) : Int := (word : Int).bmod (count bits)

/-- The word of an integer. -/
def residue (bits : UInt32) (value : Int) : Nat := (value % (count bits : Int)).toNat

/-- The integer is a signed number of the width. -/
def Fits (bits : UInt32) (value : Int) : Prop := -(half bits : Int) ≤ value ∧ value < half bits

instance (bits : UInt32) (value : Int) : Decidable (Fits bits value) :=
  inferInstanceAs (Decidable (_ ∧ _))

-----------------------------------------------------------------------------------------
-- The modulus and its half
-----------------------------------------------------------------------------------------

theorem half_pos (bits : UInt32) : 0 < half bits := Nat.two_pow_pos _

theorem count_pos (bits : UInt32) : 0 < count bits := Nat.two_pow_pos _

section Width

variable {bits : UInt32}

/-- Half of the words are negative, since one bit is the sign. -/
theorem Valid.count_eq (valid : Valid bits) : count bits = 2 * half bits := by
  obtain ⟨low, _⟩ := valid
  have split : bits.toNat = (bits.toNat - 1) + 1 := by omega
  calc 2 ^ bits.toNat = 2 ^ ((bits.toNat - 1) + 1) := by rw [← split]
    _ = 2 * 2 ^ (bits.toNat - 1) := by rw [Nat.pow_succ, Nat.mul_comm]

/-- Every word of a width is a 64-bit word. -/
theorem Valid.count_le (valid : Valid bits) : count bits ≤ UInt64.size :=
  Nat.pow_le_pow_right (by decide) valid.2

theorem Valid.le_64 (valid : Valid bits) : bits ≤ 64 := UInt32.le_iff_toNat_le.mpr valid.2

/-- A wider width has more words. -/
theorem count_le_count {narrow wide : UInt32} (h : narrow.toNat ≤ wide.toNat)
    : count narrow ≤ count wide :=
  Nat.pow_le_pow_right (by decide) h

/-- A strictly wider width has at least twice as many words, so the narrow ones are all among
its non-negative words.
-/
theorem Valid.count_le_half {narrow wide : UInt32} (valid : Valid wide)
    (h : narrow.toNat < wide.toNat)
    : count narrow ≤ half wide :=
  Nat.pow_le_pow_right (by decide) (by have := valid.1; omega)

-----------------------------------------------------------------------------------------
-- Masks
-----------------------------------------------------------------------------------------

/-- The all-ones word, as a total function. -/
def ones (bits : UInt32) : UInt64 := UInt64.ofNat (count bits - 1)

theorem Valid.mask_eq (valid : Valid bits) : mask bits = .ok (ones bits) := by
  simp [mask, valid.le_64, ones]

theorem Valid.requireSigned_eq (valid : Valid bits) : requireSigned bits = .ok () := by
  have low : 1 ≤ bits := UInt32.le_iff_toNat_le.mpr valid.1
  simp [requireSigned, low, valid.le_64]

theorem toNat_ofNat_of_lt {number : Nat} (h : number < UInt64.size)
    : (UInt64.ofNat number).toNat = number := by
  rw [UInt64.toNat_ofNat']
  exact Nat.mod_eq_of_lt h

@[simp] theorem Valid.toNat_ones (valid : Valid bits) : (ones bits).toNat = count bits - 1 := by
  have := valid.count_le
  have := count_pos bits
  exact toNat_ofNat_of_lt (by omega)

/-- Masking a word takes its remainder. -/
theorem Valid.toNat_and_ones (valid : Valid bits) (word : UInt64)
    : (word &&& ones bits).toNat = word.toNat % count bits := by
  rw [UInt64.toNat_and, valid.toNat_ones]
  exact Nat.and_two_pow_sub_one_eq_mod _ _

/-- Masking a remainder that has been taken modulo 64 bits takes it modulo the width. -/
theorem Valid.mod_size_mod (valid : Valid bits) (number : Nat)
    : number % 2 ^ 64 % count bits = number % count bits :=
  Nat.mod_mod_of_dvd _ (Nat.pow_dvd_pow 2 valid.2)

/-- A masked difference goes around the circle of words of the width. -/
theorem Valid.toNat_sub_and_ones (valid : Valid bits) {first second : UInt64}
    (h : second.toNat ≤ count bits)
    : ((first - second) &&& ones bits).toNat
      = (first.toNat + (count bits - second.toNat)) % count bits := by
  have size : (2 : Nat) ^ 64 = UInt64.size := rfl
  have bound := valid.count_le
  obtain ⟨factor, multiple⟩ : count bits ∣ 2 ^ 64 := Nat.pow_dvd_pow 2 valid.2
  have positive : 0 < factor := by
    rcases Nat.eq_zero_or_pos factor with none | positive
    · simp [none] at multiple
    · exact positive
  have spread : count bits * factor = count bits * (factor - 1) + count bits := by
    rw [← Nat.mul_succ, Nat.succ_eq_add_one, Nat.sub_add_cancel positive]
  rw [valid.toNat_and_ones, UInt64.toNat_sub, valid.mod_size_mod,
    show 2 ^ 64 - second.toNat + first.toNat
      = first.toNat + (count bits - second.toNat) + count bits * (factor - 1) by omega,
    Nat.add_mul_mod_self_left]

/-- A masked sum is the sum modulo the number of words. -/
theorem Valid.toNat_add_and_ones (valid : Valid bits) (first second : UInt64)
    : ((first + second) &&& ones bits).toNat = (first.toNat + second.toNat) % count bits := by
  rw [valid.toNat_and_ones, UInt64.toNat_add, valid.mod_size_mod]

/-- The word before another one; that before zero is the last. -/
theorem Valid.toNat_pred (valid : Valid bits) {word : UInt64} (h : word.toNat < count bits)
    : ((word - 1) &&& ones bits).toNat
      = if word.toNat = 0 then count bits - 1 else word.toNat - 1 := by
  have one : (1 : UInt64).toNat = 1 := rfl
  rw [valid.toNat_sub_and_ones (by rw [one]; exact count_pos bits), one]
  split
  · rename_i zero
    rw [zero, Nat.zero_add]
    exact Nat.mod_eq_of_lt (by omega)
  · rw [show word.toNat + (count bits - 1) = (word.toNat - 1) + count bits by omega,
      Nat.add_mod_right]
    exact Nat.mod_eq_of_lt (by omega)

-----------------------------------------------------------------------------------------
-- Signed readings and residues
-----------------------------------------------------------------------------------------

theorem Valid.signedMin_eq (valid : Valid bits) : signedMin bits = .ok (-(half bits : Int)) := by
  simp [signedMin, valid.requireSigned_eq]

theorem Valid.signedMax_eq (valid : Valid bits) : signedMax bits = .ok ((half bits : Int) - 1) := by
  simp [signedMax, valid.requireSigned_eq]

theorem Valid.signBit_eq (valid : Valid bits)
    : signBit bits = .ok (UInt64.ofNat (half bits)) := by
  simp [signBit, valid.requireSigned_eq]

theorem Valid.toNat_signBit (valid : Valid bits)
    : (UInt64.ofNat (half bits)).toNat = half bits := by
  have := valid.count_le
  have := valid.count_eq
  have := half_pos bits
  exact toNat_ofNat_of_lt (by omega)

theorem Valid.toSigned_eq (valid : Valid bits) (word : UInt64)
    : toSigned bits word = .ok (signed bits word.toNat) := by
  simp [toSigned, valid.requireSigned_eq, signed]

/-- The signed reading moves the upper half of the words below zero. -/
theorem Valid.signed_eq (valid : Valid bits) {word : Nat} (h : word < count bits)
    : signed bits word = if word < half bits then (word : Int) else word - count bits := by
  have double := valid.count_eq
  have small : (word : Int) % (count bits : Int) = word :=
    Int.emod_eq_of_lt (by omega) (by omega)
  simp only [signed, Int.bmod_def, small]
  split <;> split <;> omega

/-- Reading a word as signed, in the two cases that arithmetic needs. -/
theorem Valid.signed_cases (valid : Valid bits) {word : Nat} (h : word < count bits)
    : (word < half bits ∧ signed bits word = word)
      ∨ (half bits ≤ word ∧ signed bits word = (word : Int) - count bits) := by
  rw [valid.signed_eq h]
  split <;> omega

theorem Valid.fits_signed (valid : Valid bits) {word : Nat} (h : word < count bits)
    : Fits bits (signed bits word) := by
  have double := valid.count_eq
  unfold Fits
  rcases valid.signed_cases h with ⟨_, same⟩ | ⟨_, same⟩ <;> omega

theorem residue_lt (bits : UInt32) (value : Int) : residue bits value < count bits := by
  have := count_pos bits
  have := Int.emod_nonneg value (b := count bits) (by omega)
  have := Int.emod_lt_of_pos value (b := count bits) (by omega)
  unfold residue
  omega

theorem natCast_residue (bits : UInt32) (value : Int)
    : (residue bits value : Int) = value % (count bits : Int) :=
  Int.toNat_of_nonneg (Int.emod_nonneg value (by have := count_pos bits; omega))

/-- The residue of a number that fits is the number itself, moved up when it is negative. -/
theorem Valid.residue_cases (valid : Valid bits) {value : Int} (fits : Fits bits value)
    : (0 ≤ value ∧ (residue bits value : Int) = value)
      ∨ (value < 0 ∧ (residue bits value : Int) = value + count bits) := by
  have double := valid.count_eq
  obtain ⟨low, high⟩ := fits
  rcases Int.lt_or_le value 0 with negative | positive
  · refine Or.inr ⟨negative, ?_⟩
    have moved : value % (count bits : Int) = value + count bits := by
      rw [← Int.add_emod_right]
      exact Int.emod_eq_of_lt (by omega) (by omega)
    simp only [residue, moved]
    omega
  · refine Or.inl ⟨positive, ?_⟩
    have same : value % (count bits : Int) = value := Int.emod_eq_of_lt positive (by omega)
    simp only [residue, same]
    omega

/-- Residue and signed reading undo each other on the numbers that fit. -/
theorem Valid.signed_residue (valid : Valid bits) {value : Int} (fits : Fits bits value)
    : signed bits (residue bits value) = value := by
  have double := valid.count_eq
  have bound := residue_lt bits value
  obtain ⟨low, high⟩ := fits
  rcases valid.residue_cases ⟨low, high⟩ with ⟨sign, same⟩ | ⟨sign, same⟩ <;>
    rcases valid.signed_cases bound with ⟨_, reading⟩ | ⟨_, reading⟩ <;> omega

/-- The residue of a sum depends on the residues of its parts only. -/
theorem residue_add (bits : UInt32) (first second : Int)
    : residue bits (first + second) = (residue bits first + residue bits second) % count bits := by
  apply Int.natCast_inj.mp
  rw [natCast_residue, Int.natCast_mod, Int.natCast_add, natCast_residue, natCast_residue,
    ← Int.add_emod]

/-- Residue and signed reading undo each other on words. -/
theorem Valid.residue_signed (valid : Valid bits) {word : Nat} (h : word < count bits)
    : residue bits (signed bits word) = word := by
  have double := valid.count_eq
  rcases valid.residue_cases (valid.fits_signed h) with ⟨sign, same⟩ | ⟨sign, same⟩ <;>
    rcases valid.signed_cases h with ⟨_, reading⟩ | ⟨_, reading⟩ <;> omega

theorem Valid.toNat_ofInt (valid : Valid bits) (value : Int)
    : (ofInt bits value).toNat = residue bits value :=
  toNat_ofNat_of_lt (Nat.lt_of_lt_of_le (residue_lt bits value) valid.count_le)

end Width

end StackBounds.Word
