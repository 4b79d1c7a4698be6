import Mathlib.Algebra.Order.Floor.Div
import StackBounds.Proofs.Local.Totality

/-! Sizes of types. A size is the exact number of bytes, cut at the largest number, however arrays,
structures and vectors are nested. So the bounds of an allocation are those of its exact size, or
empty.
-/

namespace StackBounds

open Word (Fits half)

/-- The first multiple of an alignment that is not below an offset. -/
def nextMultiple (offset align : Nat) : Nat := offset ⌈/⌉ align * align

variable {pointer : PointerWidth}

namespace Ty

/-- A proof for all types: one case for each kind of type, with the fact for its parts. -/
theorem inductionOn {motive : Ty → Prop} (ty : Ty) (i1 : motive .i1) (i8 : motive .i8)
    (i16 : motive .i16) (i32 : motive .i32) (i64 : motive .i64) (ptr : motive .ptr)
    (array : ∀ elem length, motive elem → motive (.array elem length))
    (struct : ∀ fields, (∀ field ∈ fields, motive field) → motive (.struct fields))
    (scalable : ∀ elem minLength, motive elem → motive (.scalable elem minLength))
    (unit : motive .unit)
    : motive ty := by
  refine @Ty.rec motive (fun fields => ∀ field ∈ fields, motive field) i1 i8 i16 i32 i64 ptr array
    struct scalable unit ?_ ?_ ty
  · intro field member
    exact absurd member List.not_mem_nil
  · intro head rest first others field member
    rcases List.mem_cons.mp member with rfl | later
    · exact first
    · exact others field later

mutual

/-- The number of bytes of a value in memory, without a limit. The least number for a vector. -/
def exactSize (pointer : PointerWidth) : Ty → Nat
  | .i1 => 1
  | .i8 => 1
  | .i16 => 2
  | .i32 => 4
  | .i64 => 8
  | .ptr => pointer.bytes
  | .array elem length => elem.exactSize pointer * length.toNat
  | .struct fields => nextMultiple (exactEnd pointer 0 fields) (maxAlign pointer fields)
  | .scalable elem minLength => elem.exactSize pointer * minLength.toNat
  | .unit => 0

/-- Where the last of several fields ends, each placed at the next multiple of its alignment. -/
def exactEnd (pointer : PointerWidth) (before : Nat) : List Ty → Nat
  | [] => before
  | field :: rest =>
      exactEnd pointer
        (nextMultiple before (field.align pointer) + field.exactSize pointer) rest

end

/-- A vector whose length is known only at run time occurs in the type. -/
inductive HasScalable : Ty → Prop
  | vector (elem : Ty) (minLength : UInt64) : HasScalable (.scalable elem minLength)
  | elem {elem : Ty} (length : UInt64) (inElem : HasScalable elem)
    : HasScalable (.array elem length)
  | field {field : Ty} {fields : List Ty} (member : field ∈ fields) (inField : HasScalable field)
    : HasScalable (.struct fields)

-----------------------------------------------------------------------------------------
-- Alignments
-----------------------------------------------------------------------------------------

/-- Alignments are small powers of two; by induction on the type. -/
theorem align_mem (pointer : PointerWidth) (ty : Ty) : ty.align pointer ∈ [1, 2, 4, 8] := by
  induction ty using inductionOn with
  | i1 | i8 | i16 | i32 | i64 | unit => simp [align]
  | ptr => cases pointer <;> decide
  | array elem length ih | scalable elem length ih => rwa [align]
  | struct fields ih =>
      rw [align]
      induction fields with
      | nil => simp [maxAlign]
      | cons head rest ihRest =>
          rw [maxAlign]
          have first := ih head List.mem_cons_self
          have others := ihRest fun field member => ih field (List.mem_cons_of_mem _ member)
          rcases max_choice (head.align pointer) (maxAlign pointer rest) with same | same
          · rwa [same]
          · rwa [same]

theorem align_pos (pointer : PointerWidth) (ty : Ty) : 0 < ty.align pointer := by
  have listed := align_mem pointer ty
  simp only [List.mem_cons, List.not_mem_nil, or_false] at listed
  omega

end Ty

-----------------------------------------------------------------------------------------
-- Cutting
-----------------------------------------------------------------------------------------

theorem isLeast_nextMultiple {offset align : Nat} (positive : 0 < align)
    : IsLeast { bytes | offset ≤ bytes ∧ align ∣ bytes } (nextMultiple offset align) := by
  refine ⟨⟨?_, Nat.dvd_mul_left _ _⟩, ?_⟩
  · have covers := le_smul_ceilDiv (b := offset) positive
    rwa [smul_eq_mul, Nat.mul_comm] at covers
  · rintro _ ⟨covers, times, rfl⟩
    rw [nextMultiple, Nat.mul_comm align]
    refine Nat.mul_le_mul_right _ ((ceilDiv_le_iff_le_smul positive).mpr ?_)
    rwa [smul_eq_mul]

theorem alignTo_eq (offset align : Nat)
    : alignTo offset align = saturate (nextMultiple offset align) := by
  rw [alignTo, nextMultiple, Nat.ceilDiv_eq_add_pred_div]

theorem saturate_of_le {bytes : Nat} (small : bytes ≤ maxBytes) : saturate bytes = bytes :=
  Nat.min_eq_left small

/-- Cutting early or late is the same when a number is made no smaller: one that is cut stays at the
limit.
-/
theorem saturate_absorbs (grow : Nat → Nat) (grows : ∀ bytes, bytes ≤ grow bytes) (bytes : Nat)
    : saturate (grow (saturate bytes)) = saturate (grow bytes) := by
  rcases Nat.le_total bytes maxBytes with small | large
  · rw [saturate_of_le small]
  · have cut : saturate bytes = maxBytes := Nat.min_eq_right large
    have first := grows maxBytes
    have second := Nat.le_trans large (grows bytes)
    rw [cut, saturate, saturate, Nat.min_eq_right first, Nat.min_eq_right second]

/-- A length of zero brings a number back that was cut, and every other makes it no smaller. -/
theorem saturate_mul (bytes length : Nat)
    : saturate (saturate bytes * length) = saturate (bytes * length) := by
  cases length with
  | zero => rfl
  | succ length =>
      refine saturate_absorbs (· * (length + 1)) (fun bytes => ?_) bytes
      exact Nat.le_mul_of_pos_right bytes (Nat.succ_pos length)

theorem saturate_add (first second : Nat)
    : saturate (saturate first + saturate second) = saturate (first + second) := by
  rw [saturate_absorbs (· + saturate second) (fun _ => Nat.le_add_right _ _),
    saturate_absorbs (first + ·) (fun _ => Nat.le_add_left _ _)]

theorem alignTo_saturate {align : Nat} (positive : 0 < align) (offset : Nat)
    : alignTo (saturate offset) align = saturate (nextMultiple offset align) := by
  rw [alignTo_eq]
  exact saturate_absorbs (nextMultiple · align)
    (fun _ => (isLeast_nextMultiple positive).1.1) offset

namespace Ty

-----------------------------------------------------------------------------------------
-- Sizes
-----------------------------------------------------------------------------------------

/-- Placing fields after a number that was cut; by induction on the fields. -/
theorem bytes_placeFields {fields : List Ty}
    (exact : ∀ field ∈ fields,
      (field.size pointer).bytes = saturate (field.exactSize pointer))
    {before : TypeSize} {bytes : Nat} (placed : before.bytes = saturate bytes)
    : (placeFields pointer before fields).bytes = saturate (exactEnd pointer bytes fields) := by
  induction fields generalizing before bytes with
  | nil => rwa [placeFields, exactEnd]
  | cons head rest ih =>
      rw [placeFields, exactEnd]
      refine ih (fun field member => exact field (List.mem_cons_of_mem _ member)) ?_
      rw [placed, alignTo_saturate (align_pos pointer head), exact head List.mem_cons_self,
        saturate_add]

/-- The size is the exact one, cut; by induction on the type. -/
theorem bytes_size (pointer : PointerWidth) (ty : Ty)
    : (ty.size pointer).bytes = saturate (ty.exactSize pointer) := by
  induction ty using inductionOn with
  | i1 | i8 | i16 | i32 | i64 | unit => rw [size, exactSize]; rfl
  | ptr => cases pointer <;> rfl
  | array elem length ih | scalable elem length ih =>
      rw [size, exactSize, ← saturate_mul (elem.exactSize pointer), ← ih]
  | struct fields ih =>
      have positive : 0 < maxAlign pointer fields := align_pos pointer (.struct fields)
      have placed := bytes_placeFields ih (show (⟨0, false⟩ : TypeSize).bytes = saturate 0 from rfl)
      rw [size, exactSize, ← alignTo_saturate positive, ← placed]

/-- A size is a multiple of the alignment, so array elements need no padding; by induction on the
type.
-/
theorem align_dvd_exactSize (pointer : PointerWidth) (ty : Ty)
    : ty.align pointer ∣ ty.exactSize pointer := by
  induction ty using inductionOn with
  | i1 | i8 | i16 | i32 | i64 | ptr | unit => simp [align, exactSize]
  | array elem length ih | scalable elem length ih =>
      rw [align, exactSize]
      exact ih.mul_right _
  | struct fields ih =>
      rw [align, exactSize]
      exact Nat.dvd_mul_left _ _

theorem hasScalable_struct_iff {fields : List Ty}
    : (Ty.struct fields).HasScalable ↔ ∃ field ∈ fields, field.HasScalable := by
  constructor
  · intro occurs
    cases occurs with
    | field member inField => exact ⟨_, member, inField⟩
  · rintro ⟨field, member, inField⟩
    exact .field member inField

theorem scalable_placeFields {fields : List Ty}
    (flags : ∀ field ∈ fields, (field.size pointer).scalable = true ↔ field.HasScalable)
    (before : TypeSize)
    : (placeFields pointer before fields).scalable = true
      ↔ before.scalable = true ∨ ∃ field ∈ fields, field.HasScalable := by
  induction fields generalizing before with
  | nil => simp [placeFields]
  | cons head rest ih =>
      have others := ih fun field member => flags field (List.mem_cons_of_mem _ member)
      rw [placeFields]
      refine (others _).trans ?_
      simp only [Bool.or_eq_true, flags head List.mem_cons_self, List.exists_mem_cons_iff, or_assoc]

/-- The flag says whether a vector occurs; by induction on the type. -/
theorem scalable_size_iff (pointer : PointerWidth) (ty : Ty)
    : (ty.size pointer).scalable = true ↔ ty.HasScalable := by
  induction ty using inductionOn with
  | i1 | i8 | i16 | i32 | i64 | ptr | unit =>
      rw [size]
      refine iff_of_false Bool.false_ne_true fun occurs => ?_
      cases occurs
  | array elem length ih =>
      rw [size, ih]
      refine ⟨.elem length, fun occurs => ?_⟩
      cases occurs
      assumption
  | scalable elem length ih => exact iff_of_true rfl (.vector elem length)
  | struct fields ih =>
      rw [size, hasScalable_struct_iff]
      refine (scalable_placeFields ih ⟨0, false⟩).trans ?_
      rw [or_iff_right Bool.false_ne_true]

theorem fixed?_size_eq_some_iff {ty : Ty} {elem : Nat}
    : (ty.size pointer).fixed? = some elem
      ↔ ¬ ty.HasScalable ∧ elem = saturate (ty.exactSize pointer) := by
  rw [TypeSize.fixed?, ← scalable_size_iff pointer, ← bytes_size]
  cases (ty.size pointer).scalable <;> simp [eq_comm]

end Ty

-----------------------------------------------------------------------------------------
-- Allocations
-----------------------------------------------------------------------------------------

namespace Function

/-- The operand of an allocation asks for a number of elements that is the same on every run: one
when there is no operand, and the number of a constant.
-/
inductive Counts (func : Function) : Option ValueId → Int → Prop
  | one : Counts func none 1
  | constant {id : ValueId} {imm : Immediate} (found : func.value id = .ok (.constant imm))
    : Counts func (some id) imm.toInt

/-- An allocation makes room for a positive number of elements whose size is the same on every run.
-/
inductive Reserves (func : Function) (pointer : PointerWidth) (alloca : InstId) : Int → Prop
  | intro {ty : Ty} {count : Option ValueId} {number : Int}
    (found : func.inst alloca = .ok (.alloca ty count)) (fixed : ¬ ty.HasScalable)
    (counts : func.Counts count number) (positive : 0 < number)
    : Reserves func pointer alloca (ty.exactSize pointer * number)

variable {func : Function} {alloca : InstId} {ty : Ty} {count : Option ValueId}

theorem allocaCount_eq_some_iff {number : Int}
    : func.allocaCount count = .ok (some number) ↔ func.Counts count number := by
  constructor
  · intro counted
    cases count with
    | none =>
        cases counted
        exact .one
    | some id =>
        obtain ⟨value, found, counted⟩ := exists_of_bind_eq_ok counted
        cases value with
        | constant imm =>
            cases counted
            exact .constant found
        | result _ _ | argument _ _ => cases counted
  · intro counts
    cases counts with
    | one => rfl
    | constant found => rw [allocaCount, found]; rfl

theorem half_le_maxBytes (pointer : PointerWidth) : half pointer.bits ≤ maxBytes := by
  cases pointer <;> decide

/-- A size below half the address space was not cut, for any number of elements. -/
theorem mul_saturate_of_lt {bytes : Nat} {number : Int} (positive : 0 < number)
    (small : (saturate bytes : Int) * number < half pointer.bits)
    : (saturate bytes : Int) * number = bytes * number := by
  have limit := half_le_maxBytes pointer
  have least : (saturate bytes : Int) ≤ saturate bytes * number :=
    le_mul_of_one_le_right (Int.natCast_nonneg _) positive
  rcases Nat.le_total bytes maxBytes with whole | cut
  · rw [saturate_of_le whole]
  · have same : saturate bytes = maxBytes := Nat.min_eq_right cut
    omega

/-- An allocation of a positive size below half the address space has the bytes of that size. -/
theorem Reserves.exists_allocaRange {bytes : Int} (reserves : func.Reserves pointer alloca bytes)
    (some : 1 ≤ bytes) (small : bytes < half pointer.bits)
    : ∃ range, func.allocaRange pointer alloca = .ok range
      ∧ range.OfWidth pointer.bits
      ∧ ¬ range.IsAll
      ∧ ∀ position, range.Holds position ↔ 0 ≤ position ∧ position < bytes := by
  cases reserves with
  | @intro ty count number found fixed counts positive =>
      have valid := pointer.valid_bits
      have limit := half_le_maxBytes pointer
      have least : (ty.exactSize pointer : Int) ≤ ty.exactSize pointer * number :=
        le_mul_of_one_le_right (Int.natCast_nonneg _) positive
      have whole : saturate (ty.exactSize pointer) = ty.exactSize pointer :=
        saturate_of_le (by omega)
      have size := Ty.fixed?_size_eq_some_iff.mpr ⟨fixed, whole.symm⟩
      have nonzero : ty.exactSize pointer ≠ 0 := by
        intro zero
        rw [zero] at some
        omega
      have inside : 1 ≤ ty.exactSize pointer
          ∧ (ty.exactSize pointer : Int) ≤ (half pointer.bits : Int) - 1 := by omega
      have bound : 0 < number
          ∧ (ty.exactSize pointer : Int) * number ≤ (half pointer.bits : Int) - 1 := by omega
      have zeroFits : Fits pointer.bits 0 := ⟨by omega, by omega⟩
      have endFits : Fits pointer.bits (ty.exactSize pointer * number) := ⟨by omega, small⟩
      obtain ⟨range, built, proper, notAll, elements⟩ :=
        Range.ofSigned_spec valid zeroFits endFits (by omega)
      refine ⟨range, ?_, proper, notAll, elements⟩
      simp only [allocaRange, found, valid.signedMax_eq, size, ok_bind, if_pos inside,
        allocaCount_eq_some_iff.mpr counts, if_pos bound, built]

/-- Every other allocation has no bytes that are known. -/
theorem allocaRange_eq_bottom (found : func.inst alloca = .ok (.alloca ty count))
    (closed : ∀ id ∈ count, ∃ value, func.value id = .ok value)
    (other : ∀ bytes, func.Reserves pointer alloca bytes → 1 ≤ bytes
      → (half pointer.bits : Int) ≤ bytes)
    : func.allocaRange pointer alloca = .ok (Range.bottom pointer.bits) := by
  have valid := pointer.valid_bits
  obtain ⟨number?, counted⟩ := exists_allocaCount closed
  simp only [allocaRange, found, valid.signedMax_eq, ok_bind, Range.empty_eq valid]
  split
  · rfl
  · rename_i elem size
    split
    · rename_i inside
      rw [counted, ok_bind]
      split
      · rfl
      · rename_i number
        split
        · rename_i bound
          obtain ⟨fixed, rfl⟩ := Ty.fixed?_size_eq_some_iff.mp size
          have exact := mul_saturate_of_lt bound.1
            (show (saturate (ty.exactSize pointer) : Int) * number < half pointer.bits by omega)
          have large := other _ (.intro found fixed (allocaCount_eq_some_iff.mp counted) bound.1)
          have positive := Int.mul_pos (Int.natCast_pos.mpr inside.1) bound.1
          omega
        · rfl
    · rfl

end Function

namespace Ty

/-- For every type and pointer width, the size is the exact number of bytes or the largest number
that is written, whichever is smaller, the alignment is a small power of two that divides the exact
size, and the flag says whether a vector occurs. So the bounds of every allocation of the type are
`[0, bytes)` for the exact number of bytes that it makes room for, when that is fixed, positive and
below half the address space, and empty in every other case.
-/
theorem size_saturates (pointer : PointerWidth) (ty : Ty)
    : (ty.size pointer).bytes = min (ty.exactSize pointer) (2 ^ 64 - 1)
      ∧ ty.align pointer ∈ [1, 2, 4, 8]
      ∧ ty.align pointer ∣ ty.exactSize pointer
      ∧ ((ty.size pointer).scalable = true ↔ ty.HasScalable)
      ∧ ∀ (func : Function) (alloca : InstId) (count : Option ValueId),
        func.inst alloca = .ok (.alloca ty count)
        → (∀ id ∈ count, ∃ value, func.value id = .ok value)
        → (∀ bytes, func.Reserves pointer alloca bytes → 1 ≤ bytes → bytes < half pointer.bits
            → ∃ range, func.allocaRange pointer alloca = .ok range
              ∧ range.OfWidth pointer.bits
              ∧ ¬ range.IsAll
              ∧ ∀ position, range.Holds position ↔ 0 ≤ position ∧ position < bytes)
          ∧ ((¬ ∃ bytes, func.Reserves pointer alloca bytes ∧ 1 ≤ bytes ∧ bytes < half pointer.bits)
            → func.allocaRange pointer alloca = .ok (Range.bottom pointer.bits)) := by
  refine ⟨bytes_size pointer ty, align_mem pointer ty, align_dvd_exactSize pointer ty,
    scalable_size_iff pointer ty, fun func alloca count found closed => ⟨?_, fun other => ?_⟩⟩
  · intro bytes reserves some small
    exact reserves.exists_allocaRange some small
  · refine Function.allocaRange_eq_bottom found closed fun bytes reserves some => ?_
    by_contra small
    exact other ⟨bytes, reserves, some, by omega⟩

/-- Padding between the fields and behind the last one. -/
def padded : Ty := .struct [.i8, .i64, .array .i16 3]

/-- More bytes than can be written. -/
def vast : Ty := .array (.array .i64 0x4000000000000000) 0x4000000000000000

/-- Rooms for three padded structures, for a vast array and for no vast array. -/
def rooms : Function where
  sig := .declared "rooms" .external [] .unit
  values := [.constant (.i32 3), .result ⟨0⟩ .ptr, .result ⟨1⟩ .ptr, .result ⟨2⟩ .ptr]
  insts := [.alloca padded (some ⟨0⟩), .alloca vast none, .alloca (.array vast 0) none]
  blockCount := 0
  layout := []

/-- Witness: three structures of 24 bytes each have bounds, and a vast array has none. -/
theorem size_saturates_rooms
    : (padded.size .w32).bytes = 24
      ∧ rooms.Reserves .w32 ⟨0⟩ 72
      ∧ (∃ range, rooms.allocaRange .w32 ⟨0⟩ = .ok range
        ∧ ∀ position, range.Holds position ↔ 0 ≤ position ∧ position < 72)
      ∧ (vast.size .w64).bytes = 0xffffffffffffffff
      ∧ rooms.allocaRange .w64 ⟨1⟩ = .ok (Range.bottom 64)
      ∧ ((Ty.array vast 0).size .w64).bytes = 0 := by
  obtain ⟨padding, _, _, flag, paddedRooms⟩ := size_saturates .w32 padded
  obtain ⟨cut, _, _, _, vastRooms⟩ := size_saturates .w64 vast
  obtain ⟨zero, _⟩ := size_saturates .w64 (.array vast 0)
  have fixed : ¬ padded.HasScalable := fun occurs => absurd (flag.mpr occurs) (by decide)
  have value : rooms.value ⟨0⟩ = .ok (.constant (.i32 3)) := rfl
  have counts : rooms.Counts (some ⟨0⟩) 3 := .constant value
  have reserves : rooms.Reserves .w32 ⟨0⟩ 72 := .intro rfl fixed counts (by decide)
  have named : ∀ id ∈ some (ValueId.mk 0), ∃ value, rooms.value id = .ok value := by
    intro id same
    cases same
    exact ⟨_, value⟩
  obtain ⟨range, ranged, _, _, elements⟩ :=
    (paddedRooms rooms ⟨0⟩ _ rfl named).1 72 reserves (by decide) (by decide)
  refine ⟨padding, reserves, ⟨range, ranged, elements⟩, cut, ?_, zero⟩
  refine (vastRooms rooms ⟨1⟩ none rfl fun id never => by cases never).2 ?_
  rintro ⟨_, ⟨found, _, counts, _⟩, _, small⟩
  cases found
  cases counts
  exact absurd small (by decide)

end Ty

end StackBounds
