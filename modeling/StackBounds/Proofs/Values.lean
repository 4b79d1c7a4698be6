import StackBounds.Proofs.Range.Resizing
import StackBounds.Proofs.Range.Union
import StackBounds.Proofs.Semantics

/-! The range of a value holds every bit vector that the value can be. -/

namespace StackBounds

open Word (Valid Fits count half signed residue)

namespace Range

variable {range : Range} {bits : UInt32}

/-- The bit vector has the width of the range and is one of its elements. -/
def Describes (range : Range) {bits : Nat} (vector : BitVec bits) : Prop :=
  range.bits.toNat = bits ∧ vector.toNat ∈ range

theorem signed_toNat (vector : BitVec bits.toNat) : signed bits vector.toNat = vector.toInt :=
  (BitVec.toInt_eq_toNat_bmod vector).symm

/-- A described bit vector is a signed element too. -/
theorem Describes.holds {bits : Nat} {vector : BitVec bits} (described : range.Describes vector)
    (wf : range.WellFormed)
    : range.Holds vector.toInt := by
  obtain ⟨rfl, member⟩ := described
  have held := (wf.mem_iff_holds.mp member).2
  rwa [signed_toNat] at held

theorem OfWidth.describes_ofInt (proper : range.OfWidth bits) {value : Int}
    (member : residue bits value ∈ range)
    : range.Describes (BitVec.ofInt bits.toNat value) := by
  refine ⟨congrArg UInt32.toNat proper.bits_eq, ?_⟩
  rw [BitVec.toNat_ofInt]
  exact member

theorem OfWidth.describes_of_isAll (proper : range.OfWidth bits) (all : range.IsAll)
    (vector : BitVec bits.toNat)
    : range.Describes vector := by
  refine ⟨congrArg UInt32.toNat proper.bits_eq, mem_of_isAll all ?_⟩
  rw [proper.bits_eq]
  exact vector.isLt

theorem Describes.of_subset {outer : Range} {bits : Nat} {vector : BitVec bits}
    (described : range.Describes vector) (width : outer.bits = range.bits)
    (included : range ⊆ outer)
    : outer.Describes vector :=
  ⟨(congrArg UInt32.toNat width).trans described.1, included _ described.2⟩

/-- Resizing as signed follows sign extension and truncation. -/
theorem resizeSigned_describes (wf : range.WellFormed) (valid : Valid bits) {resized : Range}
    (result : range.resizeSigned bits = .ok resized)
    : resized.OfWidth bits
      ∧ ∀ {width : Nat} {vector : BitVec width}, range.Describes vector
        → resized.Describes (vector.signExtend bits.toNat) := by
  obtain ⟨_, found, proper, keeps⟩ := resizeSigned_spec wf valid
  cases result.symm.trans found
  exact ⟨proper, fun described => proper.describes_ofInt (keeps _ (described.holds wf))⟩

/-- Resizing as unsigned follows zero extension and truncation. -/
theorem resizeUnsigned_describes (wf : range.WellFormed) (valid : Valid bits) {resized : Range}
    (result : range.resizeUnsigned bits = .ok resized)
    : resized.OfWidth bits
      ∧ ∀ {width : Nat} {vector : BitVec width}, range.Describes vector
        → resized.Describes (vector.setWidth bits.toNat) := by
  obtain ⟨_, found, proper, keeps⟩ := resizeUnsigned_spec wf valid
  cases result.symm.trans found
  refine ⟨proper, fun described => ⟨congrArg UInt32.toNat proper.bits_eq, ?_⟩⟩
  rw [BitVec.toNat_setWidth]
  exact keeps _ described.2

end Range

-----------------------------------------------------------------------------------------
-- Arithmetic
-----------------------------------------------------------------------------------------

/-- The arithmetic of an operation before its result is cut to a width. -/
def BinaryOp.unbounded? : BinaryOp → Option (Int → Int → Int)
  | .add => some (· + ·)
  | .sub => some (· - ·)
  | .mul => some (· * ·)
  | _ => none

theorem PointerWidth.valid_bits (pointer : PointerWidth) : Valid pointer.bits := by
  cases pointer <;> decide

namespace Function

variable {bits : UInt32}

theorem valid_width (pointer : PointerWidth) (value : Value) : Valid (width pointer value) := by
  unfold width
  cases found : value.ty.intBits with
  | none => exact pointer.valid_bits
  | some bits =>
      rw [Option.getD_some]
      unfold Ty.intBits at found
      split at found <;> cases found <;> decide

/-- An interval between extreme results covers every result. -/
theorem ofSignedBounds_covers (valid : Valid bits) {least greatest : Int} {range : Range}
    (result : Range.ofSignedBounds bits least greatest = .ok range)
    : range.OfWidth bits
      ∧ ∀ value, least ≤ value → value ≤ greatest → residue bits value ∈ range := by
  have ordered : least ≤ greatest := by
    rcases Int.lt_or_le greatest least with reversed | ordered
    · rw [Range.ofSignedBounds, if_pos reversed] at result
      cases result
    · exact ordered
  obtain ⟨_, found, proper, covers, _⟩ := Range.ofSignedBounds_spec valid ordered
  cases result.symm.trans found
  exact ⟨proper, covers⟩

/-- The products of two intervals lie between the products of their ends. -/
theorem mul_between_corners {a b c d x y : Int} (hx : a ≤ x ∧ x ≤ b) (hy : c ≤ y ∧ y ≤ d)
    : min (min (a * c) (a * d)) (min (b * c) (b * d)) ≤ x * y
      ∧ x * y ≤ max (max (a * c) (a * d)) (max (b * c) (b * d)) := by
  have outer := Range.mul_between hx.1 hx.2 y
  have left := Range.mul_between hy.1 hy.2 a
  have right := Range.mul_between hy.1 hy.2 b
  simp only [Int.mul_comm _ a, Int.mul_comm _ b] at left right
  omega

theorem binaryRange_covers {op : BinaryOp} {lhs rhs range : Range} (wfLhs : lhs.WellFormed)
    (wfRhs : rhs.WellFormed) (valid : Valid bits)
    (result : binaryRange op bits lhs rhs = .ok range)
    : range.OfWidth bits
      ∧ (range.IsAll
        ∨ ∃ compute, op.unbounded? = some compute
          ∧ ∀ x y, lhs.Holds x → rhs.Holds y → residue bits (compute x y) ∈ range) := by
  unfold binaryRange at result
  by_cases none : (lhs.isEmpty || rhs.isEmpty) = true
  · rw [if_pos none] at result
    exact (Range.full_spec valid result).imp_right Or.inl
  rw [if_neg none] at result
  simp only [Bool.or_eq_true, Range.isEmpty_iff, not_or] at none
  obtain ⟨lhsMin, hlhsMin, _, lhsLeast⟩ := wfLhs.signedMin_spec none.1
  obtain ⟨lhsMax, hlhsMax, _, lhsGreatest⟩ := wfLhs.signedMax_spec none.1
  obtain ⟨rhsMin, hrhsMin, _, rhsLeast⟩ := wfRhs.signedMin_spec none.2
  obtain ⟨rhsMax, hrhsMax, _, rhsGreatest⟩ := wfRhs.signedMax_spec none.2
  simp only [hlhsMin, hlhsMax, hrhsMin, hrhsMax, ok_bind] at result
  cases op with
  | add =>
      obtain ⟨proper, covers⟩ := ofSignedBounds_covers valid result
      refine ⟨proper, Or.inr ⟨_, rfl, fun x y hx hy => ?_⟩⟩
      have := lhsLeast x hx
      have := lhsGreatest x hx
      have := rhsLeast y hy
      have := rhsGreatest y hy
      exact covers _ (by omega) (by omega)
  | sub =>
      obtain ⟨proper, covers⟩ := ofSignedBounds_covers valid result
      refine ⟨proper, Or.inr ⟨_, rfl, fun x y hx hy => ?_⟩⟩
      have := lhsLeast x hx
      have := lhsGreatest x hx
      have := rhsLeast y hy
      have := rhsGreatest y hy
      exact covers _ (by omega) (by omega)
  | mul =>
      obtain ⟨proper, covers⟩ := ofSignedBounds_covers valid result
      refine ⟨proper, Or.inr ⟨_, rfl, fun x y hx hy => ?_⟩⟩
      obtain ⟨above, below⟩ := mul_between_corners ⟨lhsLeast x hx, lhsGreatest x hx⟩
        ⟨rhsLeast y hy, rhsGreatest y hy⟩
      exact covers _ above below
  | _ => exact (Range.full_spec valid result).imp_right Or.inl

-----------------------------------------------------------------------------------------
-- Values
-----------------------------------------------------------------------------------------

/-- A range denotes a set that holds every bit vector that a value can be. -/
structure Bounds (possible : Possible) (id : ValueId) (range : Range) : Prop where
  wellFormed : range.WellFormed
  describes : ∀ {bits : Nat} {vector : BitVec bits}, vector ∈ possible id bits
    → range.Describes vector

/-- A constant fits the width of its type. -/
theorem fits_immediate (imm : Immediate) : ∃ bits, imm.ty.intBits = some bits ∧ Valid bits
    ∧ Fits bits imm.toInt := by
  cases imm with
  | i1 value => cases value <;> exact ⟨1, rfl, by decide, by decide⟩
  | i8 value => exact ⟨8, rfl, by decide, value.le_toInt, value.toInt_lt⟩
  | i16 value => exact ⟨16, rfl, by decide, value.le_toInt, value.toInt_lt⟩
  | i32 value => exact ⟨32, rfl, by decide, value.le_toInt, value.toInt_lt⟩
  | i64 value => exact ⟨64, rfl, by decide, value.le_toInt, value.toInt_lt⟩

section Semantics

variable {func : Function} {pointer : PointerWidth} {possible : Possible}
  (closed : possible.Closed func pointer)

include closed

/-- A value about which nothing is known is bounded by the full set of its width. -/
theorem bounds_full {id : ValueId} {value : Value} {range : Range}
    (found : func.value id = .ok value)
    (result : Range.full (width pointer value) = .ok range)
    : Bounds possible id range := by
  obtain ⟨proper, all⟩ := Range.full_spec (valid_width pointer value) result
  refine ⟨proper.wellFormed, fun can => ?_⟩
  cases closed.width found can
  exact proper.describes_of_isAll all _

theorem bounds_constant {id : ValueId} {imm : Immediate} {range : Range}
    (found : func.value id = .ok (.constant imm))
    (result : Range.singleton (width pointer (.constant imm)) imm.toInt = .ok range)
    : Bounds possible id range := by
  obtain ⟨bits, width, valid, fits⟩ := fits_immediate imm
  have same : Function.width pointer (.constant imm) = bits := by
    simp [Function.width, Value.ty, width]
  rw [same] at result
  obtain ⟨_, built, proper, _, elements⟩ := Range.singleton_spec valid fits
  cases result.symm.trans built
  refine ⟨proper.wellFormed, fun can => ?_⟩
  cases same ▸ closed.width found can
  rw [closed.constant found can]
  have member := ((elements _).mpr rfl).2
  exact proper.describes_ofInt (proper.bits_eq ▸ member)

/-- The constant that is found for a mask is the only bit vector of its value. -/
theorem toNat_le_of_nonNegative {id : ValueId} {mask : Int}
    (found : func.nonNegative? id = .ok (some mask)) {bits : Nat} {vector : BitVec bits}
    (can : vector ∈ possible id bits)
    : (vector.toNat : Int) ≤ mask := by
  obtain ⟨value, foundValue, result⟩ := exists_of_bind_eq_ok found
  cases value with
  | result inst ty => cases result
  | argument ty index => cases result
  | constant imm =>
      simp only [Value.immediate?, Option.map_some, pure_eq_ok, Except.ok.injEq,
        Option.filter_eq_some_iff, Option.some.injEq, decide_eq_true_eq] at result
      obtain ⟨rfl, positive⟩ := result
      rw [closed.constant foundValue can, BitVec.toNat_ofInt]
      obtain ⟨number, same⟩ := Int.eq_ofNat_of_zero_le positive
      have small := Nat.mod_le number (2 ^ bits)
      rw [same, ← Int.natCast_mod, Int.toNat_natCast]
      omega

/-- A conjunction with a mask is at most the mask. -/
theorem maskedRange_covers {bits : UInt32} {lhs rhs : ValueId} {range : Range}
    (valid : Valid bits) (result : func.maskedRange bits lhs rhs = .ok range)
    : range.OfWidth bits
      ∧ ∀ x ∈ possible lhs bits.toNat, ∀ y ∈ possible rhs bits.toNat,
        range.Describes (x &&& y) := by
  have masked {mask : Int} (built : Range.ofSignedBounds bits 0 mask = .ok range)
      {vector : BitVec bits.toNat} (small : (vector.toNat : Int) ≤ mask)
      : range.Describes vector := by
    obtain ⟨proper, covers⟩ := ofSignedBounds_covers valid built
    have described := proper.describes_ofInt (covers vector.toNat (by omega) small)
    rwa [BitVec.ofInt_natCast, BitVec.ofNat_toNat, BitVec.setWidth_eq] at described
  obtain ⟨first, foundFirst, result⟩ := exists_of_bind_eq_ok result
  cases first with
  | some mask =>
      refine ⟨(ofSignedBounds_covers valid result).1, fun x hx y hy => masked result ?_⟩
      have bound := toNat_le_of_nonNegative closed foundFirst hx
      have smaller : x.toNat &&& y.toNat ≤ x.toNat := Nat.and_le_left
      rw [BitVec.toNat_and]
      omega
  | none =>
      obtain ⟨second, foundSecond, result⟩ := exists_of_bind_eq_ok result
      cases second with
      | some mask =>
          refine ⟨(ofSignedBounds_covers valid result).1, fun x hx y hy => masked result ?_⟩
          have bound := toNat_le_of_nonNegative closed foundSecond hy
          have smaller : x.toNat &&& y.toNat ≤ y.toNat := Nat.and_le_right
          rw [BitVec.toNat_and]
          omega
      | none =>
          obtain ⟨proper, all⟩ := Range.full_spec valid result
          exact ⟨proper, fun _ _ _ _ => proper.describes_of_isAll all _⟩

-----------------------------------------------------------------------------------------
-- Instructions
-----------------------------------------------------------------------------------------

variable {bits : UInt32} {operand : ValueId → Except Fault Range}
  (sound : ∀ id range, operand id = .ok range → Bounds possible id range)

omit closed in
/-- A union that has an answer holds what either range holds. -/
theorem union_covers {left right range : Range} (wfLeft : left.WellFormed)
    (wfRight : right.WellFormed) (result : left.union .signed right = .ok range)
    : range.OfWidth left.bits ∧ right.bits = left.bits ∧ left ⊆ range ∧ right ⊆ range := by
  have width : left.bits = right.bits := by
    by_contra differ
    simp [Range.union, Range.requireSameWidth, differ] at result
  obtain ⟨_, found, proper, forth, back⟩ := Range.union_spec wfLeft wfRight width .signed
  cases result.symm.trans found
  exact ⟨proper, width.symm, forth, back⟩

include sound

omit closed in
/-- A union over several values holds what any of them can be; by induction on the values. -/
theorem foldlM_union_covers {values : List ValueId} {known range : Range}
    (wf : known.WellFormed)
    (result : values.foldlM (fun known value => do known.union .signed (← operand value)) known
      = .ok range)
    : range.WellFormed ∧ range.bits = known.bits ∧ known ⊆ range
      ∧ ∀ value ∈ values, ∀ {width : Nat} {vector : BitVec width},
        vector ∈ possible value width → range.Describes vector := by
  induction values generalizing known with
  | nil =>
      cases result
      exact ⟨wf, rfl, Range.subset_refl _, by simp⟩
  | cons value rest ih =>
      rw [List.foldlM_cons] at result
      obtain ⟨joined, first, result⟩ := exists_of_bind_eq_ok result
      obtain ⟨next, evaluated, joins⟩ := exists_of_bind_eq_ok first
      have bounds := sound value next evaluated
      obtain ⟨proper, same, forth, back⟩ := union_covers wf bounds.wellFormed joins
      obtain ⟨wfRange, width, grows, covers⟩ := ih proper.wellFormed result
      refine ⟨wfRange, width.trans proper.bits_eq, Range.subset_trans forth grows, ?_⟩
      intro input member
      rcases List.mem_cons.mp member with rfl | later
      · intro _ vector can
        exact (bounds.describes can).of_subset
          (width.trans (proper.bits_eq.trans same.symm)) (Range.subset_trans back grows)
      · exact covers input later

omit closed sound in
theorem ofInt_sub_toInt {width : Nat} (x y : BitVec width)
    : BitVec.ofInt width (x.toInt - y.toInt) = x - y := by
  apply BitVec.eq_of_toInt_eq
  rw [BitVec.toInt_ofInt, BitVec.toInt_sub]

/-- Arithmetic on bit vectors is that on their signed numbers, cut to the width. -/
theorem binary_covers {op : BinaryOp} {lhs rhs : ValueId} {range : Range} (valid : Valid bits)
    (result : func.instRange bits operand (.binary op lhs rhs) = .ok range)
    : range.OfWidth bits
      ∧ ∀ vector : BitVec bits.toNat, (Inst.binary op lhs rhs).Yields possible vector
        → range.Describes vector := by
  by_cases conjunction : op = .and
  · subst conjunction
    obtain ⟨proper, covers⟩ := maskedRange_covers closed valid result
    refine ⟨proper, ?_⟩
    rintro _ ⟨x, hx, y, hy, rfl⟩
    exact covers x hx y hy
  have result : (do
      let lhsRange ← operand lhs
      let rhsRange ← operand rhs
      binaryRange op bits lhsRange rhsRange) = .ok range := by
    cases op <;> first | exact result | exact absurd rfl conjunction
  obtain ⟨lhsRange, evaluatedLhs, result⟩ := exists_of_bind_eq_ok result
  obtain ⟨rhsRange, evaluatedRhs, result⟩ := exists_of_bind_eq_ok result
  have lhsBounds := sound lhs lhsRange evaluatedLhs
  have rhsBounds := sound rhs rhsRange evaluatedRhs
  obtain ⟨proper, all | ⟨compute, arithmetic, covers⟩⟩ :=
    binaryRange_covers lhsBounds.wellFormed rhsBounds.wellFormed valid result
  · exact ⟨proper, fun vector _ => proper.describes_of_isAll all vector⟩
  refine ⟨proper, ?_⟩
  have described {x y : BitVec bits.toNat} (hx : x ∈ possible lhs bits.toNat)
      (hy : y ∈ possible rhs bits.toNat)
      : range.Describes (BitVec.ofInt bits.toNat (compute x.toInt y.toInt)) :=
    proper.describes_ofInt (covers _ _ ((lhsBounds.describes hx).holds lhsBounds.wellFormed)
      ((rhsBounds.describes hy).holds rhsBounds.wellFormed))
  cases op with
  | add =>
      cases arithmetic
      rintro _ ⟨x, hx, y, hy, rfl⟩
      have sum := described hx hy
      rwa [BitVec.ofInt_add, BitVec.ofInt_toInt, BitVec.ofInt_toInt] at sum
  | sub =>
      cases arithmetic
      rintro _ ⟨x, hx, y, hy, rfl⟩
      have difference := described hx hy
      rwa [ofInt_sub_toInt] at difference
  | mul =>
      cases arithmetic
      rintro _ ⟨x, hx, y, hy, rfl⟩
      have product := described hx hy
      rwa [BitVec.ofInt_mul, BitVec.ofInt_toInt, BitVec.ofInt_toInt] at product
  | _ => cases arithmetic

omit closed in
theorem cast_covers {op : CastOp} {arg : ValueId} {ty : Ty} {range : Range} (valid : Valid bits)
    (result : func.instRange bits operand (.cast op arg ty) = .ok range)
    : range.OfWidth bits
      ∧ ∀ vector : BitVec bits.toNat, (Inst.cast op arg ty).Yields possible vector
        → range.Describes vector := by
  obtain ⟨source, evaluated, result⟩ := exists_of_bind_eq_ok result
  have bounds := sound arg source evaluated
  have full (h : Range.full bits = .ok range)
      : range.OfWidth bits ∧ ∀ vector : BitVec bits.toNat, True → range.Describes vector := by
    obtain ⟨proper, all⟩ := Range.full_spec valid h
    exact ⟨proper, fun vector _ => proper.describes_of_isAll all vector⟩
  cases op with
  | sext =>
      obtain ⟨proper, keeps⟩ := Range.resizeSigned_describes bounds.wellFormed valid result
      refine ⟨proper, ?_⟩
      rintro _ ⟨narrow, x, hx, rfl⟩
      exact keeps (bounds.describes hx)
  | zext =>
      obtain ⟨proper, keeps⟩ := Range.resizeUnsigned_describes bounds.wellFormed valid result
      refine ⟨proper, ?_⟩
      rintro _ ⟨narrow, x, hx, rfl⟩
      exact keeps (bounds.describes hx)
  | trunc =>
      obtain ⟨proper, keeps⟩ := Range.resizeSigned_describes bounds.wellFormed valid result
      refine ⟨proper, ?_⟩
      rintro _ ⟨wide, narrower, x, hx, rfl⟩
      rw [← BitVec.signExtend_eq_setWidth_of_le x narrower]
      exact keeps (bounds.describes hx)
  | bitcast =>
      obtain ⟨proper, keeps⟩ := Range.resizeSigned_describes bounds.wellFormed valid result
      refine ⟨proper, ?_⟩
      rintro _ ⟨other, x, hx, rfl⟩
      exact keeps (bounds.describes hx)
  | ptrToInt => exact full result
  | intToPtr => exact full result

/-- The range of an instruction's result holds whatever the operands can make of it. -/
theorem instRange_covers {op : Inst} {range : Range} (valid : Valid bits)
    (result : func.instRange bits operand op = .ok range)
    : range.WellFormed
      ∧ ∀ vector : BitVec bits.toNat, op.Yields possible vector → range.Describes vector := by
  cases op with
  | binary op lhs rhs =>
      obtain ⟨proper, covers⟩ := binary_covers closed sound valid result
      exact ⟨proper.wellFormed, covers⟩
  | cast op arg ty =>
      obtain ⟨proper, covers⟩ := cast_covers sound valid result
      exact ⟨proper.wellFormed, covers⟩
  | select cond then_ else_ =>
      obtain ⟨thenRange, evaluatedThen, result⟩ := exists_of_bind_eq_ok result
      obtain ⟨elseRange, evaluatedElse, result⟩ := exists_of_bind_eq_ok result
      have thenBounds := sound then_ thenRange evaluatedThen
      have elseBounds := sound else_ elseRange evaluatedElse
      obtain ⟨proper, width, forth, back⟩ :=
        union_covers thenBounds.wellFormed elseBounds.wellFormed result
      refine ⟨proper.wellFormed, ?_⟩
      rintro vector (can | can)
      · exact (thenBounds.describes can).of_subset proper.bits_eq forth
      · exact (elseBounds.describes can).of_subset (proper.bits_eq.trans width.symm) back
  | phi values blocks ty =>
      obtain ⟨start, nothing, result⟩ := exists_of_bind_eq_ok result
      cases (Range.empty_eq valid).symm.trans nothing
      obtain ⟨wf, _, _, covers⟩ :=
        foldlM_union_covers sound (Range.ofWidth_bottom valid).wellFormed result
      refine ⟨wf, ?_⟩
      rintro vector ⟨value, member, can⟩
      exact covers value member can
  | _ =>
      obtain ⟨proper, all⟩ := Range.full_spec valid result
      exact ⟨proper.wellFormed, fun vector _ => proper.describes_of_isAll all vector⟩

omit sound in
/-- The range of a value holds whatever the value can be; by induction on the values that are not
being evaluated yet.
-/
theorem rangeOf_bounds (fresh : List ValueId) {id : ValueId} {range : Range}
    (result : func.rangeOf pointer fresh id = .ok range)
    : Bounds possible id range := by
  induction size : fresh.length using Nat.strongRecOn generalizing fresh id range with
  | ind _ ih =>
    rw [rangeOf] at result
    obtain ⟨value, found, result⟩ := exists_of_bind_eq_ok result
    cases value with
    | constant imm => exact bounds_constant closed found result
    | argument ty index => exact bounds_full closed found result
    | result inst ty =>
        simp only at result
        split at result
        · rename_i member
          obtain ⟨op, foundOp, result⟩ := exists_of_bind_eq_ok result
          have shorter := length_erase_lt member
          have sound : ∀ id range, func.rangeOf pointer (fresh.erase _) id = .ok range
              → Bounds possible id range :=
            fun _ _ evaluated => ih _ (size ▸ shorter) _ evaluated rfl
          obtain ⟨wf, covers⟩ := instRange_covers closed sound (valid_width pointer _) result
          refine ⟨wf, fun can => ?_⟩
          cases closed.width found can
          exact covers _ (closed.result found foundOp can)
        · exact bounds_full closed found result

end Semantics

end Function

end StackBounds
