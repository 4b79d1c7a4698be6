import StackBounds.Proofs.Range.Cover
import StackBounds.Proofs.Range.SignedSums
import StackBounds.Proofs.Values

/-! An address that is found to be a root and a range of offsets points nowhere else, and the
bytes of an access are in the range that is computed for it.
-/

namespace StackBounds

open Word (Valid Fits half)

namespace Range

variable {range first second : Range} {bits : UInt32}

/-- A range that is of no use holds nothing, everything, or passes the end of the signed numbers. -/
def Unusable (range : Range) : Prop :=
  range.IsNone ∨ range.IsAll ∨ range.high < range.low

instance (range : Range) : Decidable range.Unusable := inferInstanceAs (Decidable (_ ∨ _ ∨ _))

theorem Allows.holds {value : Int} (allowed : range.Allows value) (usable : ¬ range.Unusable)
    : range.Holds value :=
  allowed.resolve_left fun all => usable (Or.inr (Or.inl all))

end Range

namespace Function

open Range (Unusable)

variable {bits : UInt32}

/-- Moving an offset covers the sum of any two offsets. -/
theorem addOffsets_covers {first second range : Range} (properFirst : first.OfWidth bits)
    (properSecond : second.OfWidth bits) (result : addOffsets first second = .ok range)
    : range.OfWidth bits
      ∧ ∀ x y, first.Allows x → second.Allows y → range.Allows (x + y) := by
  have valid : Valid bits := properFirst.bits_eq ▸ properFirst.wellFormed.valid
  have full (h : Range.full first.bits = .ok range)
      : range.OfWidth bits ∧ ∀ x y, first.Allows x → second.Allows y → range.Allows (x + y) := by
    obtain ⟨proper, all⟩ := Range.full_spec valid (properFirst.bits_eq ▸ h)
    exact ⟨proper, fun _ _ _ _ => Or.inl all⟩
  rw [addOffsets, properFirst.wellFormed.isUnusable_eq, properSecond.wellFormed.isUnusable_eq]
    at result
  simp only [ok_bind, decide_eq_true_eq] at result
  split at result
  · exact full result
  split at result
  · exact full result
  rename_i usableFirst usableSecond
  have width : second.bits = first.bits := properSecond.bits_eq.trans properFirst.bits_eq.symm
  obtain ⟨_, found, meets⟩ :=
    Range.addSigned_spec properFirst.wellFormed properSecond.wellFormed width
  cases result.symm.trans found
  refine ⟨properFirst.bits_eq ▸ meets.ofWidth, fun x y allowedX allowedY => ?_⟩
  exact meets.covers (allowedX.holds usableFirst) (allowedY.holds usableSecond)

section Semantics

variable {func : Function} {pointer : PointerWidth} {possible : Possible}

/-- An address only points to the root, at offsets of the range. -/
structure Locates (func : Function) (pointer : PointerWidth) (possible : Possible)
    (addr : ValueId) (rooted : Rooted)
    : Prop where
  ofWidth : rooted.offset.OfWidth pointer.bits
  points : ∀ {root offset}, func.Points pointer possible addr root offset
    → root = rooted.root ∧ rooted.offset.Allows offset

variable {rooted : ValueId → Except Fault (Option Rooted)}
  (locates : ∀ addr found, rooted addr = .ok (some found)
    → func.Locates pointer possible addr found)

include locates

/-- A merge points where the merged addresses do; by induction on the addresses. -/
theorem mergeRooted_locates {addrs : List ValueId} {merged : Option Rooted} {final : Rooted}
    (proper : ∀ known ∈ merged, known.offset.OfWidth pointer.bits)
    (result : mergeRooted rooted merged addrs = .ok (some final))
    : final.offset.OfWidth pointer.bits
      ∧ (∀ known ∈ merged, known.root = final.root ∧ known.offset ⊆ final.offset)
      ∧ ∀ addr ∈ addrs, ∀ {root offset}, func.Points pointer possible addr root offset
        → root = final.root ∧ final.offset.Allows offset := by
  induction addrs generalizing merged with
  | nil =>
      cases result
      refine ⟨proper final rfl, ?_, by simp⟩
      rintro _ ⟨⟩
      exact ⟨rfl, Range.subset_refl _⟩
  | cons addr rest ih =>
      rw [mergeRooted] at result
      obtain ⟨answer, evaluated, result⟩ := exists_of_bind_eq_ok result
      cases answer with
      | none => cases result
      | some next =>
        have located := locates addr next evaluated
        -- The rest of the merge starts from a range that covers this address.
        have finish (start : Rooted) (properStart : start.offset.OfWidth pointer.bits)
            (root : start.root = next.root) (covers : next.offset ⊆ start.offset)
            (later : mergeRooted rooted (some start) rest = .ok (some final))
            : final.offset.OfWidth pointer.bits
              ∧ (start.root = final.root ∧ start.offset ⊆ final.offset)
              ∧ ∀ input ∈ addr :: rest, ∀ {root offset},
                func.Points pointer possible input root offset
                → root = final.root ∧ final.offset.Allows offset := by
          obtain ⟨properFinal, keeps, covered⟩ :=
            ih (by rintro _ ⟨⟩; exact properStart) later
          obtain ⟨sameRoot, included⟩ := keeps start rfl
          refine ⟨properFinal, ⟨sameRoot, included⟩, fun input member => ?_⟩
          rcases List.mem_cons.mp member with rfl | member
          · intro _ _ points
            obtain ⟨same, allowed⟩ := located.points points
            refine ⟨same.trans (root.symm.trans sameRoot), ?_⟩
            exact allowed.of_subset located.ofWidth.wellFormed properFinal.wellFormed
              (located.ofWidth.bits_eq.trans properFinal.bits_eq.symm)
              (Range.subset_trans covers included)
          · exact covered input member
        cases merged with
        | none =>
            obtain ⟨properFinal, _, covered⟩ :=
              finish next located.ofWidth rfl (Range.subset_refl _) result
            exact ⟨properFinal, by simp, covered⟩
        | some known =>
            simp only at result
            split at result
            · rename_i same
              obtain ⟨offset, covering, result⟩ := exists_of_bind_eq_ok result
              have properKnown := proper known rfl
              have width := properKnown.bits_eq.trans located.ofWidth.bits_eq.symm
              obtain ⟨_, found, properOffset, _, left, right⟩ :=
                Range.cover_spec properKnown.wellFormed located.ofWidth.wellFormed width
              cases covering.symm.trans found
              obtain ⟨properFinal, ⟨sameRoot, included⟩, covered⟩ :=
                finish ⟨next.root, offset⟩ (properKnown.bits_eq ▸ properOffset) rfl right result
              refine ⟨properFinal, ?_, covered⟩
              rintro _ ⟨⟩
              exact ⟨same.trans sameRoot, Range.subset_trans left included⟩
            · cases result

-----------------------------------------------------------------------------------------
-- Instructions that make addresses
-----------------------------------------------------------------------------------------

omit locates

/-- Where the result of an instruction can point, by the instruction. -/
theorem Points.of_inst {addr root : ValueId} {offset : Int} {inst : InstId} {ty : Ty} {op : Inst}
    (points : func.Points pointer possible addr root offset)
    (value : func.value addr = .ok (.result inst ty)) (found : func.inst inst = .ok op)
    : match op with
      | .cast .bitcast arg _ => func.Points pointer possible arg root offset
      | .ptrAdd base number => ∃ start bits, ∃ step ∈ possible number bits,
          func.Points pointer possible base root start
            ∧ offset = start + (step.signExtend pointer.bits.toNat).toInt
      | .elemPtr base index elem => ∃ start bits, ∃ step ∈ possible index bits, ∃ bytes,
          (elem.size pointer).Admits bytes
            ∧ func.Points pointer possible base root start
            ∧ offset = start + (step.signExtend pointer.bits.toNat).toInt * bytes
      | .select _ then_ else_ =>
          ∃ arm ∈ [then_, else_], func.Points pointer possible arm root offset
      | .phi values _ _ => ∃ input ∈ values, func.Points pointer possible input root offset
      | _ => root = addr ∧ offset = 0 := by
  cases points with
  | root own =>
      obtain ⟨_, foundValue, still⟩ := own
      cases value.symm.trans foundValue
      obtain ⟨_, foundOp, fixed⟩ := still inst rfl
      cases found.symm.trans foundOp
      split <;> first | cases fixed | exact ⟨rfl, rfl⟩
  | bitcast foundValue foundOp points =>
      cases value.symm.trans foundValue
      cases found.symm.trans foundOp
      exact points
  | ptrAdd foundValue foundOp points can =>
      cases value.symm.trans foundValue
      cases found.symm.trans foundOp
      exact ⟨_, _, _, can, points, rfl⟩
  | elemPtr foundValue foundOp points can size =>
      cases value.symm.trans foundValue
      cases found.symm.trans foundOp
      exact ⟨_, _, _, can, _, size, points, rfl⟩
  | select foundValue foundOp taken points =>
      cases value.symm.trans foundValue
      cases found.symm.trans foundOp
      exact ⟨_, taken, points⟩
  | phi foundValue foundOp taken points =>
      cases value.symm.trans foundValue
      cases found.symm.trans foundOp
      exact ⟨_, taken, points⟩

/-- A value that no instruction results in is its own root. -/
theorem Points.of_not_result {addr root : ValueId} {offset : Int} {value : Value}
    (points : func.Points pointer possible addr root offset)
    (found : func.value addr = .ok value) (free : value.inst? = none)
    : root = addr ∧ offset = 0 := by
  cases points with
  | root own => exact ⟨rfl, rfl⟩
  | bitcast foundValue _ _ => cases found.symm.trans foundValue; cases free
  | ptrAdd foundValue _ _ _ => cases found.symm.trans foundValue; cases free
  | elemPtr foundValue _ _ _ _ => cases found.symm.trans foundValue; cases free
  | select foundValue _ _ _ => cases found.symm.trans foundValue; cases free
  | phi foundValue _ _ _ => cases found.symm.trans foundValue; cases free

/-- A root is at no distance from itself. -/
theorem locates_self {addr : ValueId} {range : Range}
    (result : Range.singleton pointer.bits 0 = .ok range)
    (own : ∀ {root offset}, func.Points pointer possible addr root offset
      → root = addr ∧ offset = 0)
    : func.Locates pointer possible addr ⟨addr, range⟩ := by
  have fits : Fits pointer.bits 0 := by cases pointer <;> decide
  obtain ⟨_, built, proper, _, elements⟩ := Range.singleton_spec pointer.valid_bits fits
  cases result.symm.trans built
  refine ⟨proper, fun points => ?_⟩
  obtain ⟨rfl, rfl⟩ := own points
  exact ⟨rfl, Or.inr ((elements 0).mpr rfl)⟩

/-- A size that is fixed and was not cut is the number of bytes on every run. -/
theorem eq_of_admits {size : TypeSize} {bytes number : Nat} (fixed : size.fixed? = some number)
    (whole : number < maxBytes) (admits : size.Admits bytes)
    : bytes = number := by
  unfold TypeSize.fixed? at fixed
  split at fixed
  · cases fixed
  · rename_i scalable
    cases fixed
    rw [TypeSize.Admits, if_neg] at admits
    · exact admits
    · rintro (h | h)
      · exact scalable h
      · omega

variable {number : ValueId → Except Fault Range}
  (sound : ∀ id range, number id = .ok range → Bounds possible id range)

include sound

/-- The offset of an index covers every multiple of the size. -/
theorem elemOffset_covers {elem : Ty} {index : ValueId} {range : Range}
    (result : elemOffset pointer elem (number index) = .ok range)
    : range.OfWidth pointer.bits
      ∧ ∀ {bits : Nat} {step : BitVec bits} {bytes : Nat}, step ∈ possible index bits
        → (elem.size pointer).Admits bytes
        → range.Allows ((step.signExtend pointer.bits.toNat).toInt * bytes) := by
  have valid := pointer.valid_bits
  unfold elemOffset at result
  split at result
  · rename_i size fixed
    obtain ⟨source, evaluated, result⟩ := exists_of_bind_eq_ok result
    obtain ⟨resized, resizing, result⟩ := exists_of_bind_eq_ok result
    have bounds := sound index source evaluated
    obtain ⟨proper, keeps⟩ := Range.resizeSigned_describes bounds.wellFormed valid resizing
    obtain ⟨_, scaling, properScaled, covers⟩ := Range.scale_spec proper.wellFormed size
    cases result.symm.trans scaling
    refine ⟨proper.bits_eq ▸ properScaled, fun can admits => ?_⟩
    obtain ⟨fixed, small⟩ := Option.filter_eq_some_iff.mp fixed
    have whole : size < maxBytes :=
      Nat.lt_of_le_of_lt (of_decide_eq_true small) (by decide)
    rw [eq_of_admits fixed whole admits]
    exact covers _ ((keeps (bounds.describes can)).holds proper.wellFormed)
  · obtain ⟨proper, all⟩ := Range.full_spec valid result
    exact ⟨proper, fun _ _ => Or.inl all⟩

omit sound in
/-- A moved address has an answer only where there was one to move. -/
theorem exists_move_of_mapM {base : ValueId} {step : Range} {final : Rooted}
    (result : (do (← rooted base).mapM (Rooted.move step)) = .ok (some final))
    : ∃ known : Rooted, rooted base = .ok (some known) ∧ known.move step = .ok final := by
  obtain ⟨answer, evaluated, result⟩ := exists_of_bind_eq_ok result
  cases answer with
  | none => cases result
  | some known =>
      refine ⟨known, evaluated, ?_⟩
      rw [Option.mapM_some] at result
      cases moved : known.move step with
      | error fault => simp [moved] at result
      | ok next =>
          rw [moved, map_ok] at result
          cases result
          rfl

include locates

omit sound in
/-- Moving a located address covers every step that the moving offset allows. -/
theorem move_locates {base : ValueId} {step : Range} {final : Rooted}
    (proper : step.OfWidth pointer.bits)
    (result : (do (← rooted base).mapM (Rooted.move step)) = .ok (some final))
    : final.offset.OfWidth pointer.bits
      ∧ ∀ {root start distance}, func.Points pointer possible base root start
        → step.Allows distance → root = final.root ∧ final.offset.Allows (start + distance) := by
  obtain ⟨known, evaluated, moved⟩ := exists_move_of_mapM result
  obtain ⟨offset, summed, moved⟩ := exists_of_bind_eq_ok moved
  cases moved
  have located := locates base known evaluated
  obtain ⟨properSum, covers⟩ := addOffsets_covers located.ofWidth proper summed
  refine ⟨properSum, fun points allowed => ?_⟩
  obtain ⟨same, start⟩ := located.points points
  exact ⟨same, covers _ _ start allowed⟩

/-- The result of an instruction points where its operands make it point. -/
theorem instRooted_locates {addr : ValueId} {inst : InstId} {ty : Ty} {op : Inst} {final : Rooted}
    (value : func.value addr = .ok (.result inst ty)) (found : func.inst inst = .ok op)
    (result : instRooted pointer addr number rooted op = .ok (some final))
    : func.Locates pointer possible addr final := by
  have self
      (h : (do pure (some (Rooted.mk addr (← Range.singleton pointer.bits 0)))) = .ok (some final))
      (own : ∀ {root offset}, func.Points pointer possible addr root offset
        → root = addr ∧ offset = 0)
      : func.Locates pointer possible addr final := by
    obtain ⟨range, single, h⟩ := exists_of_bind_eq_ok h
    cases h
    exact locates_self single own
  cases op with
  | cast op arg target =>
      cases op with
      | bitcast =>
          have located := locates arg final result
          exact ⟨located.ofWidth, fun points => located.points (points.of_inst value found)⟩
      | _ => exact self result fun points => points.of_inst value found
  | ptrAdd base offset =>
      obtain ⟨source, evaluated, result⟩ := exists_of_bind_eq_ok result
      obtain ⟨step, resizing, result⟩ := exists_of_bind_eq_ok result
      have bounds := sound offset source evaluated
      obtain ⟨proper, keeps⟩ :=
        Range.resizeSigned_describes bounds.wellFormed pointer.valid_bits resizing
      obtain ⟨properFinal, moves⟩ := move_locates locates proper result
      refine ⟨properFinal, fun points => ?_⟩
      obtain ⟨start, bits, step, can, before, rfl⟩ := points.of_inst value found
      exact moves before (Or.inr ((keeps (bounds.describes can)).holds proper.wellFormed))
  | elemPtr base index elem =>
      obtain ⟨step, scaling, result⟩ := exists_of_bind_eq_ok result
      obtain ⟨proper, covers⟩ := elemOffset_covers sound scaling
      obtain ⟨properFinal, moves⟩ := move_locates locates proper result
      refine ⟨properFinal, fun points => ?_⟩
      obtain ⟨start, bits, step, can, bytes, admits, before, rfl⟩ := points.of_inst value found
      exact moves before (covers can admits)
  | select cond then_ else_ =>
      obtain ⟨proper, _, covers⟩ := mergeRooted_locates locates (by simp) result
      refine ⟨proper, fun points => ?_⟩
      obtain ⟨arm, taken, points⟩ := points.of_inst value found
      exact covers arm taken points
  | phi values blocks ty =>
      obtain ⟨proper, _, covers⟩ := mergeRooted_locates locates (by simp) result
      refine ⟨proper, fun points => ?_⟩
      obtain ⟨input, taken, points⟩ := points.of_inst value found
      exact covers input taken points
  | _ => exact self result fun points => points.of_inst value found

omit locates sound in
/-- An address only points to the root that is found for it; by induction on the values that are
not being decomposed yet.
-/
theorem decompose_locates (closed : possible.Closed func pointer) (fresh : List ValueId)
    {addr : ValueId} {final : Rooted}
    (result : func.decompose pointer fresh addr = .ok (some final))
    : func.Locates pointer possible addr final := by
  induction size : fresh.length using Nat.strongRecOn generalizing fresh addr final with
  | ind _ ih =>
    rw [decompose] at result
    obtain ⟨value, found, result⟩ := exists_of_bind_eq_ok result
    cases value with
    | result inst ty =>
        simp only at result
        split at result
        · rename_i member
          obtain ⟨op, foundOp, result⟩ := exists_of_bind_eq_ok result
          have shorter := length_erase_lt member
          exact instRooted_locates (fun addr final decomposed =>
              ih _ (size ▸ shorter) _ decomposed rfl)
            (fun _ _ evaluated => rangeOf_bounds closed _ evaluated) found foundOp result
        · cases result
    | _ =>
        obtain ⟨range, single, result⟩ := exists_of_bind_eq_ok result
        cases result
        exact locates_self single fun points => points.of_not_result found rfl

omit locates sound in
/-- The offsets from a base are everything, or an address only points to the base, at one of them.
-/
theorem offsetFrom_locates (closed : possible.Closed func pointer) {addr base : ValueId}
    {range : Range} (result : func.offsetFrom pointer addr base = .ok range)
    : range.OfWidth pointer.bits
      ∧ ∀ {root offset}, func.Points pointer possible addr root offset
        → range.IsAll ∨ (root = base ∧ range.Holds offset) := by
  obtain ⟨answer, decomposed, result⟩ := exists_of_bind_eq_ok result
  have full (h : Range.full pointer.bits = .ok range)
      : range.OfWidth pointer.bits
        ∧ ∀ {root offset}, func.Points pointer possible addr root offset
          → range.IsAll ∨ (root = base ∧ range.Holds offset) :=
    (Range.full_spec pointer.valid_bits h).imp_right fun all _ _ _ => Or.inl all
  cases answer with
  | none => exact full result
  | some rooted =>
      simp only at result
      split at result
      · rename_i same
        cases result
        have located := decompose_locates closed _ decomposed
        refine ⟨located.ofWidth, fun points => ?_⟩
        obtain ⟨sameRoot, allowed⟩ := located.points points
        exact allowed.imp_right fun held => ⟨sameRoot.trans same, held⟩
      · exact full result

end Semantics

end Function

end StackBounds
