import StackBounds.Proofs.Evaluation

/-! What is answered about numbers and addresses is right. The signed range of a value holds every
bit vector that the value can be. The offsets of an address from a base are never empty, and unless
they are unknown the address points nowhere else. Values may depend on themselves.
-/

namespace StackBounds

open Word (Valid Fits)

theorem Range.some_of_full {bits : UInt32} {range : Range} (valid : Valid bits)
    (built : Range.full bits = .ok range)
    : ¬ range.IsNone := by
  obtain ⟨proper, all⟩ := Range.full_spec valid built
  exact fun none => proper.wellFormed.not_isAll_of_isNone none all

theorem Range.Allows.some {range : Range} {value : Int} (allowed : range.Allows value)
    (wf : range.WellFormed)
    : ¬ range.IsNone := by
  intro none
  rcases allowed with all | held
  · exact wf.not_isAll_of_isNone none all
  · exact wf.not_mem_of_isNone none _ held.2

namespace Function

variable {func : Function} {pointer : PointerWidth} {bits : UInt32}

-----------------------------------------------------------------------------------------
-- Offsets are never empty
-----------------------------------------------------------------------------------------

/-- Moving an offset leaves some offset, even where the step is empty: nothing is known then. -/
theorem addOffsets_some {first second range : Range} (properFirst : first.OfWidth bits)
    (properSecond : second.OfWidth bits) (result : addOffsets first second = .ok range)
    : ¬ range.IsNone := by
  have valid := properFirst.wellFormed.valid
  rw [addOffsets, properFirst.wellFormed.isUnusable_eq, properSecond.wellFormed.isUnusable_eq]
    at result
  simp only [ok_bind, decide_eq_true_eq] at result
  split at result
  · exact Range.some_of_full valid result
  split at result
  · exact Range.some_of_full valid result
  rename_i usableFirst usableSecond
  obtain ⟨_, found, meets⟩ := Range.addSigned_spec properFirst.wellFormed properSecond.wellFormed
    (properSecond.bits_eq.trans properFirst.bits_eq.symm)
  cases result.symm.trans found
  have heldFirst := properFirst.wellFormed.holds_low fun none => usableFirst (Or.inl none)
  have heldSecond := properSecond.wellFormed.holds_low fun none => usableSecond (Or.inl none)
  exact (meets.covers heldFirst heldSecond).some meets.ofWidth.wellFormed

/-- What holds of every merged address and is kept when two of them are covered holds of the merge;
by induction on the addresses.
-/
theorem mergeRooted_induction {rooted : ValueId → Except Fault (Option Rooted)}
    {keeps : Rooted → Prop}
    (each : ∀ addr found, rooted addr = .ok (some found) → keeps found)
    (covers : ∀ known next offset, keeps known → keeps next
      → known.offset.cover next.offset = .ok offset → keeps ⟨next.root, offset⟩)
    {addrs : List ValueId} {merged : Option Rooted} {final : Rooted}
    (start : ∀ known ∈ merged, keeps known)
    (result : mergeRooted rooted merged addrs = .ok (some final))
    : keeps final := by
  induction addrs generalizing merged with
  | nil =>
      cases result
      exact start final rfl
  | cons addr rest ih =>
      rw [mergeRooted] at result
      obtain ⟨answer, evaluated, result⟩ := exists_of_bind_eq_ok result
      cases answer with
      | none => cases result
      | some next =>
          have keepsNext := each addr next evaluated
          cases merged with
          | none =>
              refine ih ?_ result
              rintro _ ⟨⟩
              exact keepsNext
          | some known =>
              simp only at result
              split at result
              · obtain ⟨offset, covering, result⟩ := exists_of_bind_eq_ok result
                refine ih ?_ result
                rintro _ ⟨⟩
                exact covers known next offset (start known rfl) keepsNext covering
              · cases result

/-- An address has offsets of the width of pointers, and there is one at least. -/
structure Rooted.IsMoved (pointer : PointerWidth) (rooted : Rooted) : Prop where
  ofWidth : rooted.offset.OfWidth pointer.bits
  some : ¬ rooted.offset.IsNone

theorem Rooted.isMoved_zero {addr : ValueId} {range : Range}
    (result : Range.singleton pointer.bits 0 = .ok range)
    : Rooted.IsMoved pointer ⟨addr, range⟩ := by
  have fits : Fits pointer.bits 0 := by cases pointer <;> decide
  obtain ⟨_, built, proper, _, elements⟩ := Range.singleton_spec pointer.valid_bits fits
  cases result.symm.trans built
  have held : range.Holds 0 := (elements 0).mpr rfl
  exact ⟨proper, fun none => proper.wellFormed.not_mem_of_isNone none _ held.2⟩

theorem Rooted.IsMoved.cover {known next : Rooted} {offset : Range} (moved : known.IsMoved pointer)
    (movedNext : next.IsMoved pointer) (covering : known.offset.cover next.offset = .ok offset)
    : Rooted.IsMoved pointer ⟨next.root, offset⟩ := by
  obtain ⟨_, found, proper, _, included, _⟩ :=
    Range.cover_spec moved.ofWidth.wellFormed movedNext.ofWidth.wellFormed
      (moved.ofWidth.bits_eq.trans movedNext.ofWidth.bits_eq.symm)
  cases covering.symm.trans found
  refine ⟨moved.ofWidth.bits_eq ▸ proper, fun none => moved.some ?_⟩
  exact moved.ofWidth.wellFormed.isNone_of_subset proper.wellFormed none included

theorem Rooted.IsMoved.move {rooted final : Rooted} {step : Range} (moved : rooted.IsMoved pointer)
    (proper : step.OfWidth pointer.bits) (result : rooted.move step = .ok final)
    : final.IsMoved pointer := by
  obtain ⟨sum, added, result⟩ := exists_of_bind_eq_ok result
  cases result
  exact ⟨(addOffsets_covers moved.ofWidth proper added).1,
    addOffsets_some moved.ofWidth proper added⟩

section Instructions

variable {number : ValueId → Except Fault Range} {rooted : ValueId → Except Fault (Option Rooted)}
  (wellFormed : ∀ id range, number id = .ok range → range.WellFormed)
  (moved : ∀ addr found, rooted addr = .ok (some found) → found.IsMoved pointer)

include wellFormed moved

theorem instRooted_isMoved {addr : ValueId} {op : Inst} {final : Rooted}
    (result : instRooted pointer addr number rooted op = .ok (some final))
    : final.IsMoved pointer := by
  have valid := pointer.valid_bits
  have self (h : (do pure (some (Rooted.mk addr (← Range.singleton pointer.bits 0))))
      = .ok (some final)) : final.IsMoved pointer := by
    obtain ⟨range, single, h⟩ := exists_of_bind_eq_ok h
    cases h
    exact Rooted.isMoved_zero single
  have merge {addrs : List ValueId} (h : mergeRooted rooted none addrs = .ok (some final))
      : final.IsMoved pointer :=
    mergeRooted_induction moved (fun _ _ _ known next covering => known.cover next covering)
      (by simp) h
  cases op with
  | cast op arg target =>
      cases op with
      | bitcast => exact moved arg final result
      | _ => exact self result
  | ptrAdd base offset =>
      obtain ⟨source, evaluated, result⟩ := exists_of_bind_eq_ok result
      obtain ⟨step, resizing, result⟩ := exists_of_bind_eq_ok result
      obtain ⟨proper, _⟩ :=
        Range.resizeSigned_describes (wellFormed offset source evaluated) valid resizing
      obtain ⟨known, found, moves⟩ := exists_move_of_mapM result
      exact (moved base known found).move proper moves
  | elemPtr base index elem =>
      obtain ⟨step, scaling, result⟩ := exists_of_bind_eq_ok result
      have bounds (id : ValueId) (range : Range) (evaluated : number id = .ok range)
          : Bounds (fun _ _ => ∅) id range :=
        ⟨wellFormed id range evaluated, fun never => never.elim⟩
      obtain ⟨proper, _⟩ := elemOffset_covers bounds scaling
      obtain ⟨known, found, moves⟩ := exists_move_of_mapM result
      exact (moved base known found).move proper moves
  | select cond then_ else_ => exact merge result
  | phi values blocks ty => exact merge result
  | _ => exact self result

end Instructions

/-- The offsets that are found for an address are not empty; by induction on the values that are not
being decomposed yet.
-/
theorem decompose_isMoved (fresh : List ValueId) {addr : ValueId} {final : Rooted}
    (result : func.decompose pointer fresh addr = .ok (some final))
    : final.IsMoved pointer := by
  induction size : fresh.length using Nat.strongRecOn generalizing fresh addr final with
  | ind _ ih =>
    rw [decompose] at result
    obtain ⟨value, found, result⟩ := exists_of_bind_eq_ok result
    cases value with
    | result inst ty =>
        simp only at result
        split at result
        · rename_i member
          obtain ⟨op, _, result⟩ := exists_of_bind_eq_ok result
          have shorter := length_erase_lt member
          refine instRooted_isMoved (fun id range evaluated => ?_)
            (fun addr final decomposed => ih _ (size ▸ shorter) _ decomposed rfl) result
          exact (rangeOf_bounds (Possible.closed_empty func pointer) _ evaluated).wellFormed
        · cases result
    | _ =>
        obtain ⟨range, single, result⟩ := exists_of_bind_eq_ok result
        cases result
        exact Rooted.isMoved_zero single

theorem offsetFrom_some {addr base : ValueId} {range : Range}
    (result : func.offsetFrom pointer addr base = .ok range)
    : ¬ range.IsNone := by
  have valid := pointer.valid_bits
  obtain ⟨answer, decomposed, result⟩ := exists_of_bind_eq_ok result
  cases answer with
  | none => exact Range.some_of_full valid result
  | some rooted =>
      simp only at result
      split at result
      · cases result
        exact (decompose_isMoved _ decomposed).some
      · exact Range.some_of_full valid result

-----------------------------------------------------------------------------------------
-- Right answers
-----------------------------------------------------------------------------------------

section Answers

variable {possible : Possible} (complete : func.Complete) (typed : func.PicksTyped)
  (closed : possible.Closed func pointer) {id : ValueId} {value : Value}
  (found : func.value id = .ok value)

include complete typed closed found

/-- The signed range of a value has an answer at the width of the value, and it holds every bit
vector that the value can be, also where the value depends on itself.
-/
theorem signedRange_describes_possible
    : ∃ range, func.signedRange pointer id = .ok range
      ∧ range.OfWidth (width pointer value)
      ∧ ∀ {bits : Nat} {vector : BitVec bits}, vector ∈ possible id bits
        → range.Describes vector := by
  obtain ⟨range, evaluated, proper⟩ := exists_rangeOf complete typed pointer func.valueIds found
  exact ⟨range, evaluated, proper, (rangeOf_bounds closed _ evaluated).describes⟩

/-- The offsets of an address from a base have an answer at the width of pointers, which is never
empty. Unless everything is possible, the address only points to the base, and only at offsets that
fit the width and are among the answered ones.
-/
theorem offsetFrom_holds_points (base : ValueId)
    : ∃ range, func.offsetFrom pointer id base = .ok range
      ∧ range.OfWidth pointer.bits
      ∧ ¬ range.IsNone
      ∧ (¬ range.IsAll → ∀ {root offset}, func.Points pointer possible id root offset
        → root = base ∧ range.Holds offset) := by
  obtain ⟨range, answered⟩ := exists_offsetFrom complete typed pointer found base
  obtain ⟨proper, locates⟩ := offsetFrom_locates closed answered
  exact ⟨range, answered, proper, offsetFrom_some answered,
    fun known _ _ points => (locates points).resolve_left known⟩

end Answers

/-- Goes around a buffer of numbers. The index is zero at first, and then one more than the low bits
of the index before: a merge of a constant and of a number that is computed later.
-/
def stride : Function where
  sig := .declared "f" .exported [.i1] .unit
  values := [.argument .i1 0, .constant (.i64 0), .constant (.i64 7), .constant (.i64 1),
    .result ⟨0⟩ .ptr, .result ⟨2⟩ .i64, .result ⟨3⟩ .i64, .result ⟨4⟩ .i64, .result ⟨5⟩ .ptr,
    .result ⟨6⟩ .ptr]
  insts := [.alloca (.array .i32 16) none, .jump ⟨1⟩, .phi [⟨1⟩, ⟨7⟩] [⟨0⟩, ⟨1⟩] .i64,
    .binary .and ⟨5⟩ ⟨2⟩, .binary .add ⟨6⟩ ⟨3⟩, .elemPtr ⟨4⟩ ⟨5⟩ .i32, .select ⟨0⟩ ⟨4⟩ ⟨8⟩,
    .jump ⟨1⟩]
  blockCount := 2
  layout := [⟨⟨0⟩, [⟨0⟩, ⟨1⟩]⟩, ⟨⟨1⟩, [⟨2⟩, ⟨3⟩, ⟨4⟩, ⟨5⟩, ⟨6⟩, ⟨7⟩]⟩]

/-- The numbers that come up in `stride`. -/
def strideNumbers : Possible := fun id bits => {vector | bits = 64
  ∧ (id = ⟨1⟩ ∧ vector.toNat = 0
    ∨ id = ⟨2⟩ ∧ vector.toNat = 7
    ∨ id = ⟨3⟩ ∧ vector.toNat = 1
    ∨ id = ⟨5⟩ ∧ vector.toNat ≤ 8
    ∨ id = ⟨6⟩ ∧ vector.toNat ≤ 7
    ∨ id = ⟨7⟩ ∧ 1 ≤ vector.toNat ∧ vector.toNat ≤ 8)}

theorem stride_complete : stride.Complete := by
  refine ⟨fun id placed => ?_, fun id inst found operand member => ?_, fun id inst ty found => ?_⟩
  · have small : id.index < 8 := by
      simp only [placedInsts, stride, List.flatMap_cons, List.flatMap_nil, List.append_nil,
        List.cons_append, List.nil_append, List.mem_cons, List.not_mem_nil, or_false] at placed
      rcases placed with rfl | rfl | rfl | rfl | rfl | rfl | rfl | rfl <;> decide
    exact ⟨_, inst_eq_ok_iff.mpr (List.getElem?_eq_getElem small)⟩
  · have listed := List.mem_of_getElem? (inst_eq_ok_iff.mp found)
    have small : operand.index < 10 := by
      simp only [stride, List.mem_cons, List.not_mem_nil, or_false] at listed
      rcases listed with rfl | rfl | rfl | rfl | rfl | rfl | rfl | rfl
      all_goals
        revert operand
        decide
    exact ⟨_, value_eq_ok_iff.mpr (List.getElem?_eq_getElem small)⟩
  · obtain ⟨_ | _ | _ | _ | _ | _ | _ | _ | _ | _ | index⟩ := id <;> cases found <;> exact ⟨_, rfl⟩

theorem stride_picksTyped : stride.PicksTyped := by
  intro addr input inst ty value picks found foundInput
  cases picks with
  | select same op taken =>
      obtain ⟨_ | _ | _ | _ | _ | _ | _ | _ | _ | _ | index⟩ := addr <;> cases same <;> cases op
      cases found
      simp only [List.mem_cons, List.not_mem_nil, or_false] at taken
      rcases taken with rfl | rfl <;> cases foundInput <;> rfl
  | phi same op taken =>
      obtain ⟨_ | _ | _ | _ | _ | _ | _ | _ | _ | _ | index⟩ := addr <;> cases same <;> cases op
      cases found
      simp only [List.mem_cons, List.not_mem_nil, or_false] at taken
      rcases taken with rfl | rfl <;> cases foundInput <;> rfl

/-- The numbers of `stride` come from each other, around the cycle. -/
theorem strideNumbers_closed : strideNumbers.Closed stride .w64 := by
  refine ⟨fun {id value bits vector} found can => ?_, fun {id imm bits vector} found can => ?_,
    fun {id inst ty op bits vector} found foundOp can => ?_⟩
  · rcases can with ⟨rfl, ⟨rfl, _⟩ | ⟨rfl, _⟩ | ⟨rfl, _⟩ | ⟨rfl, _⟩ | ⟨rfl, _⟩ | ⟨rfl, _⟩⟩ <;>
      cases found <;> rfl
  · apply BitVec.eq_of_toNat_eq
    rcases can with ⟨rfl, ⟨rfl, number⟩ | ⟨rfl, number⟩ | ⟨rfl, number⟩ | ⟨rfl, _⟩ | ⟨rfl, _⟩
      | ⟨rfl, _⟩⟩ <;>
      cases found <;> exact number
  · rcases can with ⟨rfl, ⟨rfl, _⟩ | ⟨rfl, _⟩ | ⟨rfl, _⟩ | ⟨rfl, small⟩ | ⟨rfl, small⟩
      | ⟨rfl, positive, small⟩⟩ <;>
      cases found <;> cases foundOp
    · -- The merge is zero, or what was computed before.
      by_cases zero : vector.toNat = 0
      · exact ⟨⟨1⟩, by simp, by simp [strideNumbers, zero]⟩
      · have positive : 1 ≤ vector.toNat := Nat.one_le_iff_ne_zero.mpr zero
        exact ⟨⟨7⟩, by simp, by simp [strideNumbers, positive, small]⟩
    · -- The low bits of a small number are the number itself.
      have also : vector.toNat ≤ 8 := Nat.le_succ_of_le small
      refine ⟨vector, by simp [strideNumbers, also], 7, by simp [strideNumbers], ?_⟩
      apply BitVec.eq_of_toNat_eq
      rw [BitVec.toNat_and]
      exact (Nat.and_two_pow_sub_one_of_lt_two_pow (n := 3) (by omega)).symm
    · have low : (vector - 1).toNat ≤ 7 := by
        rw [BitVec.toNat_sub_of_le (show (1 : BitVec 64) ≤ vector from positive)]
        exact Nat.sub_le_of_le_add small
      refine ⟨vector - 1, ?_, 1, by simp [strideNumbers], (BitVec.sub_add_cancel vector 1).symm⟩
      exact ⟨rfl, Or.inr (Or.inr (Or.inr (Or.inr (Or.inl ⟨rfl, low⟩))))⟩

/-- Witness: the index depends on itself and is known to be at most eight. -/
theorem signedRange_describes_possible_stride
    : stride.signedRange .w64 ⟨5⟩ = .ok ⟨64, 0, 9⟩
      ∧ (8 : BitVec 64) ∈ strideNumbers ⟨5⟩ 64
      ∧ (Range.mk 64 0 9).Describes (8 : BitVec 64) := by
  have can : (8 : BitVec 64) ∈ strideNumbers ⟨5⟩ 64 := by simp [strideNumbers]
  have evaluated : stride.signedRange .w64 ⟨5⟩ = .ok ⟨64, 0, 9⟩ := by decide +kernel
  have found : stride.value ⟨5⟩ = .ok (.result ⟨2⟩ .i64) := rfl
  obtain ⟨_, answered, _, describes⟩ := signedRange_describes_possible stride_complete
    stride_picksTyped strideNumbers_closed found
  cases evaluated.symm.trans answered
  exact ⟨evaluated, can, describes can⟩

/-- Witness: the address that is chosen last points up to 32 bytes behind the buffer's start. -/
theorem offsetFrom_holds_points_stride
    : stride.offsetFrom .w64 ⟨9⟩ ⟨4⟩ = .ok ⟨64, 0, 33⟩
      ∧ stride.Points .w64 strideNumbers ⟨9⟩ ⟨4⟩ 32
      ∧ (Range.mk 64 0 33).Holds 32 := by
  have evaluated : stride.offsetFrom .w64 ⟨9⟩ ⟨4⟩ = .ok ⟨64, 0, 33⟩ := by decide +kernel
  have can : (8 : BitVec 64) ∈ strideNumbers ⟨5⟩ 64 := by simp [strideNumbers]
  have root : stride.IsRoot ⟨4⟩ :=
    ⟨_, rfl, fun inst made => by cases made; exact ⟨_, rfl, rfl⟩⟩
  have size : (Ty.size .w64 .i32).Admits 4 := by
    rw [TypeSize.Admits, if_neg (by decide)]
    rfl
  have indexed : stride.Points .w64 strideNumbers ⟨8⟩ ⟨4⟩ 32 :=
    .elemPtr rfl rfl (.root root) can size
  have points : stride.Points .w64 strideNumbers ⟨9⟩ ⟨4⟩ 32 :=
    .select rfl rfl (by simp) indexed
  have found : stride.value ⟨9⟩ = .ok (.result ⟨6⟩ .ptr) := rfl
  obtain ⟨_, answered, _, _, holds⟩ := offsetFrom_holds_points stride_complete stride_picksTyped
    strideNumbers_closed found ⟨4⟩
  cases evaluated.symm.trans answered
  exact ⟨evaluated, points, (holds (by decide) points).2⟩

end Function

end StackBounds
