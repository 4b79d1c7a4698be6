import StackBounds.Proofs.Resolving
import StackBounds.Proofs.Solver.FixedPoint

/-! Accesses along chains of calls: once the solver has settled, everything that happens to the
address of an allocation, in its own function and wherever calls carry it, is inside the final
range of the allocation. Lengths of at least half the address space are the exception.
-/

namespace StackBounds

open Word

-----------------------------------------------------------------------------------------
-- Passed addresses
-----------------------------------------------------------------------------------------

theorem Call.param_lt_of_pass {call : Call} {operand : Nat} {callee : Global} {param : Nat}
    (passed : call.role operand = .pass callee param)
    : param < call.args.length := by
  unfold Call.role at passed
  split at passed
  · rename_i argument
    split at passed <;> cases passed
    exact argument
  · cases passed

theorem Inst.exists_call_of_pass {inst : Inst} {operand : Nat} {callee : Global} {param : Nat}
    (passed : inst.role operand = .pass callee param)
    : ∃ call, inst.call? = some call ∧ call.role operand = .pass callee param := by
  cases inst with
  | call made => exact ⟨made, rfl, passed⟩
  | invoke made _ _ => exact ⟨made, rfl, passed⟩
  | store _ _ =>
      simp only [role] at passed
      split at passed <;> cases passed
  | memTransfer _ _ _ _ =>
      simp only [role] at passed
      split at passed <;> cases passed
  | memSet _ _ _ =>
      simp only [role] at passed
      split at passed <;> cases passed
  | _ => cases passed

/-- The instruction is a memory operation with a length. -/
def Inst.isBulk : Inst → Bool
  | .memTransfer _ _ _ _ => true
  | .memSet _ _ _ => true
  | _ => false

theorem Inst.isBulk_of_role {inst : Inst} {operand : Nat} {length : ValueId}
    (accessed : inst.role operand = .access (.bulk length))
    : inst.isBulk = true := by
  cases inst with
  | memTransfer _ _ _ _ => rfl
  | memSet _ _ _ => rfl
  | call made => exact absurd accessed (made.role_ne_bulk operand length)
  | invoke made _ _ => exact absurd accessed (made.role_ne_bulk operand length)
  | store _ _ =>
      simp only [role] at accessed
      split at accessed <;> cases accessed
  | _ => cases accessed

namespace Module

variable {unit : Module} {possible : FunctionId → Possible} {config : Config} {solver : Solver}
  {final : Functions}

-----------------------------------------------------------------------------------------
-- Settled usages
-----------------------------------------------------------------------------------------

/-- A usage still says everything about its address when its range grows. -/
theorem Explains.of_grows {γ : Type} {names : Global → γ → Prop} {place : Place}
    {usage grown : Usage γ} (explains : unit.Explains possible names place usage)
    (grows : usage.Grows grown) (range : grown.range.OfWidth unit.pointerWidth.bits)
    : unit.Explains possible names place grown := by
  have wf := explains.wellFormed
  have width := wf.range.bits_eq.trans range.bits_eq.symm
  refine ⟨⟨range, grows.calls ▸ wf.offset, grows.calls ▸ wf.moved⟩, ?_⟩
  rcases explains.uses with all | accounts
  · exact Or.inl (range.wellFormed.isAll_of_superset all width.symm grows.range)
  · refine Or.inr fun use used => ?_
    have accounted := accounts use used
    refine ⟨accounted.stays, accounted.alive, ?_, grows.calls ▸ accounted.pass⟩
    intro extent accesses root offset bytes index points spans short inside
    exact (accounted.access accesses points spans short inside).of_subset wf.range.wellFormed
      range.wellFormed width grows.range

/-- A usage says everything about the address at a place, and its range absorbs its calls. -/
structure Settles (unit : Module) (possible : FunctionId → Possible) (solver : Solver)
    (final : Functions) (place : Place) (usage : Usage Callee)
    : Prop where
  explains : unit.Explains possible unit.BindsTo place usage
  absorbs : ∀ call ∈ usage.calls, solver.Absorbs final usage.range call

/-- Everything that the solver lists in the end is settled. -/
structure Solved (unit : Module) (possible : FunctionId → Possible) (config : Config)
    (solver : Solver) (final : Functions)
    : Prop where
  made : Solver.make unit.pointerWidth.bits config = .ok solver
  wellFormed : final.WellFormed unit.pointerWidth.bits
  params : ∀ {id key usage}, final.param? (.function id) key = some usage
    → ∃ func param, unit.function id = .ok func ∧ func.sig.Takes param
      ∧ key = UInt32.ofNat param
      ∧ unit.Settles possible solver final ⟨id, ⟨param⟩, none⟩ usage

/-- A run of the solver settles parameters about which everything is said. -/
theorem solved_of_run {functions : Functions} {verify : Bool}
    (made : Solver.make unit.pointerWidth.bits config = .ok solver)
    (start : functions.WellFormed unit.pointerWidth.bits)
    (explained : ∀ {id info}, functions.get? (.function id) = some info
      → unit.ExplainsParams possible unit.BindsTo id info.params)
    (ran : (solver.run verify functions).result = .ok final)
    : unit.Solved possible config solver final := by
  obtain ⟨chain, absorbed⟩ := Solver.run_answer made start ran
  obtain ⟨wf, grows⟩ := Solver.sized_of_chain made start chain
  refine ⟨made, wf, ?_⟩
  intro id key usage found
  obtain ⟨before, foundBefore, growsUsage⟩ := grows.exists_param? found
  obtain ⟨info, foundInfo, listed⟩ := Option.bind_eq_some_iff.mp foundBefore
  obtain ⟨func, param, known, taken, number, explains⟩ :=
    explained foundInfo _ (Table.mem_of_get? listed)
  exact ⟨func, param, known, taken, number,
    explains.of_grows growsUsage (wf.usages _ _ _ found).range, absorbed _ _ _ found⟩

-----------------------------------------------------------------------------------------
-- Chains of calls
-----------------------------------------------------------------------------------------

/-- The accesses from a place are inside a whole range when they are moved by the place's distance.
From an unknown distance, there are none.
-/
def Inside (whole part : Range) : Option Int → Prop
  | some shift => ∀ position, part.Holds position → whole.Holds (shift + position)
  | none => part.IsNone

theorem inside_of_isNone {whole part : Range} (wf : part.WellFormed) (none : part.IsNone)
    (shift : Option Int)
    : Inside whole part shift := by
  cases shift with
  | none => exact none
  | some shift => exact fun _ held => absurd held.2 (wf.not_mem_of_isNone none _)

/-- Everything that happens to the address at a place stays inside a whole range. -/
structure Contained (unit : Module) (possible : FunctionId → Possible) (solver : Solver)
    (final : Functions) (whole : Range) (place : Place) (shift : Option Int)
    (usage : Usage Callee)
    : Prop where
  settles : unit.Settles possible solver final place usage
  known : ¬ usage.range.IsAll
  inside : Inside whole usage.range shift

/-- The argument of a call has a 32-bit number. -/
theorem Numbered.param_lt {place : Place} {use : Use} {callee : Global} {param : Nat}
    (numbered : unit.Numbered) (used : unit.UsedAt place use)
    (passed : use.role = .pass callee param)
    : param < UInt32.size := by
  obtain ⟨call, made, argument⟩ := Inst.exists_call_of_pass passed
  have present := List.mem_of_getElem? (Function.inst_eq_ok_iff.mp used.inst)
  have short := numbered.args _ (mem_of_function used.function) _ present call made
  exact Nat.lt_of_lt_of_le (Call.param_lt_of_pass argument) short

section Containment

variable {whole : Range} {place : Place} {shift : Option Int} {usage : Usage Callee} {use : Use}
  (contained : unit.Contained possible solver final whole place shift usage)
  (used : unit.UsedAt place use)

include contained used

theorem Contained.accounts
    : usage.Accounts unit.BindsTo unit.pointerWidth (possible place.func) place use :=
  contained.settles.explains.uses.resolve_left contained.known use used

/-- An address that is passed on is received by a function whose parameter is settled, and the call
covers all its offsets.
-/
theorem Contained.exists_target {callee : Global} {param : Nat} (numbered : unit.Numbered)
    (solved : unit.Solved possible config solver final)
    (passed : use.role = .pass callee param)
    : ∃ call ∈ usage.calls, ∃ target targetUsage, unit.Receives callee param target
      ∧ final.param? call.callee call.param = some targetUsage
      ∧ unit.Settles possible solver final ⟨target, ⟨param⟩, none⟩ targetUsage
      ∧ ∀ {root offset},
        use.func.Points unit.pointerWidth (possible place.func) use.value root offset
        → call.offset.AllowsFrom place.base root offset := by
  have wf := contained.settles.explains.wellFormed
  obtain ⟨call, member, ⟨target, bound, name⟩, number, offsets⟩ :=
    (contained.accounts used).pass passed
  refine ⟨call, member, target, ?_⟩
  cases found : final.param? call.callee call.param with
  | none =>
      have absorbs := contained.settles.absorbs call member
      exact absurd (absorbs.isAll_of_missing wf.range.wellFormed solved.made found)
        contained.known
  | some targetUsage =>
      obtain ⟨func, other, known, taken, key, settles⟩ := solved.params (name ▸ found)
      have short := numbered.params _ (mem_of_function known)
      have inside := (List.getElem?_eq_some_iff.mp taken.1).1
      have same : param = other := LocalAnalysis.ofNat_inj_of_lt (numbered.param_lt used passed)
        (Nat.lt_of_lt_of_le inside short) (number.symm.trans key)
      subst same
      exact ⟨targetUsage, ⟨bound, func, known, taken⟩, rfl, settles, offsets⟩

/-- A call leads from a place where everything stays inside to another one. -/
theorem Contained.call {callee : Global} {param : Nat} {target : FunctionId}
    {position : Option Int} (numbered : unit.Numbered)
    (solved : unit.Solved possible config solver final)
    (passed : use.role = .pass callee param)
    (received : unit.Receives callee param target)
    (moved : unit.Position possible place shift use position)
    : ∃ targetUsage,
        unit.Contained possible solver final whole ⟨target, ⟨param⟩, none⟩ position
          targetUsage := by
  have wf := contained.settles.explains.wellFormed
  obtain ⟨call, member, other, targetUsage, receivedOther, found, settles, offsets⟩ :=
    contained.exists_target used numbered solved passed
  cases receivedOther.bound.symm.trans received.bound
  have absorbs := contained.settles.absorbs call member
  have wfRange := wf.range.wellFormed
  have offset := wf.offset_range member
  have wfTarget := settles.explains.wellFormed.range.wellFormed
  refine ⟨targetUsage, settles, ?_, ?_⟩
  · exact fun all => contained.known
      (absorbs.isAll_of_callee wfRange solved.made found wfTarget all)
  obtain ⟨root, distance, points, rfl⟩ := moved
  rcases offsets points with all | ⟨same, held⟩
  · refine inside_of_isNone wfTarget ?_ _
    by_contra accesses
    exact contained.known
      (absorbs.isAll_of_offset wfRange solved.made found wfTarget offset accesses all)
  rw [if_pos same]
  have inside := contained.inside
  cases shift with
  | none =>
      by_contra accesses
      exact absorbs.not_isNone_of_callee wfRange solved.made found wfTarget offset
        (wf.moved call member) accesses inside
  | some shift =>
      intro position touched
      have allowed := absorbs.allows_of_callee wfRange solved.made found wfTarget offset
        (Or.inr touched) held
      have placed := inside _ (allowed.resolve_left contained.known)
      rwa [← Int.add_assoc] at placed

/-- A byte that is accessed at a place is inside the whole range, unless the length is over half
the address space.
-/
theorem Contained.access {extent : Extent} {position : Option Int} {bytes index : Nat}
    (accessed : use.role = .access extent)
    (moved : unit.Position possible place shift use position)
    (spans : extent.Spans use.func unit.pointerWidth (possible place.func) bytes)
    (short : ∀ length, extent = .bulk length → bytes < half unit.pointerWidth.bits)
    (within : index < bytes)
    : ∃ byte, position.map (· + (index : Int)) = some byte ∧ whole.Holds byte := by
  obtain ⟨root, offset, points, rfl⟩ := moved
  have allowed := (contained.accounts used).access accessed points spans short within
  obtain ⟨same, held⟩ := allowed.resolve_left contained.known
  have inside := contained.inside
  cases shift with
  | none =>
      have wf := contained.settles.explains.wellFormed.range.wellFormed
      exact absurd held.2 (wf.not_mem_of_isNone inside _)
  | some shift =>
      refine ⟨shift + (offset + index), ?_, inside _ held⟩
      rw [if_pos same, ← Int.add_assoc]
      rfl

end Containment

section Carried

variable {whole : Range} {start : Place} {usage : Usage Callee} (numbered : unit.Numbered)
  (solved : unit.Solved possible config solver final)
  (contained : unit.Contained possible solver final whole start (some 0) usage)

include numbered solved contained

/-- Wherever the address is carried, everything stays inside; by induction on the calls. -/
theorem contained_of_carried {place : Place} {shift : Option Int}
    (carried : unit.Carried possible start place shift)
    : ∃ usage, unit.Contained possible solver final whole place shift usage := by
  induction carried with
  | start => exact ⟨usage, contained⟩
  | call _ used passed received moved ih =>
      obtain ⟨_, before⟩ := ih
      exact before.call used numbered solved passed received moved

theorem not_lost : ¬ unit.Lost possible start := by
  intro lost
  cases lost with
  | leak carried used leaked =>
      obtain ⟨_, here⟩ := contained_of_carried numbered solved contained carried
      exact (here.accounts used).stays leaked
  | unreceived carried used passed unknown =>
      obtain ⟨_, here⟩ := contained_of_carried numbered solved contained carried
      obtain ⟨_, _, target, _, received, _⟩ := here.exists_target used numbered solved passed
      exact unknown ⟨target, received⟩
  | dead carried used memory made ended =>
      obtain ⟨_, here⟩ := contained_of_carried numbered solved contained carried
      exact (here.accounts used).alive memory _ made ended

/-- Without overlong lengths, all accessed bytes are inside. -/
theorem holds_of_touches (short : ¬ unit.Overlong possible start) {byte : Option Int}
    (touched : unit.Touches possible start byte)
    : ∃ position, byte = some position ∧ whole.Holds position := by
  obtain ⟨carried, used, accessed, moved, spans, within⟩ := touched
  obtain ⟨_, here⟩ := contained_of_carried numbered solved contained carried
  refine here.access used accessed moved spans ?_ within
  rintro length rfl
  obtain ⟨bits, x, can, rfl⟩ := spans
  by_contra long
  exact short (.bulk carried used accessed moved can (Nat.le_of_not_lt long))

end Carried

/-- Without memory operations, no length is overlong. -/
theorem not_overlong {start : Place}
    (plain : ∀ func ∈ unit.functions, ∀ inst ∈ func.insts, inst.isBulk = false)
    : ¬ unit.Overlong possible start := by
  rintro ⟨_, used, accessed, _, _, _⟩
  have present := List.mem_of_getElem? (Function.inst_eq_ok_iff.mp used.inst)
  have other := plain _ (mem_of_function used.function) _ present
  cases other.symm.trans (Inst.isBulk_of_role accessed)

/-- A length of at least half the address space is too long for every allocation. -/
theorem exists_touches_of_overlong {start : Place} {size : Int}
    (small : size < half unit.pointerWidth.bits) (long : unit.Overlong possible start)
    : ∃ byte, unit.Touches possible start byte
      ∧ ¬ ∃ position, byte = some position ∧ 0 ≤ position ∧ position < size := by
  obtain @⟨_, _, use, length, position, bits, x, carried, used, accessed, moved, can, long⟩ := long
  have touches (index : Nat)
      (within : index < (x.setWidth unit.pointerWidth.bits.toNat).toNat)
      : unit.Touches possible start (position.map (· + (index : Int))) :=
    .access carried used accessed moved ⟨bits, x, can, rfl⟩ within
  have positive := Word.half_pos unit.pointerWidth.bits
  cases position with
  | none => exact ⟨none, touches 0 (by omega), by simp⟩
  | some position =>
      -- Either the first byte is outside, or the one a whole size behind it is.
      by_cases first : 0 ≤ position ∧ position < size
      · refine ⟨some (position + size.toNat), touches size.toNat (by omega), ?_⟩
        rintro ⟨_, same, _, below⟩
        cases same
        omega
      · refine ⟨some (position + (0 : Nat)), touches 0 (by omega), ?_⟩
        rintro ⟨_, same, inside⟩
        cases same
        omega

end Module

end StackBounds
