import StackBounds.Proofs.Views
import StackBounds.Proofs.Local.Accesses
import StackBounds.Proofs.Solver.Growth

/-! The local analysis looks at every use of a tracked address: it finds all values derived from
the address, and each of their uses is accounted for in the usage that it adds up.
-/

namespace StackBounds

namespace Function

variable {func : Function} {reachable : InstId → Bool}

theorem mem_fst_passFrom {value : ValueId} {fresh : List InstId} {inst : InstId}
    : inst ∈ (func.passFrom reachable value fresh).1
      ↔ inst ∈ fresh ∧ reachable inst = true ∧ func.derivesFrom value inst = true := by
  simp [passFrom, List.partition_eq_filter_filter]

theorem mem_snd_passFrom {value : ValueId} {fresh : List InstId} {inst : InstId}
    : inst ∈ (func.passFrom reachable value fresh).2
      ↔ inst ∈ fresh ∧ inst ∉ (func.passFrom reachable value fresh).1 := by
  rw [mem_fst_passFrom]
  simp only [passFrom, List.partition_eq_filter_filter, List.mem_filter, Function.comp_apply,
    Bool.not_eq_true', ← Bool.not_eq_true, Bool.and_eq_true]
  exact and_congr_right fun isFresh => by simp [isFresh]

/-- A walk visits everything on its stack. -/
theorem mem_derived_of_mem_stack {stack : List ValueId} {fresh : List InstId} {value : ValueId}
    (member : value ∈ stack)
    : value ∈ func.derived reachable stack fresh := by
  fun_induction func.derived reachable stack fresh with
  | case1 fresh => exact member
  | case2 fresh head rest split ih =>
      rcases List.mem_cons.mp member with rfl | later
      · exact List.mem_cons_self
      · exact List.mem_cons_of_mem _ (ih (List.mem_append_right _ later))

/-- A walk goes on from every value that it visits: what a fresh instruction derives from it is
visited too, by the walk's own steps.
-/
theorem mem_derived_of_derivesFrom {stack : List ValueId} {fresh : List InstId}
    {value result : ValueId} {inst : InstId} (visited : value ∈ func.derived reachable stack fresh)
    (isFresh : inst ∈ fresh) (live : reachable inst = true)
    (derives : func.derivesFrom value inst = true) (results : func.resultOf inst = some result)
    : result ∈ func.derived reachable stack fresh := by
  fun_induction func.derived reachable stack fresh with
  | case1 fresh => exact absurd visited List.not_mem_nil
  | case2 fresh head rest split ih =>
      have pushed (passed : inst ∈ split.1)
          : result ∈ func.derived reachable ((split.1.filterMap func.resultOf).reverse ++ rest)
            split.2 := by
        refine mem_derived_of_mem_stack (List.mem_append_left _ (List.mem_reverse.mpr ?_))
        exact List.mem_filterMap.mpr ⟨inst, passed, results⟩
      refine List.mem_cons_of_mem _ ?_
      rcases List.mem_cons.mp visited with rfl | later
      · exact pushed (mem_fst_passFrom.mpr ⟨isFresh, live, derives⟩)
      · by_cases passed : inst ∈ split.1
        · exact pushed passed
        · exact ih later (mem_snd_passFrom.mpr ⟨isFresh, passed⟩)

/-- The walk from a base finds every value derived from it. -/
theorem mem_derivedFrom (one : func.OneResult) {lifetime : Lifetime}
    (describes : lifetime.Describes func) {base value : ValueId}
    (derived : func.Derived lifetime.toMarkedFlow base value)
    : value ∈ func.derivedFrom lifetime.isReachable base := by
  induction derived with
  | base => exact mem_derived_of_mem_stack (List.mem_singleton.mpr rfl)
  | result _ executes found derives operand results ih =>
      have present := inst_eq_ok_iff.mp found
      have live := Lifetime.isReachable_of_executes describes executes
      refine mem_derived_of_derivesFrom ih ?_ live ?_ (resultOf_eq one results)
      · exact mem_instIds.mpr ⟨_, found⟩
      · simp [derivesFrom, present, derives, operand]

end Function

-----------------------------------------------------------------------------------------
-- Accounting for uses
-----------------------------------------------------------------------------------------

theorem Range.AllowsFrom.of_subset {inner outer : Range} {base root : ValueId} {position : Int}
    (allowed : inner.AllowsFrom base root position) (wfInner : inner.WellFormed)
    (wfOuter : outer.WellFormed) (width : inner.bits = outer.bits) (included : inner ⊆ outer)
    : outer.AllowsFrom base root position := by
  rcases allowed with all | ⟨same, held⟩
  · exact Or.inl (wfOuter.isAll_of_superset all width.symm included)
  · exact Or.inr ⟨same, (wfInner.subset_iff_holds wfOuter width).mp included position held⟩

/-- A use of the address at a place is accounted for in a usage: it stays in sight, comes while the
allocation is alive, and touches bytes of the range only or is among the calls. Callees are named
in the terms of the usage. Lengths over half the address space are left out.
-/
structure Usage.Accounts {γ : Type} (usage : Usage γ) (names : Global → γ → Prop)
    (pointer : PointerWidth) (possible : Possible) (place : Place) (use : Use)
    : Prop where
  stays : use.role ≠ .leak
  alive : use.inst.usesMemory = true → ∀ alloca, place.alloca = some alloca
    → ¬ use.marked.CanBeDead alloca use.site.inst
  access : ∀ {extent}, use.role = .access extent → ∀ {root offset bytes} {index : Nat},
    use.func.Points pointer possible use.value root offset
    → extent.Spans use.func pointer possible bytes
    → (∀ length, extent = .bulk length → bytes < Word.half pointer.bits)
    → index < bytes
    → usage.range.AllowsFrom place.base root (offset + index)
  pass : ∀ {callee param}, use.role = .pass callee param
    → ∃ call ∈ usage.calls, names callee call.callee
      ∧ call.param = UInt32.ofNat param
      ∧ ∀ {root offset}, use.func.Points pointer possible use.value root offset
        → call.offset.AllowsFrom place.base root offset

/-- A usage says everything about the address at a place. -/
structure Module.Explains {γ : Type} (unit : Module) (possible : FunctionId → Possible)
    (names : Global → γ → Prop) (place : Place) (usage : Usage γ)
    : Prop where
  wellFormed : usage.WellFormed unit.pointerWidth.bits
  uses : usage.range.IsAll
    ∨ ∀ use, unit.UsedAt place use
      → usage.Accounts names unit.pointerWidth (possible place.func) place use

theorem Forward.eq_of_make {γ : Type} {callee : γ} {param : UInt32} {offset : Range}
    {call : Forward γ} (made : Forward.make callee param offset = .ok call)
    : call = ⟨callee, param, offset⟩ ∧ ¬ offset.IsNone := by
  unfold make at made
  split at made
  · cases made
  · rename_i some
    cases made
    exact ⟨rfl, fun none => some (Range.isEmpty_iff.mpr none)⟩

namespace Usage

variable {γ : Type} {bits : UInt32} {usage : Usage γ}

theorem WellFormed.exists_forget (wf : usage.WellFormed bits)
    : ∃ unknown, usage.forget = .ok unknown :=
  ⟨_, by rw [forget, Range.full_eq wf.range.wellFormed.valid, ok_bind, pure_eq_ok]⟩

theorem WellFormed.exists_widen (wf : usage.WellFormed bits) {range : Range}
    (proper : range.OfWidth bits)
    : ∃ widened, usage.widen range = .ok widened := by
  obtain ⟨covering, covered, _⟩ := Range.cover_spec wf.range.wellFormed proper.wellFormed
    (wf.range.bits_eq.trans proper.bits_eq.symm)
  exact ⟨_, by rw [widen, covered, ok_bind, pure_eq_ok]⟩

theorem WellFormed.of_forget (wf : usage.WellFormed bits) {unknown : Usage γ}
    (result : usage.forget = .ok unknown)
    : unknown.WellFormed bits ∧ unknown.range.IsAll := by
  obtain ⟨range, built, result⟩ := exists_of_bind_eq_ok result
  cases result
  have valid := wf.range.bits_eq ▸ wf.range.wellFormed.valid
  obtain ⟨proper, all⟩ := Range.full_spec valid (wf.range.bits_eq ▸ built)
  exact ⟨⟨proper, wf.offset, wf.moved⟩, all⟩

theorem WellFormed.of_widen (wf : usage.WellFormed bits) {range : Range} {widened : Usage γ}
    (proper : range.OfWidth bits) (result : usage.widen range = .ok widened)
    : widened.WellFormed bits ∧ usage.range ⊆ widened.range ∧ range ⊆ widened.range
      ∧ widened.calls = usage.calls := by
  obtain ⟨covering, covered, result⟩ := exists_of_bind_eq_ok result
  cases result
  have width := wf.range.bits_eq.trans proper.bits_eq.symm
  obtain ⟨_, found, properCovering, _, left, right⟩ :=
    Range.cover_spec wf.range.wellFormed proper.wellFormed width
  cases covered.symm.trans found
  exact ⟨⟨wf.range.bits_eq ▸ properCovering, wf.offset, wf.moved⟩, left, right, rfl⟩

theorem WellFormed.straight_of_widen (wf : usage.WellFormed bits) {range : Range}
    {widened : Usage γ} (proper : range.OfWidth bits) (result : usage.widen range = .ok widened)
    : widened.range.Straight := by
  obtain ⟨covering, covered, result⟩ := exists_of_bind_eq_ok result
  cases result
  obtain ⟨_, found, _, straight, _⟩ := Range.cover_spec wf.range.wellFormed proper.wellFormed
    (wf.range.bits_eq.trans proper.bits_eq.symm)
  cases covered.symm.trans found
  exact straight

theorem WellFormed.append_call (wf : usage.WellFormed bits) {callee : γ} {param : UInt32}
    {offset : Range} {call : Forward γ} (proper : offset.OfWidth bits)
    (made : Forward.make callee param offset = .ok call)
    : ({ usage with calls := usage.calls ++ [call] } : Usage γ).WellFormed bits := by
  obtain ⟨rfl, some⟩ := Forward.eq_of_make made
  refine ⟨wf.range, ?_, ?_⟩
  · intro call member
    rcases List.mem_append.mp member with earlier | last
    · exact wf.offset call earlier
    · exact List.mem_singleton.mp last ▸ proper
  · intro call member
    rcases List.mem_append.mp member with earlier | last
    · exact wf.moved call earlier
    · exact List.mem_singleton.mp last ▸ some

theorem calls_of_widen {widened : Usage γ} {range : Range}
    (result : usage.widen range = .ok widened)
    : widened.calls = usage.calls := by
  obtain ⟨_, _, result⟩ := exists_of_bind_eq_ok result
  cases result
  rfl

theorem calls_of_forget {unknown : Usage γ} (result : usage.forget = .ok unknown)
    : unknown.calls = usage.calls := by
  obtain ⟨_, _, result⟩ := exists_of_bind_eq_ok result
  cases result
  rfl

end Usage

/-- The stored value comes first, so another operand is the address. -/
theorem Inst.role_store {addr stored value : ValueId} {operand : Nat} (other : stored ≠ value)
    (stands : (Inst.store addr stored).operands[operand]? = some value)
    : (Inst.store addr stored).role operand = .access (.stored stored) := by
  refine if_neg fun first => ?_
  subst first
  exact other (Option.some.inj stands)

namespace LocalAnalysis

/-- An operand lets an address out of sight, or belongs to an instruction that works on memory when
the tracked allocation may be dead.
-/
def Escapes (analysis : LocalAnalysis) (alloca : Option InstId) (op : Inst) (site : UseSite)
    : Prop :=
  op.role site.operand = .leak
    ∨ (op.usesMemory = true ∧ analysis.isAlive alloca site.inst = false)

/-- What an effect says about the operand it comes from. A value that is stored through itself
escapes at both operands, so an escape names the one that makes it.
-/
inductive Reflects (analysis : LocalAnalysis) (base : ValueId) (alloca : Option InstId)
    (value : ValueId) (site : UseSite) (op : Inst)
    : Effect → Prop
  | escape {operand} (cause : Escape)
    (stands : op.operands[operand]? = some value)
    (escapes : analysis.Escapes alloca op ⟨site.inst, operand⟩)
    : analysis.Reflects base alloca value site op (.escape cause)
  | harmless
    (other : op.role site.operand = .other)
    (alive : op.usesMemory = true → analysis.isAlive alloca site.inst = true)
    : analysis.Reflects base alloca value site op .harmless
  | access {extent range}
    (accesses : op.role site.operand = .access extent)
    (alive : analysis.isAlive alloca site.inst = true)
    (result : analysis.extentRange value base extent = .ok range)
    : analysis.Reflects base alloca value site op (.access range)
  | forward {callee param offset call}
    (passes : op.role site.operand = .pass callee param)
    (alive : analysis.isAlive alloca site.inst = true)
    (moved : analysis.offset value base = .ok offset)
    (made : Forward.make callee (UInt32.ofNat param) offset = .ok call)
    : analysis.Reflects base alloca value site op (.forward call)

section Effects

variable {analysis : LocalAnalysis} {base value : ValueId} {alloca : Option InstId}
  {site : UseSite}

theorem callEffect_reflects {op : Inst} {call : Call} {effect : Effect}
    (operand : op.operands[site.operand]? = some value)
    (role : op.role site.operand = call.role site.operand)
    (alive : analysis.isAlive alloca site.inst = true)
    (result : analysis.callEffect base value site.operand call = .ok effect)
    : analysis.Reflects base alloca value site op effect := by
  unfold callEffect at result
  unfold Call.role at role
  split at result
  · rename_i argument
    rw [if_pos argument] at role
    cases copied : call.byValueTy? site.operand with
    | some ty =>
        rw [copied] at result role
        obtain ⟨range, computed, result⟩ := exists_of_bind_eq_ok result
        cases result
        exact .access role alive computed
    | none =>
        rw [copied] at result role
        cases target : call.target with
        | direct callee =>
            rw [target] at result role
            obtain ⟨offset, moved, result⟩ := exists_of_bind_eq_ok result
            obtain ⟨made, making, result⟩ := exists_of_bind_eq_ok result
            cases result
            exact .forward role alive moved making
        | indirect callee =>
            rw [target] at result role
            cases result
            exact .escape _ operand (Or.inl role)
  · rename_i notArgument
    rw [if_neg notArgument] at role
    cases result
    exact .escape _ operand (Or.inl role)

theorem bulk_reflects {op : Inst} {length : ValueId} {dead : Escape} {effect : Effect}
    {address : Prop} [Decidable address]
    (operand : op.operands[site.operand]? = some value) (memory : op.usesMemory = true)
    (role : op.role site.operand = if address then .access (.bulk length) else .other)
    (result : (if !analysis.isAlive alloca site.inst then pure (.escape dead)
      else if address then do pure (.access (← analysis.bulkRange value base length))
      else pure .harmless) = Except.ok effect)
    : analysis.Reflects base alloca value site op effect := by
  split at result
  · rename_i dead
    rw [Bool.not_eq_true'] at dead
    cases result
    exact .escape _ operand (Or.inr ⟨memory, dead⟩)
  rename_i alive
  rw [Bool.not_eq_true', Bool.not_eq_false] at alive
  split at result
  · rename_i points
    obtain ⟨range, computed, result⟩ := exists_of_bind_eq_ok result
    cases result
    exact .access (role.trans (if_pos points)) alive computed
  · rename_i other
    cases result
    exact .harmless (role.trans (if_neg other)) fun _ => alive

/-- Every effect reflects the operand it comes from. -/
theorem effect_reflects {op : Inst} {effect : Effect}
    (found : analysis.func.inst site.inst = .ok op)
    (operand : op.operands[site.operand]? = some value)
    (result : analysis.effect base alloca value site = .ok effect)
    : analysis.Reflects base alloca value site op effect := by
  rw [LocalAnalysis.effect, found, ok_bind] at result
  cases op with
  | load addr ty =>
      simp only at result
      split at result
      · rename_i alive
        obtain ⟨range, computed, result⟩ := exists_of_bind_eq_ok result
        cases result
        exact .access rfl alive computed
      · rename_i dead
        cases result
        exact .escape _ operand (Or.inr ⟨rfl, Bool.eq_false_of_not_eq_true dead⟩)
  | store addr stored =>
      simp only at result
      split at result
      · rename_i same
        cases result
        exact .escape _ (congrArg some same) (Or.inl (if_pos rfl))
      rename_i differ
      split at result
      · rename_i alive
        obtain ⟨ty, typed, result⟩ := exists_of_bind_eq_ok result
        obtain ⟨range, computed, result⟩ := exists_of_bind_eq_ok result
        cases result
        refine .access (Inst.role_store differ operand) alive ?_
        rw [extentRange, typed, ok_bind, computed]
      · rename_i dead
        cases result
        exact .escape _ operand (Or.inr ⟨rfl, Bool.eq_false_of_not_eq_true dead⟩)
  | ret returned =>
      cases result
      exact .escape _ operand (Or.inl rfl)
  | memTransfer op dest src length => exact bulk_reflects operand rfl rfl result
  | memSet dest written length => exact bulk_reflects operand rfl rfl result
  | call made =>
      simp only at result
      split at result
      · rename_i alive
        exact callEffect_reflects operand rfl alive result
      · rename_i dead
        cases result
        exact .escape _ operand (Or.inr ⟨rfl, Bool.eq_false_of_not_eq_true dead⟩)
  | invoke made normal unwind =>
      simp only at result
      split at result
      · rename_i alive
        exact callEffect_reflects operand rfl alive result
      · rename_i dead
        cases result
        exact .escape _ operand (Or.inr ⟨rfl, Bool.eq_false_of_not_eq_true dead⟩)
  | _ =>
      cases result
      exact .harmless rfl nofun

end Effects

-----------------------------------------------------------------------------------------
-- Adding up effects
-----------------------------------------------------------------------------------------

/-- A usage takes an effect into account. -/
def KeptIn (usage : Usage Global) : Effect → Prop
  | .harmless => True
  | .access range => range ⊆ usage.range
  | .forward call => call ∈ usage.calls
  | .escape _ => False

theorem KeptIn.of_grows {before after : Usage Global} {effect : Effect}
    (kept : KeptIn before effect)
    (range : before.range ⊆ after.range) (calls : before.calls ⊆ after.calls)
    : KeptIn after effect := by
  cases effect with
  | harmless => trivial
  | access access => exact Range.subset_trans kept range
  | forward call => exact calls kept
  | escape cause => exact kept

/-- How a usage takes up an effect that is no escape. -/
inductive Takes (usage : Usage Global) : Effect → Usage Global → Prop
  | harmless : Takes usage .harmless usage
  | access {range next} (widening : usage.widen range = .ok next)
    : Takes usage (.access range) next
  | forward (call : Forward Global)
    : Takes usage (.forward call) { usage with calls := usage.calls ++ [call] }

section Steps

variable {analysis : LocalAnalysis} {base : ValueId} {alloca : Option InstId} {tracked : Tracked}

theorem result_track (analysis : LocalAnalysis) (base : ValueId) (alloca : Option InstId)
    : (analysis.track base alloca).result
      = (analysis.collect base alloca ⟨.bottom analysis.pointer.bits, []⟩
          (analysis.sites base)).result := by
  simp only [track, Traced.result_bind, Traced.result_liftM, Usage.unused,
    Range.empty_eq analysis.pointer.valid_bits, ok_bind, pure_eq_ok]

/-- All that collecting does with one use: it ends at an escape, or takes up the effect and goes
on.
-/
theorem collect_cons_cases {entry : ValueId × UseSite} {rest : List (ValueId × UseSite)}
    {usage : Usage Global}
    (result : (analysis.collect base alloca usage (entry :: rest)).result = .ok tracked)
    : ∃ effect, analysis.effect base alloca entry.1 entry.2 = .ok effect
      ∧ ((∃ cause unknown, effect = .escape cause ∧ usage.forget = .ok unknown
          ∧ tracked = ⟨unknown, false⟩)
        ∨ ∃ next, Takes usage effect next
          ∧ (analysis.collect base alloca next rest).result = .ok tracked) := by
  simp only [collect, Traced.result_bind, Traced.result_liftM] at result
  obtain ⟨effect, computed, result⟩ := exists_of_bind_eq_ok result
  refine ⟨effect, computed, ?_⟩
  cases effect with
  | harmless => exact Or.inr ⟨usage, .harmless, result⟩
  | access range =>
      simp only [Traced.result_bind, Traced.result_liftM] at result
      obtain ⟨next, widening, result⟩ := exists_of_bind_eq_ok result
      exact Or.inr ⟨next, .access widening, result⟩
  | forward call => exact Or.inr ⟨_, .forward call, result⟩
  | escape cause =>
      simp only [Traced.result_bind, Traced.result_emit, Traced.result_liftM, ok_bind] at result
      obtain ⟨unknown, forgotten, result⟩ := exists_of_bind_eq_ok result
      cases result
      exact Or.inl ⟨cause, unknown, rfl, forgotten, rfl⟩

/-- Every call that is collected was there before, or a use hands the address to it; by induction
on the uses.
-/
theorem collect_origin {sites : List (ValueId × UseSite)} {usage : Usage Global}
    (result : (analysis.collect base alloca usage sites).result = .ok tracked)
    {call : Forward Global} (collected : call ∈ tracked.usage.calls)
    : call ∈ usage.calls
      ∨ ∃ entry ∈ sites, analysis.effect base alloca entry.1 entry.2 = .ok (.forward call) := by
  induction sites generalizing usage with
  | nil =>
      cases result
      exact Or.inl collected
  | cons entry rest ih =>
      obtain ⟨effect, computed, ⟨_, _, _, forgotten, rfl⟩ | ⟨next, takes, result⟩⟩ :=
        collect_cons_cases result
      · exact Or.inl (Usage.calls_of_forget forgotten ▸ collected)
      rcases ih result with before | ⟨input, inside, forwards⟩
      · cases takes with
        | harmless => exact Or.inl before
        | access widening => exact Or.inl (Usage.calls_of_widen widening ▸ before)
        | forward made =>
            refine (List.mem_append.mp before).imp_right fun last => ?_
            cases List.mem_singleton.mp last
            exact ⟨entry, List.mem_cons_self, computed⟩
      · exact Or.inr ⟨input, List.mem_cons_of_mem _ inside, forwards⟩

theorem mem_uses_of_sites {entry : ValueId × UseSite} (member : entry ∈ analysis.sites base)
    : entry.2 ∈ analysis.func.uses entry.1 := by
  obtain ⟨value, site⟩ := entry
  simp only [sites, List.mem_flatMap, List.mem_map, List.mem_filter, Prod.mk.injEq] at member
  obtain ⟨_, _, _, ⟨used, _⟩, rfl, rfl⟩ := member
  exact used

/-- Every call of a tracked address is made by an operand that passes it on. -/
theorem track_origin (result : (analysis.track base alloca).result = .ok tracked)
    {call : Forward Global} (collected : call ∈ tracked.usage.calls)
    : ∃ addr op operand param, op ∈ analysis.func.insts
      ∧ op.role operand = .pass call.callee param
      ∧ analysis.offset addr base = .ok call.offset := by
  rw [result_track] at result
  obtain ⟨entry, inside, forwards⟩ :=
    (collect_origin result collected).resolve_left List.not_mem_nil
  obtain ⟨op, found, operand⟩ := Function.mem_uses.mp (mem_uses_of_sites inside)
  cases effect_reflects found operand forwards with
  | @forward _ param _ _ passes _ moved made =>
      obtain ⟨rfl, _⟩ := Forward.eq_of_make made
      exact ⟨entry.1, op, entry.2.operand, param,
        List.mem_of_getElem? (Function.inst_eq_ok_iff.mp found), passes, moved⟩

variable (proper : analysis.addresses.Proper)

include proper

/-- What taking up an effect keeps. -/
theorem Takes.keeps {value : ValueId} {site : UseSite} {op : Inst} {effect : Effect}
    {usage next : Usage Global} (takes : Takes usage effect next)
    (reflects : analysis.Reflects base alloca value site op effect)
    (wf : usage.WellFormed analysis.pointer.bits) (straight : usage.range.Straight)
    : next.WellFormed analysis.pointer.bits ∧ next.range.Straight
      ∧ usage.range ⊆ next.range ∧ usage.calls ⊆ next.calls ∧ KeptIn next effect := by
  cases takes with
  | harmless => exact ⟨wf, straight, Range.subset_refl _, List.Subset.refl _, trivial⟩
  | access widening =>
      cases reflects with
      | access _ _ computed =>
          have properRange := extentRange_ofWidth proper computed
          obtain ⟨wfNext, grows, covers, calls⟩ := wf.of_widen properRange widening
          exact ⟨wfNext, wf.straight_of_widen properRange widening, grows,
            calls ▸ List.Subset.refl _, covers⟩
  | forward call =>
      cases reflects with
      | forward _ _ moved made =>
          exact ⟨wf.append_call (offset_ofWidth proper moved) made, straight,
            Range.subset_refl _, List.subset_append_left _ _,
            List.mem_append_right _ (List.mem_singleton.mpr rfl)⟩

/-- The effects of all uses are kept, unless one of them makes the usage unknown, and the range
stays straight; by induction on the uses.
-/
theorem collect_keeps {sites : List (ValueId × UseSite)} {usage : Usage Global}
    (wf : usage.WellFormed analysis.pointer.bits) (straight : usage.range.Straight)
    (standing : ∀ entry ∈ sites, entry.2 ∈ analysis.func.uses entry.1)
    (result : (analysis.collect base alloca usage sites).result = .ok tracked)
    : tracked.usage.WellFormed analysis.pointer.bits ∧ tracked.usage.range.Straight
      ∧ (tracked.usage.range.IsAll
        ∨ (usage.range ⊆ tracked.usage.range ∧ usage.calls ⊆ tracked.usage.calls
          ∧ ∀ entry ∈ sites, ∃ effect,
            analysis.effect base alloca entry.1 entry.2 = .ok effect
              ∧ KeptIn tracked.usage effect)) := by
  induction sites generalizing usage with
  | nil =>
      cases result
      exact ⟨wf, straight, Or.inr ⟨Range.subset_refl _, List.Subset.refl _, by simp⟩⟩
  | cons entry rest ih =>
      obtain ⟨effect, computed, ⟨_, _, _, forgotten, rfl⟩ | ⟨next, takes, later⟩⟩ :=
        collect_cons_cases result
      · obtain ⟨wfUnknown, all⟩ := wf.of_forget forgotten
        exact ⟨wfUnknown, Or.inr (Or.inl all), Or.inl all⟩
      obtain ⟨op, found, operand⟩ := Function.mem_uses.mp (standing entry List.mem_cons_self)
      obtain ⟨wfNext, straightNext, range, calls, kept⟩ :=
        takes.keeps proper (effect_reflects found operand computed) wf straight
      obtain ⟨wfTracked, straightTracked, known⟩ := ih wfNext straightNext
        (fun entry member => standing entry (List.mem_cons_of_mem _ member)) later
      refine ⟨wfTracked, straightTracked, known.imp_right fun keeps => ?_⟩
      obtain ⟨grows, more, keeps⟩ := keeps
      refine ⟨Range.subset_trans range grows, List.Subset.trans calls more, ?_⟩
      intro input member
      rcases List.mem_cons.mp member with rfl | member
      · exact ⟨effect, computed, kept.of_grows grows more⟩
      · exact keeps input member

/-- What tracking an address keeps. -/
theorem track_keeps (result : (analysis.track base alloca).result = .ok tracked)
    : tracked.usage.WellFormed analysis.pointer.bits ∧ tracked.usage.range.Straight
      ∧ (tracked.usage.range.IsAll ∨ ∀ entry ∈ analysis.sites base, ∃ effect,
        analysis.effect base alloca entry.1 entry.2 = .ok effect
          ∧ KeptIn tracked.usage effect) := by
  rw [result_track] at result
  obtain ⟨wf, straight, keeps⟩ := collect_keeps proper
    ⟨Range.ofWidth_bottom analysis.pointer.valid_bits, by simp, by simp⟩
    (Or.inl (Range.isNone_bottom _)) (fun _ => mem_uses_of_sites) result
  exact ⟨wf, straight, keeps.imp_right fun kept => kept.2.2⟩

end Steps

section Collecting

variable {analysis : LocalAnalysis} {lifetime : Lifetime} {possible : Possible}
  (reads : analysis.Reads lifetime) (closed : possible.Closed analysis.func analysis.pointer)

include reads closed

omit closed in
theorem not_canBeDead_of_isAlive {alloca : Option InstId} {inst : InstId}
    (alive : analysis.isAlive alloca inst = true) (made : InstId) (same : alloca = some made)
    : ¬ lifetime.CanBeDead made inst := by
  subst same
  rw [isAlive, reads.liveness] at alive
  exact Lifetime.not_canBeDead reads.describes alive

/-- A use whose effect is kept is accounted for. -/
theorem accounts_of_kept {place : Place} {usage : Usage Global}
    (wf : usage.WellFormed analysis.pointer.bits) {value : ValueId} {site : UseSite} {op : Inst}
    {effect : Effect}
    (reflects : analysis.Reflects place.base place.alloca value site op effect)
    (kept : KeptIn usage effect)
    : usage.Accounts Eq analysis.pointer possible place
        ⟨analysis.func, lifetime.toMarkedFlow, value, site, op⟩ := by
  cases reflects with
  | escape cause stands escapes => exact kept.elim
  | harmless other alive =>
      exact ⟨fun leak => (nomatch other.symm.trans leak),
        fun memory => not_canBeDead_of_isAlive reads (alive memory),
        fun accesses => (nomatch other.symm.trans accesses),
        fun passes => (nomatch other.symm.trans passes)⟩
  | access accesses alive computed =>
      obtain ⟨proper, covers⟩ := extentRange_covers reads closed computed
      refine ⟨fun leak => (nomatch accesses.symm.trans leak),
        fun _ => not_canBeDead_of_isAlive reads alive, fun same => ?_,
        fun passes => (nomatch accesses.symm.trans passes)⟩
      intro _ _ _ _ points spans short inside
      cases accesses.symm.trans same
      exact (covers points spans short inside).of_subset proper.wellFormed wf.range.wellFormed
        (proper.bits_eq.trans wf.range.bits_eq.symm) kept
  | forward passes alive moved made =>
      obtain ⟨_, _, covers⟩ := offset_covers reads closed moved
      refine ⟨fun leak => (nomatch passes.symm.trans leak),
        fun _ => not_canBeDead_of_isAlive reads alive,
        fun accesses => (nomatch passes.symm.trans accesses), fun same => ?_⟩
      cases passes.symm.trans same
      obtain ⟨rfl, _⟩ := Forward.eq_of_make made
      exact ⟨_, kept, rfl, rfl, covers⟩

end Collecting

/-- The usage of a tracked address says everything about it. -/
theorem track_explains {unit : Module} {analysis : LocalAnalysis} {lifetime : Lifetime}
    {possible : FunctionId → Possible} {place : Place} {tracked : Tracked}
    (reads : analysis.Reads lifetime) (pointer : analysis.pointer = unit.pointerWidth)
    (function : unit.function place.func = .ok analysis.func) (one : analysis.func.OneResult)
    (closed : (possible place.func).Closed analysis.func analysis.pointer)
    (result : (analysis.track place.base place.alloca).result = .ok tracked)
    : unit.Explains possible Eq place tracked.usage := by
  obtain ⟨wfTracked, _, keeps⟩ := track_keeps reads.proper result
  refine ⟨pointer ▸ wfTracked, keeps.imp_right ?_⟩
  rintro keeps ⟨func, marked, value, site, op⟩ used
  obtain rfl : analysis.func = func := Except.ok.inj (function.symm.trans used.function)
  obtain rfl : lifetime.toMarkedFlow = marked :=
    Except.ok.inj (reads.describes.control.symm.trans used.control)
  have stands : site ∈ analysis.func.uses value :=
    Function.mem_uses.mpr ⟨op, used.inst, used.operand⟩
  have member : (value, site) ∈ analysis.sites place.base := by
    simp only [sites, List.mem_flatMap, List.mem_map, List.mem_filter, Prod.mk.injEq,
      reads.liveness]
    exact ⟨value, Function.mem_derivedFrom one reads.describes used.derived, site,
      ⟨stands, Lifetime.isReachable_of_executes reads.describes used.executes⟩, rfl, rfl⟩
  obtain ⟨effect, computed, kept⟩ := keeps _ member
  rw [← pointer]
  exact accounts_of_kept reads closed wfTracked
    (effect_reflects used.inst used.operand computed) kept

end LocalAnalysis

end StackBounds
