import StackBounds.Proofs.Control

/-! Lifetimes: when the sweeps end, what is alive at the starts and at the ends of blocks fits
together, so an allocation that is found alive after an instruction is alive there however control
comes to it.
-/

namespace StackBounds

namespace MarkedFlow

variable {marked : MarkedFlow} {tables : LiveTables} {alloca : InstId}

/-- What every visit keeps holds of the tables in the end. -/
theorem settle_preserves (kept : LiveTables → Prop) {shrinking : marked.Shrinking tables}
    (visits : ∀ state, ∀ block ∈ marked.reachable, kept state.1
      → kept (marked.visit state block).1)
    (initially : kept tables)
    : kept (marked.settle tables shrinking) := by
  have sweeps (tables : LiveTables) (before : kept tables) : kept (marked.sweep tables).1 := by
    have folded (blocks : List BlockId) (state : LiveTables × Bool)
        (inside : ∀ block ∈ blocks, block ∈ marked.reachable) (before : kept state.1)
        : kept (blocks.foldl marked.visit state).1 := by
      induction blocks generalizing state with
      | nil => exact before
      | cons block rest ih =>
          exact ih _ (fun other later => inside other (List.mem_cons_of_mem _ later))
            (visits state block (inside block List.mem_cons_self) before)
    exact folded _ (tables, false) (fun _ member => List.mem_reverse.mp member) before
  fun_induction marked.settle tables shrinking with
  | case1 tables shrinking changed fewer ih => exact ih (sweeps tables initially)
  | case2 tables shrinking unchanged => exact sweeps tables initially

/-- What is alive at the starts and at the ends of the reachable blocks fits together. -/
structure Stable (marked : MarkedFlow) (tables : LiveTables) : Prop where
  ins : ∀ block ∈ marked.reachable, tables.aliveIn block = marked.meet tables block
  outs : ∀ block ∈ marked.reachable, tables.aliveOut block = marked.leaves tables block

theorem meet_congr {other : LiveTables}
    (same : ∀ block, other.aliveOut block = tables.aliveOut block) (block : BlockId)
    : marked.meet other block = marked.meet tables block := by
  unfold meet
  rw [funext same]

theorem leaves_congr {other : LiveTables}
    (same : ∀ block, other.aliveOut block = tables.aliveOut block) (block : BlockId)
    : marked.leaves other block = marked.leaves tables block := by
  rw [leaves, leaves, meet_congr same]

/-- Visits that note no change leave the ends as they are, and enter the starts that belong to them;
by induction on the blocks.
-/
theorem foldl_visit_of_unchanged {blocks : List BlockId} {state : LiveTables × Bool}
    (unchanged : (blocks.foldl marked.visit state).2 = false)
    : state.2 = false
      ∧ (∀ other, (blocks.foldl marked.visit state).1.aliveOut other = state.1.aliveOut other)
      ∧ (∀ other, (blocks.foldl marked.visit state).1.aliveIn other
        = if other ∈ blocks then marked.meet state.1 other else state.1.aliveIn other)
      ∧ ∀ block ∈ blocks, state.1.aliveOut block = marked.leaves state.1 block := by
  induction blocks generalizing state with
  | nil => simpa using unchanged
  | cons block rest ih =>
      obtain ⟨still, outs, ins, settled⟩ := ih unchanged
      obtain ⟨before, same⟩ : state.2 = false
          ∧ marked.leaves state.1 block = state.1.aliveOut block := by
        have quiet := Bool.eq_false_iff.mp still
        rw [Ne, changed_visit_iff, not_or, Bool.not_eq_true, Classical.not_not] at quiet
        exact quiet
      have kept (other : BlockId)
          : (marked.visit state block).1.aliveOut other = state.1.aliveOut other := by
        rw [aliveOut_visit]
        split
        · rename_i here
          rw [same, here]
        · rfl
      refine ⟨before, fun other => (outs other).trans (kept other), fun other => ?_, ?_⟩
      · rw [List.foldl_cons, ins other, meet_congr kept, aliveIn_visit]
        by_cases later : other ∈ rest
        · simp [later]
        · by_cases here : other = block
          · simp [here]
          · simp [later, here]
      · intro other member
        rcases List.mem_cons.mp member with rfl | later
        · exact same.symm
        · have stable := settled other later
          rwa [kept, leaves_congr kept] at stable

/-- A sweep that changes nothing leaves tables that fit together. -/
theorem stable_sweep (unchanged : (marked.sweep tables).2 = false)
    : marked.Stable (marked.sweep tables).1 := by
  obtain ⟨_, outs, ins, settled⟩ := foldl_visit_of_unchanged unchanged
  refine ⟨fun block member => ?_, fun block member => ?_⟩
  · rw [sweep, ins block, if_pos (List.mem_reverse.mpr member), meet_congr outs]
  · rw [sweep, outs block, settled block (List.mem_reverse.mpr member), leaves_congr outs]

theorem settle_of_unchanged {final : LiveTables} {shrinking : marked.Shrinking tables}
    (swept : marked.sweep tables = (final, false))
    : marked.settle tables shrinking = final := by
  rw [settle, dif_neg (by simp [swept]), swept]

theorem stable_settle (shrinking : marked.Shrinking tables)
    : marked.Stable (marked.settle tables shrinking) := by
  fun_induction marked.settle tables shrinking with
  | case1 tables shrinking changed fewer ih => exact ih
  | case2 tables shrinking unchanged => exact stable_sweep (Bool.eq_false_iff.mpr unchanged)

theorem Enters.reaches {block : BlockId} {alive : Bool} (entered : marked.Enters alloca block alive)
    : marked.flow.Reaches block := by
  induction entered with
  | entry first => exact .entry first
  | edge _ edge ih => exact ih.edge edge

/-- An allocation that is found alive at the start of a block is alive there however control comes
to it; by induction on the way.
-/
theorem Enters.alive {block : BlockId} {alive : Bool}
    (reachable : marked.reachable = marked.flow.postOrder) (stable : marked.Stable tables)
    (entered : marked.Enters alloca block alive)
    (found : (tables.aliveIn block).contains alloca.index = true)
    : alive = true := by
  have listed {block : BlockId} {alive : Bool} (entered : marked.Enters alloca block alive)
      : block ∈ marked.reachable := reachable ▸ entered.reaches.mem_postOrder
  induction entered with
  | entry first =>
      rw [stable.ins _ (listed (.entry first))] at found
      exact absurd first (contains_meet.mp found).1
  | @edge block next alive entered edge ih =>
      rw [stable.ins _ (listed (entered.edge edge))] at found
      have source : block ∈ marked.sources next :=
        List.mem_filter.mpr ⟨Flow.mem_preds.mpr edge, List.contains_iff_mem.mpr (listed entered)⟩
      have exit := (contains_meet.mp found).2.2 block source
      rw [stable.outs _ (listed entered), leaves, contains_applyMarkers,
        ← stable.ins _ (listed entered)] at exit
      exact through_mono ih exit

end MarkedFlow

namespace Lifetime

variable {func : Function} {lifetime : Lifetime} {alloca inst : InstId}

/-- Lifetimes are what the sweeps over the control flow find. -/
structure Describes (lifetime : Lifetime) (func : Function) : Prop where
  control : MarkedFlow.ofFunction func = .ok lifetime.toMarkedFlow
  reachable : lifetime.reachable = lifetime.flow.postOrder
  tables : lifetime.tables = lifetime.settle lifetime.start lifetime.shrinking_start

theorem describes_of_ofFunction (made : ofFunction func = .ok lifetime)
    : lifetime.Describes func := by
  obtain ⟨marked, control, made⟩ := exists_of_bind_eq_ok made
  cases made
  refine ⟨control, ?_, rfl⟩
  obtain ⟨flow, _, control⟩ := exists_of_bind_eq_ok control
  obtain ⟨markers, _, control⟩ := exists_of_bind_eq_ok control
  cases control
  rfl

theorem contains_interesting_iff
    : lifetime.interesting.contains alloca.index = true ↔ alloca ∈ lifetime.tracked := by
  rw [MarkedFlow.contains_interesting]
  constructor
  · rintro ⟨other, tracked, same⟩
    obtain rfl : other = alloca := congrArg InstId.mk same
    exact tracked
  · intro tracked
    exact ⟨alloca, tracked, rfl⟩

variable (describes : lifetime.Describes func)

include describes

theorem Describes.stable : lifetime.Stable lifetime.tables :=
  describes.tables ▸ MarkedFlow.stable_settle _

theorem isReachable_of_executes (executes : lifetime.Executes inst)
    : lifetime.isReachable inst = true := by
  obtain ⟨block, standing, reached⟩ := executes
  have listed : block ∈ lifetime.reachable := describes.reachable ▸ reached.mem_postOrder
  simp [isReachable, standing, listed]

theorem executes_of_isReachable (live : lifetime.isReachable inst = true)
    : lifetime.Executes inst := by
  rw [isReachable, Option.any_eq_true] at live
  obtain ⟨block, standing, listed⟩ := live
  have member : block ∈ lifetime.flow.postOrder :=
    describes.reachable ▸ List.contains_iff_mem.mp listed
  exact ⟨block, standing, Flow.mem_postOrder_iff.mp member⟩

/-- What is found alive after an instruction cannot be dead there. -/
theorem not_canBeDead (alive : lifetime.isAliveAfter alloca inst = true)
    : ¬ lifetime.CanBeDead alloca inst := by
  rintro ⟨tracked, block, state, standing, entered, dead⟩
  simp only [isAliveAfter, contains_interesting_iff.mpr tracked, ↓reduceIte, standing,
    Bool.and_eq_true, MarkedFlow.contains_applyMarkers] at alive
  have certain :=
    MarkedFlow.through_mono (entered.alive describes.reachable describes.stable) alive.2
  cases dead.symm.trans certain

end Lifetime

end StackBounds
