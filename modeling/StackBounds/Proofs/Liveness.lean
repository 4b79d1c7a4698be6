import StackBounds.Proofs.Lifetimes
import StackBounds.Proofs.Markers

/-! Lifetimes on every path: an allocation is found alive after an instruction exactly when the
markers of every path from the entry leave it alive there.
-/

namespace StackBounds

open Relation (ReflTransGen TransGen)

-----------------------------------------------------------------------------------------
-- Paths
-----------------------------------------------------------------------------------------

namespace Function

/-- The last instruction of a placed block can continue at another block. -/
def Jumps (func : Function) (block next : BlockId) : Prop :=
  ∃ placed ∈ func.layout, placed.id = block
    ∧ ∃ last inst, placed.insts.getLast? = some last ∧ func.inst last = .ok inst
      ∧ next ∈ inst.branching.dests

/-- A path from the entry to a block, with the blocks that it went through before. -/
inductive Path (func : Function) : List BlockId → BlockId → Prop
  | entry {block} (first : func.entry? = some block) : func.Path [] block
  | jump {earlier block next}
    (path : func.Path earlier block) (jumps : func.Jumps block next)
    : func.Path (earlier ++ [block]) next

end Function

namespace Flow

variable {func : Function} {flow : Flow} {block next : BlockId}

theorem mem_edgesOf {placed : PlacedBlock} {edges : List (BlockId × BlockId)}
    (result : edgesOf func placed = .ok edges)
    : (block, next) ∈ edges ↔ placed.id = block
        ∧ ∃ last inst, placed.insts.getLast? = some last ∧ func.inst last = .ok inst
          ∧ next ∈ inst.branching.dests := by
  unfold edgesOf at result
  cases ended : placed.insts.getLast? with
  | none =>
      simp only [ended] at result
      cases result
      simp
  | some last =>
      simp only [ended] at result
      obtain ⟨inst, found, result⟩ := exists_of_bind_eq_ok result
      cases result
      simp [found, and_comm]

/-- The edges are the jumps between blocks. -/
theorem mem_edges (result : ofFunction func = .ok flow)
    : (block, next) ∈ flow.edges ↔ func.Jumps block next := by
  obtain ⟨edges, found, result⟩ := exists_of_bind_eq_ok result
  cases result
  have related := mapM_eq_ok_iff.mp found
  rw [List.mem_flatten]
  constructor
  · rintro ⟨group, member, edge⟩
    obtain ⟨placed, standing, answered⟩ := exists_input related member
    exact ⟨placed, standing, (mem_edgesOf answered).mp edge⟩
  · rintro ⟨placed, standing, jumps⟩
    obtain ⟨group, member, answered⟩ := exists_answer related standing
    exact ⟨group, member, (mem_edgesOf answered).mpr jumps⟩

theorem entry_of_ofFunction (result : ofFunction func = .ok flow) : flow.entry = func.entry? := by
  obtain ⟨edges, _, result⟩ := exists_of_bind_eq_ok result
  cases result
  rfl

end Flow

namespace MarkedFlow

/-- A flow and its markers are read off a function. -/
structure IsOf (marked : MarkedFlow) (func : Function) : Prop where
  func_eq : marked.func = func
  flow : Flow.ofFunction func = .ok marked.flow
  markers : func.markers = .ok marked.markers
  reachable : marked.reachable = marked.flow.postOrder

theorem isOf_of_ofFunction {func : Function} {marked : MarkedFlow}
    (result : ofFunction func = .ok marked)
    : marked.IsOf func := by
  obtain ⟨flow, flowed, result⟩ := exists_of_bind_eq_ok result
  obtain ⟨markers, found, result⟩ := exists_of_bind_eq_ok result
  cases result
  exact ⟨rfl, flowed, found, rfl⟩

variable {func : Function} {marked : MarkedFlow} {alloca : InstId} {block : BlockId}
  (isOf : marked.IsOf func)

include isOf

/-- The marker that is found for a placed instruction is the one that the instruction is. -/
theorem markerAt_eq_some_iff {inst : InstId} {marker : Marker}
    (placed : inst ∈ func.placedInsts)
    : marked.markerAt inst = some marker
      ↔ marker.inst = inst ∧ func.Marks inst marker.alloca marker.op := by
  have found_marks {marker : Marker} (found : marked.markerAt inst = some marker)
      : marker.inst = inst ∧ func.Marks inst marker.alloca marker.op := by
    have same : marker.inst = inst := by simpa using List.find?_some found
    have marks := ((Function.mem_markers isOf.markers).mp (List.mem_of_find?_eq_some found)).2
    exact ⟨same, same ▸ marks⟩
  constructor
  · exact found_marks
  · rintro ⟨rfl, marks⟩
    have listed : marker ∈ marked.markers := (Function.mem_markers isOf.markers).mpr ⟨placed, marks⟩
    cases found : marked.markerAt marker.inst with
    | none =>
        have never := List.find?_eq_none.mp found _ listed
        simp at never
    | some other =>
        obtain ⟨answer, result⟩ := exists_of_filterMapM isOf.markers placed
        have first := (Function.marker_eq_some_iff result).mpr ⟨rfl, marks⟩
        exact ((Function.marker_eq_some_iff result).mpr (found_marks found)).symm.trans first

theorem step_of_marks {inst : InstId} {op : LifetimeOp} {alive : Bool}
    (placed : inst ∈ func.placedInsts) (marks : func.Marks inst alloca op)
    : marked.step alloca alive inst = (op == .start) := by
  have found : marked.markerAt inst = some ⟨inst, alloca, op⟩ :=
    (markerAt_eq_some_iff isOf placed).mpr ⟨rfl, marks⟩
  rw [step, found]
  exact if_pos rfl

theorem step_of_unmarked {inst : InstId} {alive : Bool}
    (unmarked : ∀ op, ¬ func.Marks inst alloca op)
    : marked.step alloca alive inst = alive := by
  unfold step
  split
  · rfl
  · rename_i marker found
    have same : marker.inst = inst := by simpa using List.find?_some found
    have marks := ((Function.mem_markers isOf.markers).mp (List.mem_of_find?_eq_some found)).2
    rw [if_neg]
    rintro rfl
    exact unmarked _ (same ▸ marks)

/-- The analysis goes through placed instructions as their markers run. -/
theorem runs_iff_through {insts : List InstId} (placed : ∀ inst ∈ insts, inst ∈ func.placedInsts)
    {before after : Bool}
    : func.Runs alloca before insts after ↔ marked.through alloca before insts = after := by
  constructor
  · intro runs
    induction runs with
    | nil => rfl
    | marker marks _ ih =>
        have later := ih fun inst member => placed inst (List.mem_cons_of_mem _ member)
        rwa [through, List.foldl_cons, step_of_marks isOf (placed _ List.mem_cons_self) marks]
    | other unmarked _ ih =>
        have later := ih fun inst member => placed inst (List.mem_cons_of_mem _ member)
        rwa [through, List.foldl_cons, step_of_unmarked isOf unmarked]
  · intro ends
    induction insts generalizing before with
    | nil =>
        cases ends
        exact .nil
    | cons inst rest ih =>
        rw [through, List.foldl_cons] at ends
        have later := ih (fun inst member => placed inst (List.mem_cons_of_mem _ member)) ends
        by_cases marked : ∃ op, func.Marks inst alloca op
        · obtain ⟨op, marks⟩ := marked
          rw [step_of_marks isOf (placed _ List.mem_cons_self) marks] at later
          exact .marker marks later
        · have unmarked : ∀ op, ¬ func.Marks inst alloca op := fun op marks => marked ⟨op, marks⟩
          rw [step_of_unmarked isOf unmarked] at later
          exact .other unmarked later

theorem mem_tracked : alloca ∈ marked.tracked ↔ func.IsMarked alloca := by
  rw [tracked, List.mem_eraseDups, List.mem_map]
  constructor
  · rintro ⟨marker, member, rfl⟩
    obtain ⟨placed, marks⟩ := (Function.mem_markers isOf.markers).mp member
    exact ⟨marker.inst, placed, marker.op, marks⟩
  · rintro ⟨inst, placed, op, marks⟩
    exact ⟨⟨inst, alloca, op⟩, (Function.mem_markers isOf.markers).mpr ⟨placed, marks⟩, rfl⟩

/-- Control comes to a block as the markers on a path leave the allocation. -/
theorem enters_iff_path {alive : Bool}
    : marked.Enters alloca block alive
      ↔ ∃ earlier, func.Path earlier block
        ∧ marked.through alloca false (earlier.flatMap func.instsOf) = alive := by
  constructor
  · intro entered
    induction entered with
    | entry first => exact ⟨[], .entry (Flow.entry_of_ofFunction isOf.flow ▸ first), rfl⟩
    | edge _ edge ih =>
        obtain ⟨earlier, path, rfl⟩ := ih
        refine ⟨_, path.jump ((Flow.mem_edges isOf.flow).mp edge), ?_⟩
        rw [List.flatMap_append, List.flatMap_singleton, through, List.foldl_append, isOf.func_eq]
        rfl
  · rintro ⟨earlier, path, ends⟩
    induction path generalizing alive with
    | entry first =>
        cases ends
        exact .entry (Flow.entry_of_ofFunction isOf.flow ▸ first)
    | jump _ jumps ih =>
        rw [List.flatMap_append, List.flatMap_singleton, through, List.foldl_append] at ends
        have entered := (ih rfl).edge ((Flow.mem_edges isOf.flow).mpr jumps)
        rw [isOf.func_eq] at entered
        exact ends ▸ entered

theorem reaches_iff_path : marked.flow.Reaches block ↔ ∃ earlier, func.Path earlier block := by
  constructor
  · intro reached
    induction reached with
    | entry first => exact ⟨[], .entry (Flow.entry_of_ofFunction isOf.flow ▸ first)⟩
    | edge _ edge ih =>
        obtain ⟨earlier, path⟩ := ih
        exact ⟨_, path.jump ((Flow.mem_edges isOf.flow).mp edge)⟩
  · rintro ⟨earlier, path⟩
    exact ((enters_iff_path isOf).mpr ⟨earlier, path, rfl⟩ : marked.Enters ⟨0⟩ block _).reaches

-----------------------------------------------------------------------------------------
-- The greatest settled set
-----------------------------------------------------------------------------------------

omit isOf

/-- However control comes to a block, it leaves it with the allocation alive. -/
def LeavesAlive (marked : MarkedFlow) (alloca : InstId) (block : BlockId) : Prop :=
  marked.flow.Reaches block
    ∧ ∀ alive, marked.Enters alloca block alive
      → marked.through alloca alive (marked.func.instsOf block) = true

theorem exists_enters (alloca : InstId) (reached : marked.flow.Reaches block)
    : ∃ alive, marked.Enters alloca block alive := by
  induction reached with
  | entry first => exact ⟨_, .entry first⟩
  | edge _ edge ih =>
      obtain ⟨alive, entered⟩ := ih
      exact ⟨_, entered.edge edge⟩

variable (reachable : marked.reachable = marked.flow.postOrder)

include reachable

/-- An allocation that is alive however control comes to a block is found so, as long as it is
listed at the end of every block that always leaves it alive.
-/
theorem contains_meet_of_enters {tables : LiveTables}
    (kept : ∀ other, marked.LeavesAlive alloca other
      → (tables.aliveOut other).contains alloca.index = true)
    (reached : marked.flow.Reaches block)
    (alive : ∀ state, marked.Enters alloca block state → state = true)
    : (marked.meet tables block).contains alloca.index = true := by
  have notEntry : marked.flow.entry ≠ some block := fun first =>
    Bool.false_ne_true (alive false (.entry first))
  refine contains_meet.mpr ⟨notEntry, ?_, fun source member => ?_⟩
  · cases reached with
    | entry first => exact absurd first notEntry
    | @edge earlier _ before edge =>
        have listed : earlier ∈ marked.reachable := reachable ▸ before.mem_postOrder
        exact List.ne_nil_of_mem (List.mem_filter.mpr
          ⟨Flow.mem_preds.mpr edge, List.contains_iff_mem.mpr listed⟩)
  · obtain ⟨pred, listed⟩ := List.mem_filter.mp member
    have before : marked.flow.Reaches source :=
      Flow.mem_postOrder_iff.mp (reachable ▸ List.contains_iff_mem.mp listed)
    refine kept source ⟨before, fun state entered => ?_⟩
    exact alive _ (entered.edge (Flow.mem_preds.mp pred))

/-- What some instructions of a block leave alive on every path is found alive. Either they do so
in any case, or the allocation is alive however control comes to the block.
-/
theorem through_of_enters {tables : LiveTables} {insts : List InstId}
    (kept : ∀ other, marked.LeavesAlive alloca other
      → (tables.aliveOut other).contains alloca.index = true)
    (reached : marked.flow.Reaches block)
    (alive : ∀ state, marked.Enters alloca block state
      → marked.through alloca state insts = true)
    : marked.through alloca ((marked.meet tables block).contains alloca.index) insts = true := by
  by_cases always : marked.through alloca false insts = true
  · exact through_mono (fun never : false = true => Bool.noConfusion never) always
  have entersAlive : ∀ state, marked.Enters alloca block state → state = true := by
    intro state entered
    cases state with
    | true => rfl
    | false => exact absurd (alive false entered) always
  obtain ⟨state, entered⟩ := exists_enters alloca reached
  have isAlive := alive state entered
  rw [entersAlive state entered] at isAlive
  rwa [contains_meet_of_enters reachable kept reached entersAlive]

/-- The sweeps never drop an allocation from the end of a block that always leaves it alive. -/
theorem aliveOut_settle_of_leavesAlive (listed : alloca ∈ marked.tracked)
    {shrinking : marked.Shrinking marked.start} (leaves : marked.LeavesAlive alloca block)
    : ((marked.settle marked.start shrinking).aliveOut block).contains alloca.index = true := by
  refine settle_preserves
    (fun tables => ∀ other, marked.LeavesAlive alloca other
      → (tables.aliveOut other).contains alloca.index = true)
    (fun state visited _ kept other otherLeaves => ?_) (fun other otherLeaves => ?_) block leaves
  · rw [aliveOut_visit]
    split
    · rename_i here
      subst here
      rw [MarkedFlow.leaves, contains_applyMarkers]
      exact through_of_enters reachable kept otherLeaves.1 otherLeaves.2
    · exact kept other otherLeaves
  · have member : other ∈ marked.reachable := reachable ▸ otherLeaves.1.mem_postOrder
    rw [aliveOut_start member]
    exact contains_interesting.mpr ⟨alloca, listed, rfl⟩

-----------------------------------------------------------------------------------------
-- The end of the sweeps
-----------------------------------------------------------------------------------------

omit reachable

/-- Sweeps over the blocks, one after the other, each of which changes something but the last one;
with their number.
-/
inductive Sweeps (marked : MarkedFlow) : Nat → LiveTables → LiveTables → Prop
  | last {tables final} (swept : marked.sweep tables = (final, false))
    : marked.Sweeps 1 tables final
  | again {count tables next final}
    (swept : marked.sweep tables = (next, true)) (later : marked.Sweeps count next final)
    : marked.Sweeps (count + 1) tables final

/-- There is at most one sweep more than there are allocations alive at the ends of blocks. -/
theorem exists_sweeps_settle {tables : LiveTables} (shrinking : marked.Shrinking tables)
    : ∃ count ≤ marked.weight tables + 1,
        marked.Sweeps count tables (marked.settle tables shrinking) := by
  fun_induction marked.settle tables shrinking with
  | case1 tables shrinking changed fewer ih =>
      obtain ⟨count, bound, later⟩ := ih
      exact ⟨count + 1, by omega, .again (Prod.ext rfl changed) later⟩
  | case2 tables shrinking unchanged =>
      exact ⟨1, by omega, .last (Prod.ext rfl (Bool.eq_false_iff.mpr unchanged))⟩

theorem weight_le (marked : MarkedFlow) (tables : LiveTables)
    : marked.weight tables ≤ marked.reachable.length * marked.tracked.length := by
  refine Nat.le_trans List.countP_le_length (Nat.le_of_eq ?_)
  simp [List.length_flatMap]

end MarkedFlow

namespace Lifetime

variable {func : Function} {lifetime : Lifetime} {alloca inst : InstId} {block : BlockId}
  (describes : lifetime.Describes func)

include describes

theorem isOf : lifetime.IsOf func := MarkedFlow.isOf_of_ofFunction describes.control

/-- A marked allocation is found alive after an instruction of a reachable block exactly when it is
alive there however control comes to the block.
-/
theorem isAliveAfter_iff_enters (tracked : alloca ∈ lifetime.tracked)
    (standing : func.blockOf inst = some block) (reached : lifetime.flow.Reaches block)
    : lifetime.isAliveAfter alloca inst = true
      ↔ ∀ state, lifetime.Enters alloca block state
        → lifetime.through alloca state (upTo inst (func.instsOf block)) = true := by
  have func_eq := (isOf describes).func_eq
  have member : block ∈ lifetime.reachable := describes.reachable ▸ reached.mem_postOrder
  simp only [isAliveAfter, contains_interesting_iff.mpr tracked, ↓reduceIte, func_eq, standing,
    List.contains_iff_mem.mpr member, Bool.true_and, MarkedFlow.contains_applyMarkers]
  constructor
  · intro found state entered
    exact MarkedFlow.through_mono (entered.alive describes.reachable describes.stable) found
  · intro alive
    rw [describes.stable.ins block member]
    refine MarkedFlow.through_of_enters describes.reachable (fun other leaves => ?_) reached alive
    rw [describes.tables]
    exact MarkedFlow.aliveOut_settle_of_leavesAlive describes.reachable tracked leaves

theorem isAliveAfter_of_unreached (tracked : alloca ∈ lifetime.tracked)
    (unreached : ∀ block, func.blockOf inst = some block → ¬ lifetime.flow.Reaches block)
    : lifetime.isAliveAfter alloca inst = false := by
  have func_eq := (isOf describes).func_eq
  simp only [isAliveAfter, contains_interesting_iff.mpr tracked, ↓reduceIte, func_eq]
  cases standing : func.blockOf inst with
  | none => rfl
  | some block =>
      have unlisted : block ∉ lifetime.reachable := fun listed =>
        unreached block standing (Flow.mem_postOrder_iff.mp (describes.reachable ▸ listed))
      simp [unlisted]

omit describes

theorem isAliveAfter_of_untracked (untracked : alloca ∉ lifetime.tracked)
    : lifetime.isAliveAfter alloca inst = true := by
  rw [isAliveAfter, if_neg (mt contains_interesting_iff.mp untracked)]

/-- The lifetimes of a complete function exist, and then the chains of all markers end, unless the
address of a marker loops.
-/
theorem ofFunction_cases (complete : func.Complete)
    : (∃ lifetime, ofFunction func = .ok lifetime
        ∧ ∀ addr, func.MarksAddress addr → func.ChainEnds addr)
      ∨ ∃ addr, ∃ loop : ValueId, func.MarksAddress addr
        ∧ ReflTransGen func.SameAddress addr loop ∧ TransGen func.SameAddress loop loop
        ∧ ofFunction func = .error (.endlessAddress loop.index) := by
  have edges : ∃ edges, func.layout.mapM (Flow.edgesOf func) = .ok edges := by
    refine exists_mapM_eq_ok fun placed standing => ?_
    unfold Flow.edgesOf
    split
    · exact ⟨_, rfl⟩
    · rename_i last ended
      obtain ⟨inst, found⟩ := complete.placed last
        (List.mem_flatMap.mpr ⟨placed, standing, List.mem_of_getLast? ended⟩)
      exact ⟨_, by rw [found, ok_bind, pure_eq_ok]⟩
  obtain ⟨edges, flowed⟩ := edges
  have flow : Flow.ofFunction func = .ok ⟨func.entry?, edges.flatten⟩ := by
    rw [Flow.ofFunction, flowed, ok_bind, pure_eq_ok]
  obtain ⟨markers, found, ends⟩ | ⟨addr, loop, marks, chain, back, failed⟩ :=
    Function.markers_cases complete
  · exact .inl ⟨_, by
      rw [ofFunction, MarkedFlow.ofFunction, flow, ok_bind, found, ok_bind, pure_eq_ok, ok_bind,
        pure_eq_ok], ends⟩
  · exact .inr ⟨addr, loop, marks, chain, back, by
      rw [ofFunction, MarkedFlow.ofFunction, flow, ok_bind, failed]; rfl⟩

theorem exists_ofFunction (complete : func.Complete) (acyclic : func.Acyclic)
    : ∃ lifetime, ofFunction func = .ok lifetime := by
  obtain ⟨lifetime, made, _⟩ | ⟨_, loop, _, _, back, _⟩ := ofFunction_cases complete
  · exact ⟨lifetime, made⟩
  · exact absurd back (acyclic loop)

/-- Lifetimes are the meet over all paths. In a function whose casts and offsets of zero form no
cycle, they exist when every number names something: the sweeps end, after at most one more than
there are reachable blocks times marked allocations. After an instruction of a block that a path
leads to, a marked allocation is found alive exactly when the markers of every path up to there
leave it alive; after any other instruction it is found dead. An allocation without markers is
found alive everywhere.
-/
theorem isAliveAfter_meets_paths (acyclic : func.Acyclic)
    : (func.Complete → ∃ lifetime, ofFunction func = .ok lifetime)
      ∧ ∀ lifetime, ofFunction func = .ok lifetime →
        (∃ count ≤ lifetime.reachable.length * lifetime.tracked.length + 1,
          lifetime.Sweeps count lifetime.start lifetime.tables)
        ∧ ∀ alloca inst,
          (func.IsMarked alloca →
            (∀ earlier block, func.blockOf inst = some block → func.Path earlier block
              → (lifetime.isAliveAfter alloca inst = true
                ↔ ∀ path, func.Path path block → func.Runs alloca false
                  (path.flatMap func.instsOf ++ upTo inst (func.instsOf block)) true))
            ∧ ((¬ ∃ earlier block, func.blockOf inst = some block ∧ func.Path earlier block)
              → lifetime.isAliveAfter alloca inst = false))
          ∧ (¬ func.IsMarked alloca → lifetime.isAliveAfter alloca inst = true) := by
  refine ⟨fun complete => exists_ofFunction complete acyclic, fun lifetime made => ?_⟩
  have describes := describes_of_ofFunction made
  have isOf := isOf describes
  refine ⟨?_, fun alloca inst => ⟨fun marked => ⟨fun earlier block standing path => ?_,
    fun unreached => ?_⟩, fun unmarked => ?_⟩⟩
  · obtain ⟨count, bound, sweeps⟩ :=
      MarkedFlow.exists_sweeps_settle lifetime.toMarkedFlow.shrinking_start
    have few := lifetime.toMarkedFlow.weight_le lifetime.toMarkedFlow.start
    exact ⟨count, by omega, describes.tables ▸ sweeps⟩
  · have tracked := (MarkedFlow.mem_tracked isOf).mpr marked
    have reached := (MarkedFlow.reaches_iff_path isOf).mpr ⟨earlier, path⟩
    have placed (path : List BlockId) : ∀ other ∈ path.flatMap func.instsOf
        ++ upTo inst (func.instsOf block), other ∈ func.placedInsts := fun _ =>
      Function.mem_placedInsts_of_path
    rw [isAliveAfter_iff_enters describes tracked standing reached]
    constructor
    · intro alive path isPath
      rw [MarkedFlow.runs_iff_through isOf (placed path), MarkedFlow.through, List.foldl_append]
      exact alive _ ((MarkedFlow.enters_iff_path isOf).mpr ⟨path, isPath, rfl⟩)
    · intro alive state entered
      obtain ⟨path, isPath, rfl⟩ := (MarkedFlow.enters_iff_path isOf).mp entered
      have runs := alive path isPath
      rwa [MarkedFlow.runs_iff_through isOf (placed path), MarkedFlow.through,
        List.foldl_append] at runs
  · refine isAliveAfter_of_unreached describes ((MarkedFlow.mem_tracked isOf).mpr marked) ?_
    intro block standing reached
    obtain ⟨earlier, path⟩ := (MarkedFlow.reaches_iff_path isOf).mp reached
    exact unreached ⟨earlier, block, standing, path⟩
  · exact isAliveAfter_of_untracked
      fun tracked => unmarked ((MarkedFlow.mem_tracked isOf).mp tracked)

/-- An allocation starts to live, and on one of two ways to the last block it is ended. The markers
name it by a cast, and nothing leads to the fourth block.
-/
def detour : Function where
  sig := .declared "f" .exported [.i1] .unit
  values := [.argument .i1 0, .result ⟨0⟩ .ptr, .result ⟨1⟩ .ptr]
  insts := [.alloca .i8 none, .cast .bitcast ⟨1⟩ .ptr, .lifetime .start 1 ⟨2⟩,
    .branch ⟨0⟩ ⟨1⟩ ⟨2⟩, .lifetime .stop 1 ⟨2⟩, .jump ⟨2⟩, .ret none, .ret none]
  blockCount := 4
  layout := [⟨⟨0⟩, [⟨0⟩, ⟨1⟩, ⟨2⟩, ⟨3⟩]⟩, ⟨⟨1⟩, [⟨4⟩, ⟨5⟩]⟩, ⟨⟨2⟩, [⟨6⟩]⟩, ⟨⟨3⟩, [⟨7⟩]⟩]

theorem detour_acyclic : detour.Acyclic := by
  have falls (addr source : ValueId) (same : detour.SameAddress addr source)
      : source.index < addr.index := by
    cases same with
    | bitcast value op =>
        obtain ⟨_ | _ | _ | index⟩ := addr <;> cases value <;> cases op
        decide
    | ptrAdd value op _ _ =>
        obtain ⟨_ | _ | _ | index⟩ := addr <;> cases value <;> cases op
  intro addr cycle
  have below (source : ValueId) (chain : TransGen detour.SameAddress addr source)
      : source.index < addr.index := by
    induction chain with
    | single same => exact falls _ _ same
    | tail _ same ih => exact Nat.lt_trans (falls _ _ same) ih
  exact Nat.lt_irrefl _ (below addr cycle)

theorem detour_complete : detour.Complete := by
  refine ⟨fun id placed => ?_, fun id inst found operand member => ?_, fun id inst ty found => ?_⟩
  · have small : id.index < 8 := by
      revert id
      decide
    exact ⟨_, Function.inst_eq_ok_iff.mpr (List.getElem?_eq_getElem small)⟩
  · have listed := List.mem_of_getElem? (Function.inst_eq_ok_iff.mp found)
    have small : operand.index < 3 := by
      simp only [detour, List.mem_cons, List.not_mem_nil, or_false] at listed
      rcases listed with rfl | rfl | rfl | rfl | rfl | rfl | rfl | rfl
      all_goals
        revert operand
        decide
    exact ⟨_, Function.value_eq_ok_iff.mpr (List.getElem?_eq_getElem small)⟩
  · obtain ⟨_ | _ | _ | index⟩ := id <;> cases found <;> exact ⟨_, rfl⟩

theorem detour_marks (op : LifetimeOp) (inst : InstId)
    (found : detour.inst inst = .ok (.lifetime op 1 ⟨2⟩))
    : detour.Marks inst ⟨0⟩ op :=
  ⟨1, ⟨2⟩, found, .same (.bitcast rfl rfl) (.alloca rfl rfl)⟩

theorem detour_jumps {block next : BlockId} (jumps : detour.Jumps block next)
    : (block = ⟨0⟩ ∧ (next = ⟨1⟩ ∨ next = ⟨2⟩)) ∨ (block = ⟨1⟩ ∧ next = ⟨2⟩) := by
  obtain ⟨placed, standing, rfl, last, inst, ended, found, dest⟩ := jumps
  simp only [detour, List.mem_cons, List.not_mem_nil, or_false] at standing
  rcases standing with rfl | rfl | rfl | rfl <;> cases ended <;> cases found
  · simpa [Inst.branching, Branching.dests] using dest
  · simpa [Inst.branching, Branching.dests] using dest
  · cases dest
  · cases dest

/-- Instructions that are no markers. -/
theorem detour_other {inst : InstId} {rest : List InstId} {before after : Bool}
    (index : inst.index ∈ [0, 1, 3, 5, 6]) (runs : detour.Runs ⟨0⟩ before rest after)
    : detour.Runs ⟨0⟩ before (inst :: rest) after := by
  refine .other ?_ runs
  obtain ⟨index⟩ := inst
  simp only [List.mem_cons, List.not_mem_nil, or_false] at index
  rcases index with rfl | rfl | rfl | rfl | rfl
  all_goals exact Function.not_marks_of_inst rfl nofun

/-- Witness: the way through the second block ends the allocation, so it is not alive after the
third one; and the only way to the first block starts it.
-/
theorem isAliveAfter_meets_paths_detour
    : detour.Acyclic ∧ ∃ lifetime, ofFunction detour = .ok lifetime
        ∧ (∃ count ≤ lifetime.reachable.length * lifetime.tracked.length + 1,
          lifetime.Sweeps count lifetime.start lifetime.tables)
        ∧ lifetime.isAliveAfter ⟨0⟩ ⟨3⟩ = true
        ∧ lifetime.isAliveAfter ⟨0⟩ ⟨6⟩ = false
        ∧ lifetime.isAliveAfter ⟨0⟩ ⟨7⟩ = false
        ∧ lifetime.isAliveAfter ⟨1⟩ ⟨7⟩ = true := by
  obtain ⟨answers, meets⟩ := isAliveAfter_meets_paths detour_acyclic
  obtain ⟨lifetime, made⟩ := answers detour_complete
  have marked : detour.IsMarked ⟨0⟩ := ⟨⟨2⟩, by decide, .start, detour_marks _ _ rfl⟩
  have second : detour.Path [⟨0⟩] ⟨1⟩ :=
    .jump (.entry rfl) ⟨_, List.mem_cons_self, rfl, ⟨3⟩, _, rfl, rfl, by decide⟩
  have third : detour.Path [⟨0⟩, ⟨1⟩] ⟨2⟩ :=
    .jump second ⟨_, List.mem_cons_of_mem _ List.mem_cons_self, rfl, ⟨5⟩, _, rfl, rfl, by decide⟩
  obtain ⟨sweeps, meets⟩ := meets lifetime made
  refine ⟨detour_acyclic, lifetime, made, sweeps, ?_, ?_, ?_, ?_⟩
  · refine (((meets ⟨0⟩ ⟨3⟩).1 marked).1 [] ⟨0⟩ rfl (.entry rfl)).mpr ?_
    intro path isPath
    cases isPath with
    | entry _ =>
        exact detour_other (by decide) <| detour_other (by decide) <|
          .marker (detour_marks .start _ rfl) <| detour_other (by decide) .nil
    | jump _ jumps => rcases detour_jumps jumps with ⟨_, never | never⟩ | ⟨_, never⟩ <;> cases never
  · have alive := ((meets ⟨0⟩ ⟨6⟩).1 marked).1 _ ⟨2⟩ rfl third
    refine Bool.eq_false_iff.mpr fun found => ?_
    have dead : detour.Runs ⟨0⟩ false [⟨0⟩, ⟨1⟩, ⟨2⟩, ⟨3⟩, ⟨4⟩, ⟨5⟩, ⟨6⟩] false :=
      detour_other (by decide) <| detour_other (by decide) <|
        .marker (detour_marks .start _ rfl) <| detour_other (by decide) <|
        .marker (detour_marks .stop _ rfl) <| detour_other (by decide) <|
        detour_other (by decide) .nil
    cases dead.unique (alive.mp found _ third)
  · refine ((meets ⟨0⟩ ⟨7⟩).1 marked).2 ?_
    rintro ⟨earlier, block, standing, path⟩
    cases standing
    cases path with
    | entry first => cases first
    | jump _ jumps => rcases detour_jumps jumps with ⟨_, never | never⟩ | ⟨_, never⟩ <;> cases never
  · refine (meets ⟨1⟩ ⟨7⟩).2 ?_
    rintro ⟨_, _, _, _, addr, -, names⟩
    induction names with
    | alloca _ op => cases op
    | same _ _ ih => exact ih

end Lifetime

end StackBounds
