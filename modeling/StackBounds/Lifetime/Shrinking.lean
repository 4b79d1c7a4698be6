import StackBounds.Lifetime.Sweeps

/-! Sweeps end: what is alive at the ends of blocks only shrinks. A block leaves no more alive than
the tables say, and this stays so when the tables take over what it leaves.
-/

namespace StackBounds

namespace MarkedFlow

variable {marked : MarkedFlow}

-----------------------------------------------------------------------------------------
-- Visits
-----------------------------------------------------------------------------------------

@[simp]
theorem aliveOut_visit (state : LiveTables × Bool) (block other : BlockId)
    : (marked.visit state block).1.aliveOut other
      = if other = block then marked.leaves state.1 block else state.1.aliveOut other := by
  unfold visit LiveTables.aliveOut
  simp only
  split
  · rename_i same
    split
    · rename_i here
      rw [here, same]
    · rfl
  · split
    · rename_i here
      rw [here, Table.get?_insert_self, Option.getD_some]
    · rename_i differ
      rw [Table.get?_insert_of_ne _ differ]

@[simp]
theorem aliveIn_visit (state : LiveTables × Bool) (block other : BlockId)
    : (marked.visit state block).1.aliveIn other
      = if other = block then marked.meet state.1 block else state.1.aliveIn other := by
  have entered : (marked.visit state block).1.ins
      = state.1.ins.insert block (marked.meet state.1 block) := by
    unfold visit
    simp only
    split <;> rfl
  rw [LiveTables.aliveIn, entered]
  split
  · rename_i here
    rw [here, Table.get?_insert_self, Option.getD_some]
  · rename_i differ
    rw [Table.get?_insert_of_ne _ differ]
    rfl

/-- A visit notes a change of what the block leaves alive. -/
theorem changed_visit_iff {state : LiveTables × Bool} {block : BlockId}
    : (marked.visit state block).2 = true
      ↔ state.2 = true ∨ marked.leaves state.1 block ≠ state.1.aliveOut block := by
  unfold visit
  simp only
  split
  · rename_i same
    simp [same]
  · rename_i differ
    simp [differ]

-----------------------------------------------------------------------------------------
-- Less alive at the ends leaves less alive
-----------------------------------------------------------------------------------------

/-- Markers act on each allocation alone. -/
theorem contains_applyMarker (live : BitSet) (inst alloca : InstId)
    : (marked.applyMarker live inst).contains alloca.index
      = marked.step alloca (live.contains alloca.index) inst := by
  unfold applyMarker step
  cases marked.markerAt inst with
  | none => rfl
  | some marker =>
      obtain ⟨_, ⟨other⟩, op⟩ := marker
      obtain ⟨number⟩ := alloca
      by_cases same : other = number
      · cases op <;> simp [same]
      · cases op <;> simp [same]

theorem contains_applyMarkers (live : BitSet) (insts : List InstId) (alloca : InstId)
    : (marked.applyMarkers live insts).contains alloca.index
      = marked.through alloca (live.contains alloca.index) insts := by
  unfold applyMarkers through
  induction insts generalizing live with
  | nil => rfl
  | cons inst rest ih => rw [List.foldl_cons, List.foldl_cons, ih, contains_applyMarker]

/-- An allocation that comes out alive when it goes in dead comes out alive in any case. -/
theorem through_mono {alloca : InstId} {insts : List InstId} {before after : Bool}
    (le : before = true → after = true) (alive : marked.through alloca before insts = true)
    : marked.through alloca after insts = true := by
  unfold through at alive ⊢
  induction insts generalizing before after with
  | nil => exact le alive
  | cons inst rest ih =>
      refine ih ?_ alive
      unfold step
      split
      · exact le
      · split
        · exact id
        · exact le

theorem applyMarkers_mono {live more : BitSet} (below : live ⊆ more) (insts : List InstId)
    : marked.applyMarkers live insts ⊆ marked.applyMarkers more insts := by
  intro number alive
  rw [contains_applyMarkers live insts ⟨number⟩] at alive
  rw [contains_applyMarkers more insts ⟨number⟩]
  exact through_mono (below number) alive

theorem contains_foldl_intersect {tables : LiveTables} {sources : List BlockId} {live : BitSet}
    {number : Nat}
    : (sources.foldl (fun live source => live.intersect (tables.aliveOut source)) live).contains
          number = true
      ↔ live.contains number = true
        ∧ ∀ source ∈ sources, (tables.aliveOut source).contains number = true := by
  induction sources generalizing live with
  | nil => simp
  | cons source rest ih =>
      rw [List.foldl_cons, ih, BitSet.contains_intersect, Bool.and_eq_true, List.forall_mem_cons,
        and_assoc]

/-- Alive at the start of a block is what is alive at the end of every source, if there is one and
the block is not the entry.
-/
theorem contains_meet {tables : LiveTables} {block : BlockId} {number : Nat}
    : (marked.meet tables block).contains number = true
      ↔ marked.flow.entry ≠ some block ∧ marked.sources block ≠ []
        ∧ ∀ source ∈ marked.sources block, (tables.aliveOut source).contains number = true := by
  unfold meet
  split
  · rename_i first
    simp [first]
  · rename_i later
    cases sources : marked.sources block with
    | nil => simp
    | cons source rest => simp [later, contains_foldl_intersect]

theorem mem_reachable_of_sources {block source : BlockId} (member : source ∈ marked.sources block)
    : source ∈ marked.reachable :=
  List.contains_iff_mem.mp (List.mem_filter.mp member).2

theorem meet_mono {tables more : LiveTables}
    (below : ∀ block ∈ marked.reachable, tables.aliveOut block ⊆ more.aliveOut block)
    (block : BlockId)
    : marked.meet tables block ⊆ marked.meet more block := by
  intro number alive
  obtain ⟨later, some, all⟩ := contains_meet.mp alive
  refine contains_meet.mpr ⟨later, some, fun source member => ?_⟩
  exact below source (mem_reachable_of_sources member) number (all source member)

theorem leaves_mono {tables more : LiveTables}
    (below : ∀ block ∈ marked.reachable, tables.aliveOut block ⊆ more.aliveOut block)
    (block : BlockId)
    : marked.leaves tables block ⊆ marked.leaves more block :=
  applyMarkers_mono (meet_mono below block) _

-----------------------------------------------------------------------------------------
-- Tables that shrink
-----------------------------------------------------------------------------------------

/-- No block leaves more alive than the tables say, and only allocations with markers are listed. -/
structure Shrinking (marked : MarkedFlow) (tables : LiveTables) : Prop where
  tracked : ∀ block ∈ marked.reachable, tables.aliveOut block ⊆ marked.interesting
  leaves : ∀ block ∈ marked.reachable, marked.leaves tables block ⊆ tables.aliveOut block

/-- How many allocations are alive at the ends of the reachable blocks, added up. -/
def weight (marked : MarkedFlow) (tables : LiveTables) : Nat :=
  (marked.reachable.flatMap fun block => marked.tracked.map fun alloca => (block, alloca)).countP
    fun place => (tables.aliveOut place.1).contains place.2.index

theorem contains_interesting {number : Nat}
    : marked.interesting.contains number = true
      ↔ ∃ alloca ∈ marked.tracked, alloca.index = number := by
  have collected (allocas : List InstId) (set : BitSet)
      : (allocas.foldl (fun set alloca => set.insert alloca.index) set).contains number = true
        ↔ set.contains number = true ∨ ∃ alloca ∈ allocas, alloca.index = number := by
    induction allocas generalizing set with
    | nil => simp
    | cons alloca rest ih =>
        rw [List.foldl_cons, ih, BitSet.contains_insert]
        simp [or_assoc]
  rw [interesting, collected]
  simp

theorem mem_tracked_of_markerAt {inst : InstId} {marker : Marker}
    (found : marked.markerAt inst = some marker)
    : marker.alloca ∈ marked.tracked :=
  List.mem_eraseDups.mpr (List.mem_map_of_mem (List.mem_of_find?_eq_some found))

/-- Markers bring only allocations with markers to life. -/
theorem applyMarkers_subset_interesting {live : BitSet} (inside : live ⊆ marked.interesting)
    (insts : List InstId)
    : marked.applyMarkers live insts ⊆ marked.interesting := by
  unfold applyMarkers
  induction insts generalizing live with
  | nil => exact inside
  | cons inst rest ih =>
      refine ih ?_
      unfold applyMarker
      intro number alive
      split at alive
      · exact inside number alive
      · rename_i marker found
        have listed := mem_tracked_of_markerAt found
        split at alive
        · rw [BitSet.contains_insert, Bool.or_eq_true, decide_eq_true_iff] at alive
          rcases alive with before | same
          · exact inside number before
          · exact contains_interesting.mpr ⟨_, listed, same⟩
        · rw [BitSet.contains_remove, Bool.and_eq_true] at alive
          exact inside number alive.1

variable {tables : LiveTables} {state : LiveTables × Bool} {block : BlockId}

/-- A visit shrinks what is alive at the end of its block, and touches no other end. -/
theorem Shrinking.aliveOut_visit_subset (shrinking : marked.Shrinking state.1)
    (member : block ∈ marked.reachable) (other : BlockId)
    : (marked.visit state block).1.aliveOut other ⊆ state.1.aliveOut other := by
  rw [aliveOut_visit]
  split
  · rename_i same
    exact same ▸ shrinking.leaves block member
  · exact BitSet.subset_refl _

/-- The tables keep shrinking: after a visit every block leaves at most what it left before. -/
theorem Shrinking.visit (shrinking : marked.Shrinking state.1) (member : block ∈ marked.reachable)
    : marked.Shrinking (marked.visit state block).1 := by
  have below := shrinking.aliveOut_visit_subset member
  refine ⟨fun other inside => ?_, fun other inside => ?_⟩
  · exact BitSet.subset_trans (below other) (shrinking.tracked other inside)
  · have less : marked.leaves (marked.visit state block).1 other ⊆ marked.leaves state.1 other :=
      leaves_mono (fun source _ => below source) other
    rw [aliveOut_visit]
    split
    · rename_i same
      exact same ▸ less
    · exact BitSet.subset_trans less (shrinking.leaves other inside)

theorem Shrinking.weight_visit_le (shrinking : marked.Shrinking state.1)
    (member : block ∈ marked.reachable)
    : marked.weight (marked.visit state block).1 ≤ marked.weight state.1 :=
  List.countP_mono_left fun place _ => shrinking.aliveOut_visit_subset member place.1 place.2.index

/-- A visit that changes the end of a block loses an allocation there. -/
theorem Shrinking.weight_visit_lt (shrinking : marked.Shrinking state.1)
    (member : block ∈ marked.reachable)
    (changed : marked.leaves state.1 block ≠ state.1.aliveOut block)
    : marked.weight (marked.visit state block).1 < marked.weight state.1 := by
  obtain ⟨number, alive, dead⟩ :=
    BitSet.exists_of_subset_of_ne (shrinking.leaves block member) changed
  obtain ⟨alloca, listed, rfl⟩ :=
    contains_interesting.mp (shrinking.tracked block member number alive)
  have place : (block, alloca)
      ∈ marked.reachable.flatMap fun block => marked.tracked.map fun alloca => (block, alloca) :=
    List.mem_flatMap.mpr ⟨block, member, List.mem_map_of_mem listed⟩
  refine countP_lt_countP (fun other => ?_) place alive ?_
  · exact shrinking.aliveOut_visit_subset member other.1 other.2.index
  · rwa [aliveOut_visit, if_pos rfl]

/-- Visits of reachable blocks, one after the other: the tables keep shrinking, and a change that is
noted on the way has lost something. By induction on the blocks.
-/
theorem Shrinking.foldl_visit {blocks : List BlockId} (shrinking : marked.Shrinking state.1)
    (inside : ∀ block ∈ blocks, block ∈ marked.reachable)
    : marked.Shrinking (blocks.foldl marked.visit state).1
      ∧ marked.weight (blocks.foldl marked.visit state).1 ≤ marked.weight state.1
      ∧ ((blocks.foldl marked.visit state).2 = true
        → state.2 = true ∨ marked.weight (blocks.foldl marked.visit state).1
          < marked.weight state.1) := by
  induction blocks generalizing state with
  | nil => exact ⟨shrinking, Nat.le_refl _, Or.inl⟩
  | cons block rest ih =>
      have member := inside block List.mem_cons_self
      obtain ⟨final, bounded, noted⟩ := ih (shrinking.visit member)
        fun other later => inside other (List.mem_cons_of_mem _ later)
      have here := shrinking.weight_visit_le member
      refine ⟨final, Nat.le_trans bounded here, fun changed => ?_⟩
      rcases noted changed with before | lost
      · rcases changed_visit_iff.mp before with earlier | differ
        · exact Or.inl earlier
        · exact Or.inr (Nat.lt_of_le_of_lt bounded (shrinking.weight_visit_lt member differ))
      · exact Or.inr (Nat.lt_of_lt_of_le lost here)

theorem Shrinking.sweep (shrinking : marked.Shrinking tables)
    : marked.Shrinking (marked.sweep tables).1 :=
  (Shrinking.foldl_visit (show marked.Shrinking (tables, false).1 from shrinking)
    fun _ member => List.mem_reverse.mp member).1

/-- A sweep that changes something loses something. -/
theorem Shrinking.weight_sweep_lt (shrinking : marked.Shrinking tables)
    (changed : (marked.sweep tables).2 = true)
    : marked.weight (marked.sweep tables).1 < marked.weight tables := by
  obtain ⟨_, _, noted⟩ := Shrinking.foldl_visit
    (show marked.Shrinking (tables, false).1 from shrinking)
    fun _ member => List.mem_reverse.mp member
  exact (noted changed).resolve_left Bool.false_ne_true

theorem aliveOut_start {block : BlockId} (member : block ∈ marked.reachable)
    : marked.start.aliveOut block = marked.interesting := by
  have listed (blocks : List BlockId) (table : Table BlockId BitSet)
      (known : block ∈ blocks ∨ table.get? block = some marked.interesting)
      : ((blocks.map fun block => (block, marked.interesting)).foldl
          (fun table entry => table.insert entry.1 entry.2) table).get? block
        = some marked.interesting := by
    induction blocks generalizing table with
    | nil => exact known.resolve_left List.not_mem_nil
    | cons head rest ih =>
        refine ih _ ?_
        by_cases same : block = head
        · exact Or.inr (same ▸ Table.get?_insert_self _ _ _)
        · rw [Table.get?_insert_of_ne _ same]
          exact known.imp_left fun inside => (List.mem_cons.mp inside).resolve_left same
  rw [LiveTables.aliveOut, start, Table.ofList, listed _ _ (Or.inl member), Option.getD_some]

/-- At first everything can only shrink. -/
theorem shrinking_start (marked : MarkedFlow) : marked.Shrinking marked.start := by
  refine ⟨fun block member => ?_, fun block member => ?_⟩
  · rw [aliveOut_start member]
    exact BitSet.subset_refl _
  · rw [aliveOut_start member]
    refine applyMarkers_subset_interesting (fun number alive => ?_) _
    obtain ⟨_, some, all⟩ := contains_meet.mp alive
    obtain ⟨source, rest, sources⟩ := List.exists_cons_of_ne_nil some
    have first : source ∈ marked.sources block := sources ▸ List.mem_cons_self
    have alive := all source first
    rwa [aliveOut_start (mem_reachable_of_sources first)] at alive

end MarkedFlow

end StackBounds
