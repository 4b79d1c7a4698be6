import Mathlib.Logic.Relation
import StackBounds.Proofs.Control

/-! The post order of the control flow. A depth-first walk lists every block that control can come
to once, the entry last, and each block after the blocks that it leads to, loops apart.
-/

namespace StackBounds.Flow

open Relation (ReflTransGen)

/-- Control can go on from a block to another one, or to the block itself. -/
def LeadsTo (flow : Flow) (block next : BlockId) : Prop :=
  ReflTransGen (fun source target => (source, target) ∈ flow.edges) block next

/-- The block that a task is about. -/
def Task.block : Task → BlockId
  | .enter block => block
  | .leave block => block

/-- What a depth-first walk keeps. A block that has been started and is still to be left leads to
everything that is to be done before, and its fresh successors are to be entered before.
-/
structure Underway (flow : Flow) (tasks : List Task) (fresh : List BlockId) : Prop where
  fresh_nodup : fresh.Nodup
  started : ∀ block, .leave block ∈ tasks → block ∉ fresh
  nested : tasks.Pairwise fun earlier later => ∀ block, later = .leave block
    → earlier ≠ .leave block ∧ flow.LeadsTo block earlier.block
  ahead : ∀ {block next}, .leave block ∈ tasks → (block, next) ∈ flow.edges → next ∈ fresh
    → [.enter next, .leave block].Sublist tasks

variable {flow : Flow} {tasks rest : List Task} {fresh : List BlockId} {block next : BlockId}

-----------------------------------------------------------------------------------------
-- One task
-----------------------------------------------------------------------------------------

/-- Leaving a block. -/
theorem Underway.leave (underway : flow.Underway (.leave block :: rest) fresh)
    : flow.Underway rest fresh where
  fresh_nodup := underway.fresh_nodup
  started other member := underway.started other (List.mem_cons_of_mem _ member)
  nested := (List.pairwise_cons.mp underway.nested).2
  ahead member edge isFresh := by
    cases underway.ahead (List.mem_cons_of_mem _ member) edge isFresh with
    | cons _ later => exact later

/-- Passing over a block that has been started before. -/
theorem Underway.skip (underway : flow.Underway (.enter block :: rest) fresh)
    (stale : block ∉ fresh)
    : flow.Underway rest fresh where
  fresh_nodup := underway.fresh_nodup
  started other member := underway.started other (List.mem_cons_of_mem _ member)
  nested := (List.pairwise_cons.mp underway.nested).2
  ahead member edge isFresh := by
    cases underway.ahead (List.mem_cons_of_mem _ member) edge isFresh with
    | cons _ later => exact later
    | cons_cons _ _ => exact absurd isFresh stale

/-- Starting a fresh block: what is to be left later leads to it, hence to its successors. -/
theorem Underway.enter (underway : flow.Underway (.enter block :: rest) fresh)
    (isFresh : block ∈ fresh)
    : flow.Underway ((flow.succs block).reverse.map .enter ++ .leave block :: rest)
        (fresh.erase block) := by
  obtain ⟨outer, nestedRest⟩ := List.pairwise_cons.mp underway.nested
  have notLeft {other : BlockId}
      (member : .leave other ∈ (flow.succs block).reverse.map Task.enter ++ .leave block :: rest)
      : other = block ∨ .leave other ∈ rest := by
    rcases List.mem_append.mp member with entered | left
    · obtain ⟨_, _, never⟩ := List.mem_map.mp entered
      cases never
    · rcases List.mem_cons.mp left with same | later
      · cases same
        exact Or.inl rfl
      · exact Or.inr later
  refine ⟨underway.fresh_nodup.erase block, fun other member => ?_, ?_,
    fun {source target} member edge stillFresh => ?_⟩
  · rcases notLeft member with rfl | later
    · exact underway.fresh_nodup.not_mem_erase
    · intro stillFresh
      exact underway.started other (List.mem_cons_of_mem _ later)
        (List.mem_of_mem_erase stillFresh)
  · refine List.pairwise_append.mpr ⟨?_, List.pairwise_cons.mpr ⟨?_, nestedRest⟩, ?_⟩
    · refine List.pairwise_map.mpr (List.pairwise_of_forall fun _ _ other never => ?_)
      cases never
    · rintro _ later other rfl
      refine ⟨fun same => ?_, (outer _ later other rfl).2⟩
      cases same
      exact underway.started _ (List.mem_cons_of_mem _ later) isFresh
    · intro first entered later member other leaves
      obtain ⟨succ, isSucc, rfl⟩ := List.mem_map.mp entered
      have edge := mem_succs.mp (List.mem_reverse.mp isSucc)
      have entering : Task.enter succ ≠ .leave other := fun same => by cases same
      refine ⟨entering, ?_⟩
      rcases List.mem_cons.mp member with rfl | inRest
      · cases leaves
        exact .single edge
      · exact (outer _ inRest other leaves).2.tail edge
  · rcases notLeft member with rfl | later
    · refine List.Sublist.append (List.singleton_sublist.mpr ?_)
        (List.singleton_sublist.mpr List.mem_cons_self)
      exact List.mem_map_of_mem (List.mem_reverse.mpr (mem_succs.mpr edge))
    · cases underway.ahead (List.mem_cons_of_mem _ later) edge
          (List.mem_of_mem_erase stillFresh) with
      | cons _ inRest => exact (inRest.cons _).trans (List.sublist_append_right _ _)
      | cons_cons _ _ => exact absurd stillFresh underway.fresh_nodup.not_mem_erase

-----------------------------------------------------------------------------------------
-- The whole walk
-----------------------------------------------------------------------------------------

/-- What a walk lists was fresh or started. -/
theorem mem_of_mem_walk (listed : block ∈ flow.walk tasks fresh)
    : block ∈ fresh ∨ .leave block ∈ tasks := by
  fun_induction flow.walk tasks fresh with
  | case1 fresh => exact absurd listed List.not_mem_nil
  | case2 fresh other rest ih =>
      rcases List.mem_cons.mp listed with rfl | later
      · exact Or.inr List.mem_cons_self
      · exact (ih later).imp_right (List.mem_cons_of_mem _)
  | case3 fresh other rest isFresh shorter ih =>
      rcases ih listed with stillFresh | left
      · exact Or.inl (List.mem_of_mem_erase stillFresh)
      rcases List.mem_append.mp left with entered | left
      · obtain ⟨_, _, never⟩ := List.mem_map.mp entered
        cases never
      · rcases List.mem_cons.mp left with same | later
        · cases same
          exact Or.inl isFresh
        · exact Or.inr (List.mem_cons_of_mem _ later)
  | case4 fresh other rest stale ih => exact (ih listed).imp_right (List.mem_cons_of_mem _)

/-- No block is to be left twice. -/
theorem Underway.not_mem_rest (underway : flow.Underway (.leave block :: rest) fresh)
    : .leave block ∉ rest := fun again =>
  ((List.pairwise_cons.mp underway.nested).1 _ again block rfl).1 rfl

/-- No block is listed twice; by the walk's own steps. -/
theorem Underway.nodup_walk (underway : flow.Underway tasks fresh)
    : (flow.walk tasks fresh).Nodup := by
  fun_induction flow.walk tasks fresh with
  | case1 fresh => exact List.nodup_nil
  | case2 fresh other rest ih =>
      refine List.nodup_cons.mpr ⟨fun again => ?_, ih underway.leave⟩
      rcases mem_of_mem_walk again with isFresh | left
      · exact underway.started other List.mem_cons_self isFresh
      · exact underway.not_mem_rest left
  | case3 fresh other rest isFresh shorter ih => exact ih (underway.enter isFresh)
  | case4 fresh other rest stale ih => exact ih (underway.skip stale)

/-- A block is listed after its successors, unless they lead back to it; by the walk's own steps.
When it is left, a successor that is yet to be listed has been started, so it is still open and
leads to the block.
-/
theorem Underway.sublist_walk (underway : flow.Underway tasks fresh)
    (edge : (block, next) ∈ flow.edges) (forth : ¬ flow.LeadsTo next block)
    (listed : block ∈ flow.walk tasks fresh) (listedNext : next ∈ flow.walk tasks fresh)
    : [next, block].Sublist (flow.walk tasks fresh) := by
  fun_induction flow.walk tasks fresh with
  | case1 fresh => exact absurd listed List.not_mem_nil
  | case2 fresh other rest ih =>
      rcases List.mem_cons.mp listedNext with rfl | laterNext
      · refine .cons_cons _ (List.singleton_sublist.mpr ?_)
        refine (List.mem_cons.mp listed).resolve_left fun same => forth ?_
        exact same ▸ ReflTransGen.refl
      rcases List.mem_cons.mp listed with rfl | later
      · rcases mem_of_mem_walk laterNext with isFresh | left
        · have entered := underway.ahead List.mem_cons_self edge isFresh
          cases entered with
          | cons _ inRest =>
              exact absurd (inRest.subset (List.mem_cons_of_mem _ List.mem_cons_self))
                underway.not_mem_rest
        · exact absurd ((List.pairwise_cons.mp underway.nested).1 _ left next rfl).2 forth
      · exact (ih underway.leave later laterNext).cons _
  | case3 fresh other rest isFresh shorter ih => exact ih (underway.enter isFresh) listed listedNext
  | case4 fresh other rest stale ih => exact ih (underway.skip stale) listed listedNext

/-- The block that is left by the last task is listed last. -/
theorem getLast?_walk (last : tasks.getLast? = some (.leave block))
    : (flow.walk tasks fresh).getLast? = some block := by
  fun_induction flow.walk tasks fresh with
  | case1 fresh => cases last
  | case2 fresh other rest ih =>
      cases rest with
      | nil =>
          cases last
          rw [walk]
          rfl
      | cons task rest =>
          rw [List.getLast?_cons_cons] at last
          rw [List.getLast?_cons, ih last, Option.getD_some]
  | case3 fresh other rest isFresh shorter ih =>
      refine ih ?_
      rw [List.getLast?_append, List.getLast?_cons]
      cases rest with
      | nil => cases last
      | cons task rest =>
          rw [List.getLast?_cons_cons] at last
          rw [last]
          rfl
  | case4 fresh other rest stale ih =>
      cases rest with
      | nil => cases last
      | cons task rest =>
          rw [List.getLast?_cons_cons] at last
          exact ih last

-----------------------------------------------------------------------------------------
-- From the entry
-----------------------------------------------------------------------------------------

theorem underway_start (flow : Flow)
    : flow.Underway (flow.entry.toList.map .enter) (sorted flow.nodes) := by
  have notLeft {block : BlockId} : .leave block ∉ flow.entry.toList.map Task.enter := by
    intro member
    obtain ⟨_, _, never⟩ := List.mem_map.mp member
    cases never
  refine ⟨sorted_nodup _, fun block left => absurd left notLeft, ?_,
    fun left => absurd left notLeft⟩
  refine List.pairwise_map.mpr (List.pairwise_of_forall fun _ _ block never => ?_)
  cases never

theorem getLast?_postOrder (flow : Flow) : flow.postOrder.getLast? = flow.entry := by
  cases first : flow.entry with
  | none => simp [postOrder_eq_walk, first, walk]
  | some entry =>
      have isFresh : entry ∈ sorted flow.nodes := mem_sorted.mpr (Reaches.entry first).mem_nodes
      rw [postOrder_eq_walk, first]
      change (flow.walk [.enter entry] _).getLast? = _
      rw [walk, dif_pos isFresh]
      exact getLast?_walk (by simp)

/-- The post order of any control flow lists exactly the blocks that control can come to from the
entry, each once and the entry last. A block stands after each of its successors, unless control
can come back from there.
-/
theorem postOrder_lists_behind (flow : Flow)
    : flow.postOrder.Nodup
      ∧ (∀ block, block ∈ flow.postOrder ↔ flow.Reaches block)
      ∧ flow.postOrder.getLast? = flow.entry
      ∧ ∀ block next, flow.Reaches block → flow.Reaches next → (block, next) ∈ flow.edges
        → ¬ flow.LeadsTo next block → [next, block].Sublist flow.postOrder := by
  have underway := underway_start flow
  have order := postOrder_eq_walk flow
  refine ⟨order ▸ underway.nodup_walk, fun block => mem_postOrder_iff, getLast?_postOrder flow, ?_⟩
  intro block next reached reachedNext edge forth
  have listed := reached.mem_postOrder
  have listedNext := reachedNext.mem_postOrder
  rw [order] at listed listedNext ⊢
  exact underway.sublist_walk edge forth listed listedNext

/-- Two ways into a loop of two blocks, one of which goes on to the last block and to itself. The
first block has an edge twice, and one block is not reached.
-/
def crossing : Flow where
  entry := some ⟨0⟩
  edges := [(⟨0⟩, ⟨1⟩), (⟨0⟩, ⟨2⟩), (⟨0⟩, ⟨2⟩), (⟨1⟩, ⟨2⟩), (⟨2⟩, ⟨1⟩), (⟨2⟩, ⟨2⟩), (⟨2⟩, ⟨3⟩),
    (⟨4⟩, ⟨3⟩)]

/-- Witness: the last block is listed first, since the loop leads to it and it does not lead back.
-/
theorem postOrder_lists_behind_crossing
    : crossing.postOrder = [⟨3⟩, ⟨1⟩, ⟨2⟩, ⟨0⟩]
      ∧ crossing.postOrder.Nodup
      ∧ crossing.Reaches ⟨2⟩
      ∧ ¬ crossing.Reaches ⟨4⟩
      ∧ ¬ crossing.LeadsTo ⟨3⟩ ⟨2⟩
      ∧ [⟨3⟩, ⟨2⟩].Sublist crossing.postOrder := by
  obtain ⟨nodup, lists, _, behind⟩ := postOrder_lists_behind crossing
  have order : crossing.postOrder = [⟨3⟩, ⟨1⟩, ⟨2⟩, ⟨0⟩] := by
    rw [postOrder_eq_walk]
    simp [crossing, nodes, sorted, insertSorted, walk, succs]
  have edge : (⟨2⟩, ⟨3⟩) ∈ crossing.edges := by decide
  have reached : crossing.Reaches ⟨2⟩ := (lists ⟨2⟩).mp (by simp [order])
  have forth : ¬ crossing.LeadsTo ⟨3⟩ ⟨2⟩ := by
    intro leads
    rcases leads.cases_head with same | ⟨after, edge, _⟩
    · cases same
    · simp [crossing] at edge
  refine ⟨order, nodup, reached, fun dead => ?_, forth,
    behind _ _ reached (reached.edge edge) edge forth⟩
  have listed := (lists ⟨4⟩).mpr dead
  simp [order] at listed

end StackBounds.Flow
