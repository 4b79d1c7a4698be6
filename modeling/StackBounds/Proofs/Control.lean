import StackBounds.Proofs.Computations
import StackBounds.Proofs.Semantics

/-! Control flow: a depth-first walk lists every block that control can come to. A walk that marks
the blocks it passes lists what a walk does that has a task for each block on its stack; what is
listed is proved of the second one.
-/

namespace StackBounds

namespace Flow

variable {flow : Flow}

theorem mem_preds {block next : BlockId}
    : block ∈ flow.preds next ↔ (block, next) ∈ flow.edges := by
  simp [preds, mem_sorted]

variable {block next : BlockId}

theorem insertSorted_ascending {blocks : List BlockId}
    (ascending : blocks.Pairwise fun first second => first.index < second.index)
    : (insertSorted block blocks).Pairwise fun first second => first.index < second.index := by
  induction blocks with
  | nil => exact List.pairwise_singleton _ _
  | cons head rest ih =>
      obtain ⟨below, ascendingRest⟩ := List.pairwise_cons.mp ascending
      rw [insertSorted]
      split
      · rename_i before
        refine List.pairwise_cons.mpr ⟨fun other member => ?_, ascending⟩
        rcases List.mem_cons.mp member with rfl | later
        · exact before
        · exact Nat.lt_trans before (below other later)
      split
      · exact ascending
      · refine List.pairwise_cons.mpr ⟨fun other member => ?_, ih ascendingRest⟩
        rcases mem_insertSorted.mp member with rfl | later
        · omega
        · exact below other later

theorem sorted_nodup (blocks : List BlockId) : (sorted blocks).Nodup := by
  have ascending : (sorted blocks).Pairwise fun first second => first.index < second.index := by
    induction blocks with
    | nil => exact List.Pairwise.nil
    | cons head rest ih => exact insertSorted_ascending ih
  refine ascending.imp fun before same => ?_
  subst same
  exact Nat.lt_irrefl _ before

-----------------------------------------------------------------------------------------
-- Walks with tasks
-----------------------------------------------------------------------------------------

/-- What is left to do on a depth-first walk. -/
inductive Task
  /-- Walk on from a block, unless that has been started before. -/
  | enter (block : BlockId)
  /-- All walks from a block are done. -/
  | leave (block : BlockId)

/-- A depth-first walk that says what each block stands on the stack for. It runs the tasks and
lists the blocks as they are left. A block is started while it is fresh, and all its successors are
tried from the last to the first.
-/
def walk (flow : Flow) (tasks : List Task) (fresh : List BlockId) : List BlockId :=
  match tasks with
  | [] => []
  | .leave block :: rest => block :: flow.walk rest fresh
  | .enter block :: rest =>
    if h : block ∈ fresh then
      have := length_erase_lt h
      flow.walk ((flow.succs block).reverse.map .enter ++ .leave block :: rest)
        (fresh.erase block)
    else
      flow.walk rest fresh
termination_by (fresh.length, tasks.length)

variable {tasks fewer : List Task} {fresh : List BlockId}

/-- The second list has the same tasks but for blocks to be entered that are not fresh. -/
inductive Skips (fresh : List BlockId) : List Task → List Task → Prop
  | nil : Skips fresh [] []
  | keep {task : Task} {tasks fewer : List Task}
      : Skips fresh tasks fewer → Skips fresh (task :: tasks) (task :: fewer)
  | skip {block : BlockId} {tasks fewer : List Task} (stale : block ∉ fresh)
      : Skips fresh tasks fewer → Skips fresh (.enter block :: tasks) fewer

namespace Skips

theorem refl (tasks : List Task) : Skips fresh tasks tasks := by
  induction tasks with
  | nil => exact .nil
  | cons task rest ih => exact .keep ih

theorem append (skips : Skips fresh tasks fewer) (more : List Task)
    : Skips fresh (more ++ tasks) (more ++ fewer) := by
  induction more with
  | nil => exact skips
  | cons task rest ih => exact .keep ih

theorem erase (skips : Skips fresh tasks fewer) (block : BlockId)
    : Skips (fresh.erase block) tasks fewer := by
  induction skips with
  | nil => exact .nil
  | keep _ ih => exact .keep ih
  | skip stale _ ih => exact .skip (fun still => stale (List.mem_of_mem_erase still)) ih

/-- Entering only some blocks, as long as the others are not fresh. -/
theorem filter {blocks : List BlockId} {test : BlockId → Bool}
    (stale : ∀ block ∈ blocks, test block = false → block ∉ fresh) (rest : List Task)
    : Skips fresh (blocks.map .enter ++ rest) ((blocks.filter test).map .enter ++ rest) := by
  induction blocks with
  | nil => exact .refl rest
  | cons block others ih =>
      have later := ih fun other member => stale other (List.mem_cons_of_mem _ member)
      cases tested : test block with
      | true =>
          rw [List.filter_cons_of_pos tested]
          exact .keep later
      | false =>
          rw [List.filter_cons_of_neg (by rw [tested]; exact Bool.false_ne_true)]
          exact .skip (stale block List.mem_cons_self tested) later

/-- Tasks that are skipped make no difference; by the walk's own steps. -/
theorem walk_eq (skips : Skips fresh tasks fewer)
    : flow.walk tasks fresh = flow.walk fewer fresh := by
  fun_induction flow.walk tasks fresh generalizing fewer with
  | case1 fresh =>
      cases skips
      rw [walk]
  | case2 fresh block rest ih =>
      cases skips with
      | keep later => rw [walk, ih later]
  | case3 fresh block rest isFresh shorter ih =>
      cases skips with
      | keep later =>
          rw [walk, dif_pos isFresh]
          exact ih (((later.erase block).keep).append _)
      | skip stale _ => exact absurd isFresh stale
  | case4 fresh block rest stale ih =>
      cases skips with
      | keep later =>
          rw [walk, dif_neg stale]
          exact ih later
      | skip _ later => exact ih later

end Skips

-----------------------------------------------------------------------------------------
-- Walks with marks
-----------------------------------------------------------------------------------------

/-- What the blocks on a stack stand for. A visited block is left where it stands first; everywhere
else it has been pushed to be entered.
-/
def tasksOf (marks : Table BlockId Mark) : List BlockId → List Task
  | [] => []
  | block :: rest =>
    if markOf marks block = .visited then
      .leave block :: tasksOf (marks.insert block .finished) rest
    else
      .enter block :: tasksOf marks rest

/-- Only visited blocks matter. -/
theorem tasksOf_congr {marks others : Table BlockId Mark} {stack : List BlockId}
    (same : ∀ block, markOf others block = .visited ↔ markOf marks block = .visited)
    : tasksOf others stack = tasksOf marks stack := by
  induction stack generalizing marks others with
  | nil => rfl
  | cons block rest ih =>
      rw [tasksOf, tasksOf]
      by_cases visited : markOf marks block = .visited
      · rw [if_pos visited, if_pos ((same block).mpr visited)]
        refine congrArg _ (ih fun other => ?_)
        rw [markOf_insert, markOf_insert]
        split
        · rfl
        · exact same other
      · rw [if_neg visited, if_neg fun again => visited ((same block).mp again), ih same]

theorem tasksOf_append {marks : Table BlockId Mark} {pushed : List BlockId}
    (unvisited : ∀ block ∈ pushed, isUnvisited marks block = true) (rest : List BlockId)
    : tasksOf marks (pushed ++ rest) = pushed.map .enter ++ tasksOf marks rest := by
  induction pushed with
  | nil => rfl
  | cons block others ih =>
      have notVisited : markOf marks block ≠ .visited := by
        rw [of_decide_eq_true (unvisited block List.mem_cons_self)]
        decide
      rw [List.cons_append, tasksOf, if_neg notVisited,
        ih fun other member => unvisited other (List.mem_cons_of_mem _ member)]
      rfl

/-- The fresh blocks are the unvisited ones, among those that a walk can come to. -/
structure Fresh (flow : Flow) (stack : List BlockId) (marks : Table BlockId Mark)
    (fresh : List BlockId)
    : Prop where
  nodup : fresh.Nodup
  stacked : ∀ block ∈ stack, block ∈ fresh ↔ isUnvisited marks block = true
  ahead : ∀ source block, (source, block) ∈ flow.edges
    → (block ∈ fresh ↔ isUnvisited marks block = true)

section Marks

variable {stack rest : List BlockId} {marks later : Table BlockId Mark}

/-- Visiting a block takes it off the fresh ones, and what is pushed can be come to. -/
theorem Fresh.visit (agrees : flow.Fresh (block :: rest) marks fresh)
    : flow.Fresh ((flow.unvisitedSuccs (marks.insert block .visited) block).reverse
        ++ block :: rest) (marks.insert block .visited) (fresh.erase block) := by
  have still {other : BlockId} (known : other ∈ fresh ↔ isUnvisited marks other = true)
      : other ∈ fresh.erase block ↔ isUnvisited (marks.insert block .visited) other = true := by
    rw [agrees.nodup.mem_erase_iff, known, isUnvisited, isUnvisited, markOf_insert]
    by_cases same : other = block
    · simp [same]
    · simp [same]
  refine ⟨agrees.nodup.erase block, fun other member => ?_,
    fun source other edge => still (agrees.ahead source other edge)⟩
  rcases List.mem_append.mp member with pushed | before
  · have succ := (List.mem_filter.mp (List.mem_reverse.mp pushed)).1
    exact still (agrees.ahead block other (mem_succs.mp succ))
  · exact still (agrees.stacked other before)

theorem Fresh.pop (agrees : flow.Fresh (block :: rest) marks fresh)
    (same : ∀ other, isUnvisited later other = isUnvisited marks other)
    : flow.Fresh rest later fresh := by
  refine ⟨agrees.nodup, fun other member => ?_, fun source other edge => ?_⟩
  · rw [same]
    exact agrees.stacked other (List.mem_cons_of_mem _ member)
  · rw [same]
    exact agrees.ahead source other edge

/-- Behind a visited block, the stack stands for what it did before the visit. -/
theorem tasksOf_visited (unvisited : isUnvisited marks block = true)
    : tasksOf (marks.insert block .visited) (block :: rest)
      = .leave block :: tasksOf marks rest := by
  rw [tasksOf, if_pos (by rw [markOf_insert, if_pos rfl])]
  refine congrArg _ (tasksOf_congr fun other => ?_)
  rw [markOf_insert, markOf_insert]
  split
  · rename_i same
    rw [same, of_decide_eq_true unvisited]
    exact iff_of_false (by decide) (by decide)
  · rfl

/-- The walk with marks lists what the walk with tasks does; by its own steps. -/
theorem Fresh.postOrderFrom_eq (agrees : flow.Fresh stack marks fresh)
    : flow.postOrderFrom stack marks = flow.walk (tasksOf marks stack) fresh := by
  fun_induction flow.postOrderFrom stack marks generalizing fresh with
  | case1 marks => rw [tasksOf, walk]
  | case2 marks block rest unvisited _ ih =>
      have isFresh := (agrees.stacked block List.mem_cons_self).mpr unvisited
      have notVisited : markOf marks block ≠ .visited := by
        rw [of_decide_eq_true unvisited]
        decide
      have stale (next : BlockId) (member : next ∈ (flow.succs block).reverse)
          (visited : isUnvisited (marks.insert block .visited) next = false)
          : next ∉ fresh.erase block := by
        intro stillFresh
        have edge := mem_succs.mp (List.mem_reverse.mp member)
        rw [(agrees.visit.ahead block next edge).mp stillFresh] at visited
        cases visited
      have pushed (next : BlockId)
          (member : next ∈ (flow.unvisitedSuccs (marks.insert block .visited) block).reverse)
          : isUnvisited (marks.insert block .visited) next = true :=
        (List.mem_filter.mp (List.mem_reverse.mp member)).2
      rw [ih agrees.visit, tasksOf_append pushed, tasksOf_visited unvisited, unvisitedSuccs,
        ← List.filter_reverse, ← (Skips.filter stale _).walk_eq, tasksOf, if_neg notVisited, walk,
        dif_pos isFresh]
  | case3 marks block rest visited finished ih =>
      have stale : block ∉ fresh := fun isFresh =>
        visited ((agrees.stacked block List.mem_cons_self).mp isFresh)
      rw [ih (agrees.pop fun _ => rfl), tasksOf, if_neg (by rw [finished]; decide), walk,
        dif_neg stale]
  | case4 marks block rest visited unfinished ih =>
      have mark : markOf marks block = .visited := by
        cases marked : markOf marks block with
        | unvisited => exact absurd (decide_eq_true marked) visited
        | visited => rfl
        | finished => exact absurd marked unfinished
      have same (other : BlockId)
          : isUnvisited (marks.insert block .finished) other = isUnvisited marks other := by
        rw [isUnvisited, isUnvisited, markOf_insert]
        split
        · rename_i equal
          rw [equal, mark]
          rfl
        · rfl
      rw [ih (agrees.pop same), tasksOf, if_pos mark, walk]

end Marks

/-- The post order is listed by the walk that starts at the entry while all blocks are fresh. -/
theorem postOrder_eq_walk (flow : Flow)
    : flow.postOrder = flow.walk (flow.entry.toList.map .enter) (sorted flow.nodes) := by
  have start : flow.Fresh flow.entry.toList .empty (sorted flow.nodes) := by
    refine ⟨sorted_nodup _, fun block member => ?_, fun source block edge => ?_⟩
    · exact iff_of_true (mem_sorted.mpr (List.mem_append_left _ member)) rfl
    · exact iff_of_true
        (mem_sorted.mpr (List.mem_append_right _ (List.mem_map.mpr ⟨_, edge, rfl⟩))) rfl
  rw [postOrder, start.postOrderFrom_eq]
  cases flow.entry <;> rfl

-----------------------------------------------------------------------------------------
-- Listed blocks
-----------------------------------------------------------------------------------------

/-- A walk lists the blocks that are still to be left. -/
theorem mem_walk_of_leave (member : .leave block ∈ tasks) : block ∈ flow.walk tasks fresh := by
  fun_induction flow.walk tasks fresh with
  | case1 fresh => cases member
  | case2 fresh other rest ih =>
      rcases List.mem_cons.mp member with same | later
      · cases same
        exact List.mem_cons_self
      · exact List.mem_cons_of_mem _ (ih later)
  | case3 fresh other rest isFresh shorter ih =>
      rcases List.mem_cons.mp member with same | later
      · cases same
      · exact ih (List.mem_append_right _ (List.mem_cons_of_mem _ later))
  | case4 fresh other rest stale ih =>
      rcases List.mem_cons.mp member with same | later
      · cases same
      · exact ih later

/-- A walk lists the fresh blocks that are still to be entered. -/
theorem mem_walk_of_enter (member : .enter block ∈ tasks) (isFresh : block ∈ fresh)
    : block ∈ flow.walk tasks fresh := by
  fun_induction flow.walk tasks fresh with
  | case1 fresh => cases member
  | case2 fresh other rest ih =>
      rcases List.mem_cons.mp member with same | later
      · cases same
      · exact List.mem_cons_of_mem _ (ih later isFresh)
  | case3 fresh other rest otherFresh shorter ih =>
      by_cases same : block = other
      · subst same
        exact mem_walk_of_leave (List.mem_append_right _ List.mem_cons_self)
      · refine ih ?_ ((List.mem_erase_of_ne same).mpr isFresh)
        rcases List.mem_cons.mp member with first | later
        · cases first
          exact absurd rfl same
        · exact List.mem_append_right _ (List.mem_cons_of_mem _ later)
  | case4 fresh other rest stale ih =>
      rcases List.mem_cons.mp member with same | later
      · cases same
        exact absurd isFresh stale
      · exact ih later isFresh

/-- A walk goes on from every block that it starts: it lists the fresh blocks behind it. -/
theorem mem_walk_of_edge (listed : block ∈ flow.walk tasks fresh)
    (unstarted : .leave block ∉ tasks) (edge : (block, next) ∈ flow.edges)
    (nextFresh : next ∈ fresh)
    : next ∈ flow.walk tasks fresh := by
  fun_induction flow.walk tasks fresh with
  | case1 fresh => cases listed
  | case2 fresh other rest ih =>
      rcases List.mem_cons.mp listed with rfl | later
      · exact absurd List.mem_cons_self unstarted
      · exact List.mem_cons_of_mem _
          (ih later (fun member => unstarted (List.mem_cons_of_mem _ member)) nextFresh)
  | case3 fresh other rest otherFresh shorter ih =>
      by_cases sameNext : next = other
      · subst sameNext
        exact mem_walk_of_leave (List.mem_append_right _ List.mem_cons_self)
      have stillFresh : next ∈ fresh.erase other := (List.mem_erase_of_ne sameNext).mpr nextFresh
      by_cases same : block = other
      · subst same
        refine mem_walk_of_enter (List.mem_append_left _ ?_) stillFresh
        exact List.mem_map_of_mem (List.mem_reverse.mpr (mem_succs.mpr edge))
      · refine ih listed ?_ stillFresh
        intro member
        rcases List.mem_append.mp member with entered | left
        · obtain ⟨_, _, never⟩ := List.mem_map.mp entered
          cases never
        · rcases List.mem_cons.mp left with first | later
          · cases first
            exact same rfl
          · exact unstarted (List.mem_cons_of_mem _ later)
  | case4 fresh other rest stale ih =>
      exact ih listed (fun member => unstarted (List.mem_cons_of_mem _ member)) nextFresh

theorem Reaches.mem_nodes (reached : flow.Reaches block) : block ∈ flow.nodes := by
  cases reached with
  | entry first => exact List.mem_append_left _ (by simp [first])
  | edge _ edge => exact List.mem_append_right _ (List.mem_map.mpr ⟨_, edge, rfl⟩)

/-- Every block that control can come to is listed; by induction on the way to it. -/
theorem Reaches.mem_postOrder (reached : flow.Reaches block) : block ∈ flow.postOrder := by
  rw [postOrder_eq_walk]
  induction reached with
  | entry first =>
      refine mem_walk_of_enter ?_ (mem_sorted.mpr (Reaches.entry first).mem_nodes)
      simp [first]
  | edge reached edge ih =>
      refine mem_walk_of_edge ih ?_ edge (mem_sorted.mpr (reached.edge edge).mem_nodes)
      intro member
      obtain ⟨_, _, never⟩ := List.mem_map.mp member
      cases never

/-- A walk lists only what control can come to, when that holds of all that is left to do. -/
theorem reaches_of_mem_walk (entered : ∀ other, .enter other ∈ tasks → flow.Reaches other)
    (left : ∀ other, .leave other ∈ tasks → flow.Reaches other)
    (listed : block ∈ flow.walk tasks fresh)
    : flow.Reaches block := by
  fun_induction flow.walk tasks fresh with
  | case1 fresh => cases listed
  | case2 fresh other rest ih =>
      rcases List.mem_cons.mp listed with rfl | later
      · exact left _ List.mem_cons_self
      · exact ih (fun next member => entered next (List.mem_cons_of_mem _ member))
          (fun next member => left next (List.mem_cons_of_mem _ member)) later
  | case3 fresh other rest isFresh shorter ih =>
      have reached : flow.Reaches other := entered other List.mem_cons_self
      refine ih (fun next member => ?_) (fun next member => ?_) listed
      · rcases List.mem_append.mp member with behind | later
        · obtain ⟨succ, isSucc, same⟩ := List.mem_map.mp behind
          cases same
          exact reached.edge (mem_succs.mp (List.mem_reverse.mp isSucc))
        · exact entered next (List.mem_cons_of_mem _ ((List.mem_cons.mp later).resolve_left nofun))
      · rcases List.mem_append.mp member with behind | later
        · obtain ⟨_, _, never⟩ := List.mem_map.mp behind
          cases never
        · rcases List.mem_cons.mp later with same | later
          · cases same
            exact reached
          · exact left next (List.mem_cons_of_mem _ later)
  | case4 fresh other rest stale ih =>
      exact ih (fun next member => entered next (List.mem_cons_of_mem _ member))
        (fun next member => left next (List.mem_cons_of_mem _ member)) listed

theorem mem_postOrder_iff : block ∈ flow.postOrder ↔ flow.Reaches block := by
  refine ⟨fun listed => ?_, Reaches.mem_postOrder⟩
  rw [postOrder_eq_walk] at listed
  refine reaches_of_mem_walk (fun other member => ?_) (fun other member => ?_) listed
  · obtain ⟨entry, isEntry, same⟩ := List.mem_map.mp member
    cases same
    exact .entry (Option.mem_toList.mp isEntry)
  · obtain ⟨_, _, never⟩ := List.mem_map.mp member
    cases never

end Flow

end StackBounds
