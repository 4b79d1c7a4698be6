import StackBounds.Fresh
import StackBounds.Program.Function
import StackBounds.Table

/-! Control flow: the edges between blocks and their depth-first post order. -/

namespace StackBounds

/-- The control-flow graph of a function: the entry and the edges, in layout order. -/
structure Flow where
  entry : Option BlockId
  edges : List (BlockId × BlockId)
  deriving DecidableEq, Repr

namespace Flow

/-- Adds a block to a list that is ascending and free of repetitions. -/
def insertSorted (block : BlockId) : List BlockId → List BlockId
  | [] => [block]
  | head :: rest =>
    if block.index < head.index then block :: head :: rest
    else if block.index = head.index then head :: rest
    else head :: insertSorted block rest

/-- Blocks in ascending order, each once. -/
def sorted (blocks : List BlockId) : List BlockId := blocks.foldr insertSorted []

theorem mem_insertSorted {block other : BlockId} {blocks : List BlockId}
    : other ∈ insertSorted block blocks ↔ other = block ∨ other ∈ blocks := by
  induction blocks with
  | nil => simp [insertSorted]
  | cons head rest ih =>
      rw [insertSorted]
      split
      · exact List.mem_cons
      split
      · rename_i same
        have equal : head = block := congrArg BlockId.mk same.symm
        rw [equal, List.mem_cons, or_self_left]
      · rw [List.mem_cons, ih, List.mem_cons, or_left_comm]

theorem mem_sorted {block : BlockId} {blocks : List BlockId}
    : block ∈ sorted blocks ↔ block ∈ blocks := by
  induction blocks with
  | nil => exact Iff.rfl
  | cons head rest ih => rw [sorted, List.foldr_cons, mem_insertSorted, ← sorted, ih, List.mem_cons]

/-- The edges that leave a placed block through its last instruction. -/
def edgesOf (func : Function) (block : PlacedBlock) : Except Fault (List (BlockId × BlockId)) :=
  match block.insts.getLast? with
  | none => pure []
  | some last => do
    let inst ← func.inst last
    pure (inst.branching.dests.map fun dest => (block.id, dest))

/-- The control-flow graph of a function. -/
def ofFunction (func : Function) : Except Fault Flow := do
  let edges ← func.layout.mapM (edgesOf func)
  pure ⟨func.entry?, edges.flatten⟩

/-- The blocks that a block can continue at, ascending. -/
def succs (flow : Flow) (block : BlockId) : List BlockId :=
  sorted ((flow.edges.filter fun edge => edge.1 == block).map (·.2))

/-- The blocks that can continue at a block, ascending. -/
def preds (flow : Flow) (block : BlockId) : List BlockId :=
  sorted ((flow.edges.filter fun edge => edge.2 == block).map (·.1))

theorem mem_succs {flow : Flow} {block next : BlockId}
    : next ∈ flow.succs block ↔ (block, next) ∈ flow.edges := by
  simp [succs, mem_sorted]

/-- Every block that a walk from the entry can come to. -/
def nodes (flow : Flow) : List BlockId := flow.entry.toList ++ flow.edges.map (·.2)

/-- How far a depth-first walk has come with a block. -/
inductive Mark
  | unvisited
  | visited
  | finished
  deriving DecidableEq, Repr

/-- The mark of a block, which is unvisited at first. -/
def markOf (marks : Table BlockId Mark) (block : BlockId) : Mark :=
  (marks.get? block).getD .unvisited

theorem markOf_insert (marks : Table BlockId Mark) (block other : BlockId) (mark : Mark)
    : markOf (marks.insert block mark) other
      = if other = block then mark else markOf marks other := by
  unfold markOf
  split
  · rename_i same
    rw [same, Table.get?_insert_self, Option.getD_some]
  · rename_i differ
    rw [Table.get?_insert_of_ne _ differ]

def isUnvisited (marks : Table BlockId Mark) (block : BlockId) : Bool :=
  markOf marks block = .unvisited

/-- The successors of a block that a walk has not visited yet. -/
def unvisitedSuccs (flow : Flow) (marks : Table BlockId Mark) (block : BlockId) : List BlockId :=
  (flow.succs block).filter (isUnvisited marks)

/-- How much of a walk is still ahead: the unvisited blocks of the graph, and those on the stack
that do not belong to it.
-/
def ahead (flow : Flow) (stack : List BlockId) (marks : Table BlockId Mark) : Nat :=
  flow.nodes.countP (isUnvisited marks)
    + stack.countP fun block => isUnvisited marks block && !flow.nodes.contains block

section Ahead

variable {block : BlockId} {rest : List BlockId} {marks later : Table BlockId Mark}

/-- Marking a block makes no other one unvisited. -/
theorem isUnvisited_of_insert (marks : Table BlockId Mark) (block : BlockId) {mark : Mark}
    (marked : mark ≠ .unvisited) (other : BlockId)
    (still : isUnvisited (marks.insert block mark) other = true)
    : isUnvisited marks other = true := by
  have unvisited := of_decide_eq_true still
  rw [markOf_insert] at unvisited
  split at unvisited
  · exact absurd unvisited marked
  · exact decide_eq_true unvisited

theorem isUnvisited_insert_self (marks : Table BlockId Mark) (block : BlockId) {mark : Mark}
    (marked : mark ≠ .unvisited)
    : isUnvisited (marks.insert block mark) block = false := by
  rw [isUnvisited, markOf_insert, if_pos rfl]
  exact decide_eq_false marked

theorem countP_strays_le (flow : Flow) (rest : List BlockId)
    (kept : ∀ other, isUnvisited later other = true → isUnvisited marks other = true)
    : rest.countP (fun other => isUnvisited later other && !flow.nodes.contains other)
      ≤ rest.countP fun other => isUnvisited marks other && !flow.nodes.contains other := by
  refine List.countP_mono_left fun other _ stray => ?_
  obtain ⟨still, outside⟩ := Bool.and_eq_true_iff.mp stray
  exact Bool.and_eq_true_iff.mpr ⟨kept other still, outside⟩

theorem ahead_pop (flow : Flow)
    (kept : ∀ other, isUnvisited later other = true → isUnvisited marks other = true)
    : flow.ahead rest later ≤ flow.ahead (block :: rest) marks := by
  have nodes : flow.nodes.countP (isUnvisited later) ≤ flow.nodes.countP (isUnvisited marks) :=
    List.countP_mono_left fun other _ => kept other
  have strays := countP_strays_le flow rest kept
  rw [ahead, ahead, List.countP_cons]
  omega

/-- A visit leaves less ahead: the block is no longer unvisited, and what is pushed belongs to the
graph.
-/
theorem ahead_visit (flow : Flow) (rest : List BlockId) (unvisited : isUnvisited marks block = true)
    : flow.ahead ((flow.unvisitedSuccs (marks.insert block .visited) block).reverse
        ++ block :: rest) (marks.insert block .visited)
      < flow.ahead (block :: rest) marks := by
  have differ : Mark.visited ≠ .unvisited := by decide
  have visited := isUnvisited_insert_self marks block differ
  have kept := isUnvisited_of_insert marks block differ
  have pushed : (flow.unvisitedSuccs (marks.insert block .visited) block).reverse.countP
      (fun next => isUnvisited (marks.insert block .visited) next && !flow.nodes.contains next)
      = 0 := by
    refine List.countP_eq_zero.mpr fun next member => ?_
    have succ := (List.mem_filter.mp (List.mem_reverse.mp member)).1
    have inside : next ∈ flow.nodes :=
      List.mem_append_right _ (List.mem_map.mpr ⟨_, mem_succs.mp succ, rfl⟩)
    simp [inside]
  have strays := countP_strays_le flow rest kept
  rw [ahead, ahead, List.countP_append, pushed, List.countP_cons, List.countP_cons, visited,
    unvisited]
  by_cases inside : block ∈ flow.nodes
  · have fewer := countP_lt_countP kept inside unvisited visited
    rw [Bool.false_and, if_neg Bool.false_ne_true]
    omega
  · have few : flow.nodes.countP (isUnvisited (marks.insert block .visited))
        ≤ flow.nodes.countP (isUnvisited marks) :=
      List.countP_mono_left fun other _ => kept other
    have stray : (true && !flow.nodes.contains block) = true := by simpa using inside
    rw [Bool.false_and, if_neg Bool.false_ne_true, if_pos stray]
    omega

end Ahead

/-- Lists the blocks on the stack and those that they lead to as they are finished. A block stays on
the stack while its unvisited successors are walked, from the last to the first, and it is finished
when it is on top again. It can stand on the stack more than once, but it is listed once.
-/
def postOrderFrom (flow : Flow) (stack : List BlockId) (marks : Table BlockId Mark)
    : List BlockId :=
  match stack with
  | [] => []
  | block :: rest =>
    if unvisited : isUnvisited marks block = true then
      have := flow.ahead_visit rest unvisited
      flow.postOrderFrom
        ((flow.unvisitedSuccs (marks.insert block .visited) block).reverse ++ block :: rest)
        (marks.insert block .visited)
    else if markOf marks block = .finished then
      flow.postOrderFrom rest marks
    else
      block :: flow.postOrderFrom rest (marks.insert block .finished)
termination_by (flow.ahead stack marks, stack.length)
decreasing_by
  · exact Prod.Lex.left _ _ this
  · exact Prod.Lex.right' _ (flow.ahead_pop fun _ => id) (Nat.lt_succ_self _)
  · have finished : Mark.finished ≠ .unvisited := by decide
    exact Prod.Lex.right' _ (flow.ahead_pop (isUnvisited_of_insert marks block finished))
      (Nat.lt_succ_self _)

/-- The blocks that can be reached from the entry, each after the blocks that it leads to,
loops apart.
-/
def postOrder (flow : Flow) : List BlockId := flow.postOrderFrom flow.entry.toList .empty

end Flow

end StackBounds
