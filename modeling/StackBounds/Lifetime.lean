import StackBounds.Lifetime.Shrinking

/-! Lifetimes: an allocation with lifetime markers is alive after an instruction when it is alive
there on every path from the entry. Allocations without markers are alive everywhere.
-/

namespace StackBounds

/-- Sweeps until nothing changes. Tables that shrink can change only as long as something is alive
at the end of a block.
-/
def MarkedFlow.settle (marked : MarkedFlow) (tables : LiveTables)
    (shrinking : marked.Shrinking tables)
    : LiveTables :=
  if changed : (marked.sweep tables).2 = true then
    have := shrinking.weight_sweep_lt changed
    marked.settle (marked.sweep tables).1 shrinking.sweep
  else
    (marked.sweep tables).1
termination_by marked.weight tables

/-- The lifetimes in a function: what is alive at the starts and at the ends of its blocks. -/
structure Lifetime extends MarkedFlow where
  tables : LiveTables

namespace Lifetime

/-- The lifetimes in a function. -/
def ofFunction (func : Function) : Except Fault Lifetime := do
  let marked ← MarkedFlow.ofFunction func
  pure { toMarkedFlow := marked, tables := marked.settle marked.start marked.shrinking_start }

/-- The instruction is in a block that can be reached from the entry. -/
def isReachable (lifetime : Lifetime) (inst : InstId) : Bool :=
  (lifetime.func.blockOf inst).any lifetime.reachable.contains

/-- The instructions of a block up to and with the given one. -/
def upTo (inst : InstId) : List InstId → List InstId
  | [] => []
  | head :: rest => if head = inst then [head] else head :: upTo inst rest

/-- The allocation is alive right after the instruction, on every path. -/
def isAliveAfter (lifetime : Lifetime) (alloca inst : InstId) : Bool :=
  if lifetime.interesting.contains alloca.index then
    match lifetime.func.blockOf inst with
    | none => false
    | some block =>
        lifetime.reachable.contains block
          && (lifetime.applyMarkers (lifetime.tables.aliveIn block)
            (upTo inst (lifetime.func.instsOf block))).contains alloca.index
  else
    true

end Lifetime

end StackBounds
