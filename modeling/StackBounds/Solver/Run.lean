import StackBounds.Solver.Potential

/-! A run of the solver: every function is visited once, then those whose callees have grown
until none is left, and a last round checks that nothing grows any more.
-/

namespace StackBounds.Solver

/-- Visits functions one after the other. -/
def visitAll (solver : Solver) : List Callee → State → Traced State
  | [], state => pure state
  | func :: rest, state => do
    let state ← solver.visit state func
    solver.visitAll rest state

/-- Visits the most recent function of the queue until the queue is empty. Each visit that
adds to the queue lowers the potential, so this ends.
-/
def drain (solver : Solver) (state : State) : Traced State :=
  match _hqueue : state.queue with
  | [] => pure state
  | func :: rest =>
    let visited := solver.visit { state with queue := rest } func
    match _hvisited : visited.result with
    | .error fault => ⟨visited.events, .error fault⟩
    | .ok after =>
        let drained := solver.drain after
        ⟨visited.events ++ drained.events, drained.result⟩
termination_by (solver.potential state.functions, state.queue.length)
decreasing_by
  rcases potential_visit _hvisited with same | lower
  · subst same
    simp [_hqueue, Prod.lex_def]
  · simpa [Prod.lex_def] using Or.inl lower

/-- Runs the solver on the functions. -/
def run (solver : Solver) (verify : Bool) (functions : Functions) : Traced Functions := do
  let state ← solver.visitAll functions.keys ⟨functions, []⟩
  let state ← solver.drain state
  if verify then
    let state ← solver.visitAll state.functions.keys { state with queue := [] }
    if state.queue.isEmpty then
      pure state.functions
    else
      Traced.ofResult (throw .notStable)
  else
    pure state.functions

end StackBounds.Solver
