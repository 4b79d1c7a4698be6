/-! Settings of the analysis. -/

namespace StackBounds

/-- The settings of an analysis run. -/
structure Config where
  /-- How often the parameters of a function may widen before they become unknown. -/
  maxIterations : UInt32 := 20
  /-- Report the result of a module as an event. -/
  print : Bool := false
  /-- Record accesses in summaries even when no function uses memory tagging. -/
  recordAccesses : Bool := false
  /-- Visit every function once more after the solver has stopped. -/
  verify : Bool := true
  deriving DecidableEq, Repr

end StackBounds
