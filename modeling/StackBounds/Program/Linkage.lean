/-! Linkage of symbols: who can see a definition, and whether it can be replaced. -/

namespace StackBounds

/-- How a symbol is linked. -/
inductive Linkage
  /-- Defined here and visible to other modules. -/
  | exported
  /-- Defined here and visible in its own module only. -/
  | internal
  /-- Defined in another module. -/
  | external
  /-- Defined here, but another definition may take its place at link time. -/
  | weak
  deriving DecidableEq, Repr

namespace Linkage

/-- The definition seen in its module may not be the one that runs. -/
def isInterposable (linkage : Linkage) : Bool := linkage == .weak

/-- The symbol is visible in its own module only. -/
def isLocal (linkage : Linkage) : Bool := linkage == .internal

/-- The keyword of a linkage. -/
def text : Linkage → String
  | .exported => "public"
  | .internal => "private"
  | .external => "external"
  | .weak => "weak"

/-- The linkage with the given keyword. -/
def parse? (text : String) : Option Linkage :=
  if text = "public" then some .exported
  else if text = "private" then some .internal
  else if text = "external" then some .external
  else if text = "weak" then some .weak
  else none

end Linkage

end StackBounds
