import StackBounds.Fresh
import StackBounds.Summary.Record
import StackBounds.Usage

/-! The summary index: what is known about the symbols of all modules of a program. -/

namespace StackBounds

/-- What a summarised symbol is. -/
inductive SummaryKind
  /-- A function with its accesses through parameters. -/
  | function (accesses : List ParamAccess)
  /-- Another name of a summarised symbol. -/
  | aliased (aliasee : SummaryId)
  /-- An object that is not code. -/
  | object
  deriving DecidableEq, Repr

/-- The kind is a function. -/
def SummaryKind.isFunction : SummaryKind → Bool
  | .function _ => true
  | _ => false

/-- The summary of a symbol. -/
structure Summary where
  guid : Guid
  /-- The name of the module that defines the symbol. -/
  unit : String
  linkage : Linkage
  /-- The symbol can be reached from the roots of the program. -/
  live : Bool
  /-- The definition is known to be the one that is used. -/
  dsoLocal : Bool
  kind : SummaryKind
  deriving DecidableEq, Repr

/-- The recorded accesses of a symbol; only functions have any. -/
def Summary.accesses (summary : Summary) : List ParamAccess :=
  match summary.kind with
  | .function accesses => accesses
  | _ => []

/-- The summaries of a program, numbered in the order they were added. -/
structure SummaryIndex where
  summaries : List Summary
  deriving DecidableEq, Repr

namespace SummaryIndex

/-- The index without summaries. -/
def empty : SummaryIndex := ⟨[]⟩

/-- Adds a summary. -/
def insert (index : SummaryIndex) (summary : Summary) : SummaryIndex × SummaryId :=
  (⟨index.summaries ++ [summary]⟩, ⟨index.summaries.length⟩)

/-- The summary with a number. -/
def summary (index : SummaryIndex) (id : SummaryId) : Except Fault Summary :=
  match index.summaries[id.index]? with
  | some summary => pure summary
  | none => throw (.dangling .summary id.index)

/-- The numbers of all summaries. -/
def ids (index : SummaryIndex) : List SummaryId :=
  (List.range index.summaries.length).map SummaryId.mk

/-- The summaries of an identifier; several modules may define it. -/
def summariesOf (index : SummaryIndex) (guid : Guid) : List SummaryId :=
  index.summaries.zipIdx.filterMap fun (summary, id) =>
    if summary.guid = guid then some ⟨id⟩ else none

/-- Marks all definitions of an identifier as reachable or not. -/
def setLive (index : SummaryIndex) (guid : Guid) (live : Bool) : SummaryIndex :=
  ⟨index.summaries.map fun summary =>
    if summary.guid = guid then { summary with live } else summary⟩

/-- Replaces the accesses of a summary, if it is a function. -/
def setAccesses (index : SummaryIndex) (id : SummaryId) (accesses : List ParamAccess)
    : Except Fault SummaryIndex := do
  let summary ← index.summary id
  if summary.kind.isFunction then
    pure ⟨index.summaries.set id.index { summary with kind := .function accesses }⟩
  else
    pure index

/-- The recorded accesses of a summary through a parameter. -/
def access? (index : SummaryIndex) (id : SummaryId) (param : UInt32)
    : Except Fault (Option ParamAccess) := do
  let summary ← index.summary id
  pure (summary.accesses.find? fun access => access.param == param)

-----------------------------------------------------------------------------------------
-- Following aliases
-----------------------------------------------------------------------------------------

/-- The summary that a chain of aliases ends at; none when it loops back to a summary that is
not fresh.
-/
def baseFrom (index : SummaryIndex) (fresh : List SummaryId) (id : SummaryId)
    : Except Fault (Option SummaryId) := do
  match (← index.summary id).kind with
  | .aliased aliasee =>
    if h : id ∈ fresh then
      have := length_erase_lt h
      index.baseFrom (fresh.erase id) aliasee
    else
      pure none
  | _ => pure (some id)
termination_by fresh.length

/-- A chain of aliases ends at a function. -/
def namesFunction (index : SummaryIndex) (id : SummaryId) : Except Fault Bool := do
  match ← index.baseFrom index.ids id with
  | some base => do pure (← index.summary base).kind.isFunction
  | none => pure false

/-- The function that a chain of aliases ends at, if every symbol on the way is live and not
preemptable; none when it loops back to a summary that is not fresh.
-/
def resolveFrom (index : SummaryIndex) (fresh : List SummaryId) (id : SummaryId)
    : Except Fault (Option SummaryId) := do
  let summary ← index.summary id
  if h : id ∈ fresh then
    if summary.live && summary.dsoLocal then
      match summary.kind with
      | .function _ => pure (some id)
      | .aliased aliasee =>
          have := length_erase_lt h
          index.resolveFrom (fresh.erase id) aliasee
      | .object => pure none
    else
      pure none
  else
    pure none
termination_by fresh.length

/-- The function that a summary names at run time. -/
def resolve (index : SummaryIndex) (id : SummaryId) : Except Fault (Option SummaryId) :=
  index.resolveFrom index.ids id

/-- Chooses among candidates, from the first to the last, the definition that a call from a
module links against. Dead symbols and those that name no function are passed over; a local
definition is seen from its own module only, and is taken at once; two others compete.
-/
def chooseCallee (index : SummaryIndex) (unit : String)
    : Option SummaryId → List SummaryId → Except Fault (Option SummaryId)
  | found, [] => pure found
  | found, candidate :: rest => do
    let summary ← index.summary candidate
    if !summary.live then
      index.chooseCallee unit found rest
    else if !(← index.namesFunction candidate) then
      index.chooseCallee unit found rest
    else if summary.linkage.isLocal then
      if summary.unit = unit then pure (some candidate)
      else index.chooseCallee unit found rest
    else if found.isSome then
      pure none
    else
      index.chooseCallee unit (some candidate) rest

/-- The summary that a call from a module to an identifier links against. -/
def findCallee (index : SummaryIndex) (guid : Guid) (unit : String)
    : Except Fault (Option SummaryId) :=
  index.chooseCallee unit none (index.summariesOf guid)

/-- The function that a call from a module to an identifier runs. -/
def boundFunction (index : SummaryIndex) (guid : Guid) (unit : String)
    : Except Fault (Option SummaryId) := do
  match ← index.findCallee guid unit with
  | some id => index.resolve id
  | none => pure none

end SummaryIndex

end StackBounds
