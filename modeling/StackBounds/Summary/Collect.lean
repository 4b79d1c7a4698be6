import StackBounds.Config
import StackBounds.Local.Report
import StackBounds.Summary.Index

/-! Collecting summaries: the functions and aliases of a module enter the index. -/

namespace StackBounds.Module

/-- The accesses of the module's functions are worth recording. -/
def needsAccesses (unit : Module) (config : Config) : Bool :=
  config.recordAccesses || unit.functions.any fun func => func.sig.memtag

/-- The summary of a symbol. -/
def summaryOf (unit : Module) (symbol : Global) (kind : SummaryKind) : Except Fault Summary := do
  let linkage ← unit.linkageOf symbol
  let guid ← unit.guidOf symbol
  let dsoLocal ← unit.isDsoLocal symbol
  pure {
    guid
    unit := unit.name
    linkage
    live := true
    dsoLocal := dsoLocal && !linkage.isInterposable
    kind
  }

/-- An index that grows, with the summaries of the module's symbols so far. -/
structure Collection where
  index : SummaryIndex
  summarized : List (Global × SummaryId)

namespace Collection

/-- The summary of a symbol, if it has one. -/
def find? (collection : Collection) (symbol : Global) : Option SummaryId :=
  (collection.summarized.find? fun entry => entry.1 == symbol).map (·.2)

/-- Adds the summary of a symbol. -/
def add (collection : Collection) (symbol : Global) (summary : Summary) : Collection :=
  let (index, id) := collection.index.insert summary
  ⟨index, collection.summarized ++ [(symbol, id)]⟩

end Collection

/-- Adds the summary of a function, unless it has no body. -/
def collectFunction (unit : Module) (withAccesses : Bool) (collection : Collection)
    (id : FunctionId)
    : Traced Collection := do
  if ← unit.isDeclaration (.function id) then
    pure collection
  else
    let accesses ← if withAccesses then do
        let usages ← unit.analyzeFunction id
        Traced.ofResult (unit.paramAccesses usages)
      else
        pure []
    let summary ← unit.summaryOf (.function id) (.function accesses)
    pure (collection.add (.function id) summary)

/-- One round over aliases: those whose aliasee has a summary get theirs, the others stay. -/
def collectAliases (unit : Module)
    : List AliasId → Collection → Except Fault (Collection × List AliasId)
  | [], collection => pure (collection, [])
  | id :: rest, collection => do
    let link ← unit.aliasAt id
    match collection.find? link.aliasee with
    | some aliasee => do
        let summary ← unit.summaryOf (.aliased id) (.aliased aliasee)
        unit.collectAliases rest (collection.add (.aliased id) summary)
    | none => do
        let (collection, later) ← unit.collectAliases rest collection
        pure (collection, id :: later)

/-- Rounds over aliases until one of them adds nothing. -/
def settleAliases (unit : Module) (pending : List AliasId) (collection : Collection)
    : Except Fault Collection := do
  let (collection, later) ← unit.collectAliases pending collection
  if later.length < pending.length then
    unit.settleAliases later collection
  else
    pure collection
termination_by pending.length

/-- Adds the summaries of the functions and aliases that the module defines. -/
def summarize (unit : Module) (config : Config) (index : SummaryIndex)
    : Traced SummaryIndex := do
  let withAccesses := unit.needsAccesses config
  let functions ← unit.functionIds.foldlM (unit.collectFunction withAccesses) ⟨index, []⟩
  let collection ← unit.settleAliases unit.aliasIds functions
  Traced.emit (.summarize unit.name collection.summarized.length withAccesses)
  pure collection.index

end StackBounds.Module
