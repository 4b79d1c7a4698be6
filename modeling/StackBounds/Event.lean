import StackBounds.Usage

/-! Events: what the analysis reports while it runs, and computations that report. -/

namespace StackBounds

/-- How much detail an event carries. -/
inductive Level
  | trace
  | debug
  | info
  deriving DecidableEq, Repr

/-- The name of a level. -/
def Level.text : Level → String
  | .trace => "TRACE"
  | .debug => "DEBUG"
  | .info => "INFO"

/-- Why an address can be used in ways that the analysis does not see. -/
inductive Escape
  | loadDead
  | stored
  | storeDead
  | returned
  | transferDead
  | setDead
  | callDead
  | called
  | passedIndirectly
  deriving DecidableEq, Repr

/-- The words for an escape. -/
def Escape.text : Escape → String
  | .loadDead => "load from a dead alloca"
  | .stored => "address stored to memory"
  | .storeDead => "store to a dead alloca"
  | .returned => "address returned"
  | .transferDead => "memory transfer on a dead alloca"
  | .setDead => "memory set on a dead alloca"
  | .callDead => "call on a dead alloca"
  | .called => "address used as callee"
  | .passedIndirectly => "address passed to an indirect call"

/-- Something worth reporting. -/
inductive Event
  /-- The local analysis of a function begins. -/
  | localStart (func : String)
  /-- An allocation has been analysed. -/
  | allocaUsage (func : String) (value : ValueId) (range : String) (complete : Bool)
  /-- A parameter has been analysed. -/
  | paramUsage (func : String) (param : Nat) (range : String) (complete : Bool)
  /-- An address escapes at an instruction. -/
  | escape (inst : InstId) (cause : Escape)
  /-- The local analysis of a function is done. -/
  | localFinish (func : String) (allocas params : Nat)
  /-- A call cannot be resolved. -/
  | unresolved (callee : String) (param : UInt32)
  /-- The solver widens parameters of a function. -/
  | widen (func : Callee) (updates : UInt32) (toFull : Bool)
  /-- The analysis of a module is done. -/
  | verdict (unit : String) (total safe : Nat)
  /-- The report of a module. -/
  | report (unit text : String)
  /-- The symbols of a module are summarised. -/
  | summarize (unit : String) (summaries : Nat) (withAccesses : Bool)
  /-- The accesses of all summaries are propagated. -/
  | propagate (params : Nat)
  deriving DecidableEq, Repr

namespace Event

/-- The level of an event. -/
def level : Event → Level
  | .localStart _ => .debug
  | .allocaUsage _ _ _ _ => .trace
  | .paramUsage _ _ _ _ => .trace
  | .escape _ _ => .trace
  | .localFinish _ _ _ => .debug
  | .unresolved _ _ => .trace
  | .widen _ _ _ => .debug
  | .verdict _ _ _ => .debug
  | .report _ _ => .info
  | .summarize _ _ _ => .debug
  | .propagate _ => .debug

/-- The message of an event. -/
def message : Event → String
  | .localStart _ => "start stack safety local analysis"
  | .allocaUsage _ _ _ _ => "alloca uses"
  | .paramUsage _ _ _ _ => "param uses"
  | .escape _ _ => "escalate to unknown"
  | .localFinish _ _ _ => "finish stack safety local analysis"
  | .unresolved _ _ => "unresolved callee"
  | .widen _ _ _ => "widen parameter ranges"
  | .verdict _ _ _ => "finish stack safety analysis"
  | .report _ text => "stack safety report\n" ++ text
  | .summarize _ _ _ => "summarize module"
  | .propagate _ => "generate param access summary"

/-- The named values of an event, in order. -/
def fields : Event → List (String × String)
  | .localStart func => [("func", func)]
  | .allocaUsage func value range complete =>
      [("func", func), ("alloca", value.text), ("range", range),
        ("fully_analyzed", toString complete)]
  | .paramUsage func param range complete =>
      [("func", func), ("param", toString param), ("range", range),
        ("fully_analyzed", toString complete)]
  | .escape inst cause => [("inst", inst.text), ("cause", cause.text)]
  | .localFinish func allocas params =>
      [("func", func), ("allocas", toString allocas), ("params", toString params)]
  | .unresolved callee param => [("callee", callee), ("param", toString param.toNat)]
  | .widen func updates toFull =>
      [("func", func.text), ("update_count", toString updates.toNat),
        ("update_to_full", toString toFull)]
  | .verdict unit total safe =>
      [("module", unit), ("total_allocas", toString total), ("safe_allocas", toString safe)]
  | .report unit _ => [("module", unit)]
  | .summarize unit summaries withAccesses =>
      [("module", unit), ("summaries", toString summaries),
        ("with_accesses", toString withAccesses)]
  | .propagate params => [("params", toString params)]

end Event

/-- A computation that reports events and may stop at a fault; the events that were reported
before a fault are kept.
-/
structure Traced (α : Type) where
  events : List Event
  result : Except Fault α

namespace Traced

variable {α β : Type}

/-- An answer without events. -/
def ofResult (result : Except Fault α) : Traced α := ⟨[], result⟩

/-- Reports an event. -/
def emit (event : Event) : Traced Unit := ⟨[event], .ok ()⟩

/-- Goes on with an answer, after its events. -/
def bind (first : Traced α) (rest : α → Traced β) : Traced β :=
  match first.result with
  | .ok answer =>
      let second := rest answer
      ⟨first.events ++ second.events, second.result⟩
  | .error fault => ⟨first.events, .error fault⟩

instance : Monad Traced where
  pure answer := ofResult (.ok answer)
  bind := bind

instance : MonadLift (Except Fault) Traced := ⟨ofResult⟩

/-- Only the answers decide how a computation goes on, never the events. -/
@[simp] theorem result_bind (first : Traced α) (rest : α → Traced β)
    : (first >>= rest).result = first.result >>= fun answer => (rest answer).result := by
  change (bind first rest).result = _
  unfold bind
  cases first.result <;> rfl

@[simp] theorem result_pure (answer : α) : (pure answer : Traced α).result = .ok answer := rfl

@[simp] theorem result_ofResult (result : Except Fault α) : (ofResult result).result = result :=
  rfl

@[simp] theorem result_liftM (result : Except Fault α)
    : (liftM result : Traced α).result = result :=
  rfl

@[simp] theorem result_emit (event : Event) : (emit event).result = .ok () := rfl

end Traced

end StackBounds
