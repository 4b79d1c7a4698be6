import StackBounds.Event
import StackBounds.Lifetime

/-! The local analysis: the accesses to each allocation and through each pointer parameter of one
function, and the calls that the address is handed to.
-/

namespace StackBounds

-----------------------------------------------------------------------------------------
-- Allocation sizes
-----------------------------------------------------------------------------------------

namespace Function

/-- The number of objects that an allocation makes room for, when it is a constant. -/
def allocaCount (func : Function) : Option ValueId → Except Fault (Option Int)
  | none => pure (some 1)
  | some id => do
      let value ← func.value id
      pure (value.immediate?.map (·.toInt))

/-- The bytes `[0, size)` of an allocation whose size is positive, the same on every run and a
signed number of the pointer width; empty for every other.
-/
def allocaRange (func : Function) (pointer : PointerWidth) (id : InstId) : Except Fault Range := do
  match ← func.inst id with
  | .alloca ty count => do
      let limit ← Word.signedMax pointer.bits
      match (ty.size pointer).fixed? with
      | none => Range.empty pointer.bits
      | some elem =>
        if 1 ≤ elem ∧ elem ≤ limit then do
          match ← func.allocaCount count with
          | none => Range.empty pointer.bits
          | some count =>
            if 0 < count ∧ elem * count ≤ limit then
              Range.ofSigned pointer.bits 0 (elem * count)
            else
              Range.empty pointer.bits
        else
          Range.empty pointer.bits
  | _ => Range.empty pointer.bits

end Function

-----------------------------------------------------------------------------------------
-- Derived addresses
-----------------------------------------------------------------------------------------

/-- The instruction computes with an address and neither accesses memory nor lets the address
out of sight, so its result is derived from the address.
-/
def Inst.derives : Inst → Bool
  | .load _ _ => false
  | .store _ _ => false
  | .vaArg _ _ => false
  | .ret _ => false
  | .lifetime _ _ _ => false
  | .memTransfer _ _ _ _ => false
  | .memSet _ _ _ => false
  | .call _ => false
  | .invoke _ _ _ => false
  | _ => true

namespace Function

/-- The instruction derives its result from a value. -/
def derivesFrom (func : Function) (value : ValueId) (id : InstId) : Bool :=
  match func.insts[id.index]? with
  | some inst => inst.derives && inst.operands.contains value
  | none => false

/-- The fresh instructions that a walk passes from a value, and those that stay fresh. -/
def passFrom (func : Function) (reachable : InstId → Bool) (value : ValueId)
    (fresh : List InstId)
    : List InstId × List InstId :=
  fresh.partition fun inst => reachable inst && func.derivesFrom value inst

/-- Passing instructions splits the fresh ones without loss, by induction on them. -/
theorem length_passFrom (func : Function) (reachable : InstId → Bool) (value : ValueId)
    (fresh : List InstId)
    : (func.passFrom reachable value fresh).1.length
        + (func.passFrom reachable value fresh).2.length
      = fresh.length := by
  simp only [passFrom, List.partition_eq_filter_filter]
  induction fresh with
  | nil => rfl
  | cons inst rest ih =>
      cases h : reachable inst && func.derivesFrom value inst <;> simp [h] <;> omega

/-- The values on the stack and those derived from them through reachable instructions, in the
order of a walk that goes on with the latest result. Each instruction is passed once, while it
is fresh.
-/
def derived (func : Function) (reachable : InstId → Bool) (stack : List ValueId)
    (fresh : List InstId)
    : List ValueId :=
  match stack with
  | [] => []
  | value :: rest =>
    let split := func.passFrom reachable value fresh
    value :: func.derived reachable ((split.1.filterMap func.resultOf).reverse ++ rest) split.2
termination_by fresh.length + stack.length
decreasing_by
  have results := List.length_filterMap_le func.resultOf (func.passFrom reachable value fresh).1
  have split := func.length_passFrom reachable value fresh
  simp only [List.length_append, List.length_reverse, List.length_cons]
  omega

/-- A value and all values derived from it. -/
def derivedFrom (func : Function) (reachable : InstId → Bool) (value : ValueId)
    : List ValueId :=
  func.derived reachable [value] func.instIds

end Function

-----------------------------------------------------------------------------------------
-- Effects of uses
-----------------------------------------------------------------------------------------

/-- What the local analysis asks about liveness. -/
structure LivenessOracle where
  isReachable : InstId → Bool
  isAliveAfter : InstId → InstId → Bool

/-- What the local analysis asks about addresses and numbers. -/
structure AddressOracle where
  offsetFrom : ValueId → ValueId → Except Fault Range
  signedRange : ValueId → Except Fault Range

/-- A local analysis: a function and the answers it relies on. -/
structure LocalAnalysis where
  func : Function
  pointer : PointerWidth
  liveness : LivenessOracle
  addresses : AddressOracle

/-- What one use of a tracked address does. -/
inductive Effect
  /-- Nothing that matters. -/
  | harmless
  /-- Accesses bytes relative to the tracked address. -/
  | access (range : Range)
  /-- Hands the address to a callee. -/
  | forward (call : Forward Global)
  /-- Lets the address out of sight. -/
  | escape (cause : Escape)

namespace LocalAnalysis

/-- The analysis of a function by its own lifetimes and addresses. -/
def ofFunction (func : Function) (pointer : PointerWidth) : Except Fault LocalAnalysis := do
  let lifetime ← Lifetime.ofFunction func
  pure {
    func
    pointer
    liveness := ⟨lifetime.isReachable, lifetime.isAliveAfter⟩
    addresses := ⟨func.offsetFrom pointer, func.signedRange pointer⟩
  }

/-- The tracked allocation, if it is one, is alive after an instruction. -/
def isAlive (analysis : LocalAnalysis) (alloca : Option InstId) (inst : InstId) : Bool :=
  alloca.all fun alloca => analysis.liveness.isAliveAfter alloca inst

/-- Any offset. -/
def unknown (analysis : LocalAnalysis) : Except Fault Range := Range.full analysis.pointer.bits

/-- The offsets of an address from the tracked one, at pointer width. -/
def offset (analysis : LocalAnalysis) (addr base : ValueId) : Except Fault Range := do
  let offset ← analysis.addresses.offsetFrom addr base
  if ← offset.isUnusable then analysis.unknown else offset.resizeSigned analysis.pointer.bits

/-- The bytes accessed at an address, from the range of byte positions inside the access. -/
def accessRange (analysis : LocalAnalysis) (addr base : ValueId) (positions : Range)
    : Except Fault Range := do
  if positions.isEmpty then
    Range.empty analysis.pointer.bits
  else if ← positions.isUnusable then
    throw .accessSize
  else
    let offsets ← analysis.offset addr base
    if ← offsets.isUnusable then
      analysis.unknown
    else
      let range ← offsets.addSigned positions
      if ← range.isUnusable then analysis.unknown else pure range

/-- The bytes accessed by an object of a type's size. -/
def objectRange (analysis : LocalAnalysis) (addr base : ValueId) (ty : Ty)
    : Except Fault Range := do
  let limit ← Word.signedMax analysis.pointer.bits
  match (ty.size analysis.pointer).fixed? with
  | none => analysis.unknown
  | some size =>
    if size ≤ limit then do
      let positions ← Range.ofSigned analysis.pointer.bits 0 size
      analysis.accessRange addr base positions
    else
      analysis.unknown

/-- The bytes accessed by a memory operation of a length that is read as unsigned. -/
def bulkRange (analysis : LocalAnalysis) (addr base length : ValueId) : Except Fault Range := do
  let number ← analysis.addresses.signedRange length
  let sizes ← number.resizeUnsigned analysis.pointer.bits
  let upper ← sizes.signedUpper
  if upper < 0 then
    analysis.unknown
  else if ← sizes.isUnusable then
    analysis.unknown
  else
    let positions ← Range.ofSigned analysis.pointer.bits 0 (upper - 1)
    analysis.accessRange addr base positions

/-- What a call does with a tracked address in an operand. -/
def callEffect (analysis : LocalAnalysis) (base value : ValueId) (operand : Nat) (call : Call)
    : Except Fault Effect :=
  if operand < call.args.length then
    match call.byValueTy? operand with
    | some ty => do pure (.access (← analysis.objectRange value base ty))
    | none =>
      match call.target with
      | .direct callee => do
          let offset ← analysis.offset value base
          pure (.forward (← Forward.make callee (UInt32.ofNat operand) offset))
      | .indirect _ => pure (.escape .passedIndirectly)
  else
    pure (.escape .called)

/-- What one use does with the tracked address `base`, where `value` is derived from it. -/
def effect (analysis : LocalAnalysis) (base : ValueId) (alloca : Option InstId) (value : ValueId)
    (site : UseSite)
    : Except Fault Effect := do
  let alive := analysis.isAlive alloca site.inst
  match ← analysis.func.inst site.inst with
  | .load _ ty =>
      if alive then do pure (.access (← analysis.objectRange value base ty))
      else pure (.escape .loadDead)
  | .store _ stored =>
      if stored = value then pure (.escape .stored)
      else if alive then do
        let ty ← analysis.func.valueTy stored
        pure (.access (← analysis.objectRange value base ty))
      else pure (.escape .storeDead)
  | .ret _ => pure (.escape .returned)
  | .memTransfer _ _ _ length =>
      if !alive then pure (.escape .transferDead)
      else if site.operand ≤ 1 then do
        pure (.access (← analysis.bulkRange value base length))
      else pure .harmless
  | .memSet _ _ length =>
      if !alive then pure (.escape .setDead)
      else if site.operand = 0 then do
        pure (.access (← analysis.bulkRange value base length))
      else pure .harmless
  | .call call =>
      if alive then analysis.callEffect base value site.operand call
      else pure (.escape .callDead)
  | .invoke call _ _ =>
      if alive then analysis.callEffect base value site.operand call
      else pure (.escape .callDead)
  | _ => pure .harmless

-----------------------------------------------------------------------------------------
-- Usages
-----------------------------------------------------------------------------------------

/-- The usage of a tracked address. -/
structure Tracked where
  usage : Usage Global
  /-- No use lets the address out of sight. -/
  complete : Bool
  deriving DecidableEq, Repr

/-- The reachable uses of a value and of those derived from it. -/
def sites (analysis : LocalAnalysis) (base : ValueId) : List (ValueId × UseSite) :=
  (analysis.func.derivedFrom analysis.liveness.isReachable base).flatMap fun value =>
    ((analysis.func.uses value).filter fun site => analysis.liveness.isReachable site.inst).map
      fun site => (value, site)

/-- Adds up the effects of uses; the first escape ends the walk with an unknown usage. -/
def collect (analysis : LocalAnalysis) (base : ValueId) (alloca : Option InstId)
    (usage : Usage Global)
    : List (ValueId × UseSite) → Traced Tracked
  | [] => pure ⟨usage, true⟩
  | (value, site) :: rest => do
    match ← analysis.effect base alloca value site with
    | .harmless => analysis.collect base alloca usage rest
    | .access range => do
        let usage ← usage.widen range
        analysis.collect base alloca usage rest
    | .forward call =>
        analysis.collect base alloca { usage with calls := usage.calls ++ [call] } rest
    | .escape cause => do
        Traced.emit (.escape site.inst cause)
        let usage ← usage.forget
        pure ⟨usage, false⟩

/-- The usage of an address through all values derived from it. -/
def track (analysis : LocalAnalysis) (base : ValueId) (alloca : Option InstId)
    : Traced Tracked := do
  let usage ← Usage.unused analysis.pointer.bits
  analysis.collect base alloca usage (analysis.sites base)

/-- Tracks the allocation of an instruction, if it is one of known size with a result. -/
def trackAlloca (analysis : LocalAnalysis) (allocas : Table InstId (Usage Global)) (inst : InstId)
    : Traced (Table InstId (Usage Global)) := do
  let range ← analysis.func.allocaRange analysis.pointer inst
  match if range.isEmpty then none else analysis.func.resultOf inst with
  | none => pure allocas
  | some value => do
      let tracked ← analysis.track value (some inst)
      let text ← tracked.usage.range.text
      Traced.emit (.allocaUsage analysis.func.sig.name value text tracked.complete)
      pure (allocas.insert inst tracked.usage)

/-- Tracks a parameter, if it is a pointer that the caller can see through. -/
def trackParam (analysis : LocalAnalysis) (params : Table UInt32 (Usage Global))
    (param : Ty × Nat)
    : Traced (Table UInt32 (Usage Global)) :=
  if param.1.isPointer && !analysis.func.sig.isByValue param.2 then do
    let tracked ← analysis.track ⟨param.2⟩ none
    let text ← tracked.usage.range.text
    Traced.emit (.paramUsage analysis.func.sig.name param.2 text tracked.complete)
    pure (params.insert (UInt32.ofNat param.2) tracked.usage)
  else
    pure params

/-- The usages of all allocations and pointer parameters of the function. -/
def run (analysis : LocalAnalysis) : Traced (FunctionUsage Global) := do
  if analysis.func.isDeclaration then
    Traced.ofResult (throw .declaration)
  else
    let name := analysis.func.sig.name
    Traced.emit (.localStart name)
    let allocas ← analysis.func.placedInsts.foldlM analysis.trackAlloca .empty
    let params ← analysis.func.sig.params.zipIdx.foldlM analysis.trackParam .empty
    Traced.emit (.localFinish name allocas.size params.size)
    pure ⟨allocas, params, 0⟩

end LocalAnalysis

/-- The local analysis of a function of a module. -/
def Module.analyzeFunction (unit : Module) (id : FunctionId) : Traced (FunctionUsage Global) := do
  let func ← unit.function id
  let analysis ← LocalAnalysis.ofFunction func unit.pointerWidth
  analysis.run

end StackBounds
