import Mathlib.Logic.Relation
import StackBounds.Proofs.Computations
import StackBounds.Proofs.Local.Uses
import StackBounds.Proofs.Range.Hull

/-! The walk over the uses of an address. It meets every use of every derived value once, so what it
adds up is the same in every order: an address escapes when some use lets it out of sight, and
otherwise the range is the hull of all accesses and the calls are those of all uses.
-/

namespace StackBounds

open Relation (ReflTransGen)

-----------------------------------------------------------------------------------------
-- Derived values
-----------------------------------------------------------------------------------------

namespace Function

/-- A reachable instruction derives its result from a value. -/
def DerivesBy (func : Function) (reachable : InstId → Bool) (inst : InstId)
    (value result : ValueId)
    : Prop :=
  reachable inst = true ∧ func.derivesFrom value inst = true ∧ func.resultOf inst = some result

/-- Some reachable instruction derives a result from a value. -/
def DerivesTo (func : Function) (reachable : InstId → Bool) (value result : ValueId) : Prop :=
  ∃ inst, func.DerivesBy reachable inst value result

/-- A value is in the closure of a base under the results of reachable instructions. -/
def ComesFrom (func : Function) (reachable : InstId → Bool) (base value : ValueId) : Prop :=
  ReflTransGen (func.DerivesTo reachable) base value

/-- A base is not derived from itself, around a cycle. -/
def IsOrigin (func : Function) (reachable : InstId → Bool) (base : ValueId) : Prop :=
  ∀ value, func.ComesFrom reachable base value → ¬ func.DerivesTo reachable value base

/-- What a walk keeps: the stack holds derived values, each once, and no fresh instruction leads
from a derived value back to the stack.
-/
structure Walks (func : Function) (reachable : InstId → Bool) (base : ValueId)
    (stack : List ValueId) (fresh : List InstId)
    : Prop where
  derived : ∀ value ∈ stack, func.ComesFrom reachable base value
  stack_nodup : stack.Nodup
  fresh_nodup : fresh.Nodup
  ahead : ∀ {inst value result}, inst ∈ fresh → func.ComesFrom reachable base value
    → func.DerivesBy reachable inst value result → result ∉ stack

variable {func : Function} {reachable : InstId → Bool} {base value : ValueId}

/-- No value is the result of two instructions. -/
theorem resultOf_inj {first second : InstId} (one : func.resultOf first = some value)
    (other : func.resultOf second = some value)
    : first = second := by
  obtain ⟨_, found⟩ := exists_result one
  obtain ⟨_, again⟩ := exists_result other
  cases found.symm.trans again
  rfl

theorem derivesFrom_eq_true_iff {inst : InstId}
    : func.derivesFrom value inst = true
      ↔ ∃ op, func.inst inst = .ok op ∧ op.derives = true ∧ value ∈ op.operands := by
  simp only [inst_eq_ok_iff, derivesFrom]
  cases func.insts[inst.index]? <;> simp

/-- With the lifetimes of a function, the closure consists of the derived values. -/
theorem comesFrom_iff_derived (one : func.OneResult) {lifetime : Lifetime}
    (describes : lifetime.Describes func)
    : func.ComesFrom lifetime.isReachable base value
      ↔ func.Derived lifetime.toMarkedFlow base value := by
  constructor
  · intro comes
    induction comes with
    | refl => exact .base
    | tail _ derives ih =>
        obtain ⟨inst, live, derives, results⟩ := derives
        obtain ⟨op, found, moves, operand⟩ := derivesFrom_eq_true_iff.mp derives
        obtain ⟨ty, valued⟩ := exists_result results
        have executes := Lifetime.executes_of_isReachable describes live
        exact .result ih executes found moves operand valued
  · intro derived
    induction derived with
    | base => exact .refl
    | result _ executes found derives operand results ih =>
        have live := Lifetime.isReachable_of_executes describes executes
        have moves := derivesFrom_eq_true_iff.mpr ⟨_, found, derives, operand⟩
        exact ih.tail ⟨_, live, moves, resultOf_eq one results⟩

theorem nodup_passFrom {fresh : List InstId} (nodup : fresh.Nodup)
    : (func.passFrom reachable value fresh).1.Nodup
      ∧ (func.passFrom reachable value fresh).2.Nodup := by
  rw [passFrom, List.partition_eq_filter_filter]
  exact ⟨nodup.filter _, nodup.filter _⟩

/-- The results that a walk pushes are derived from the value that it visits. -/
theorem exists_of_pushed {fresh : List InstId} {result : ValueId}
    (member : result ∈ ((func.passFrom reachable value fresh).1.filterMap func.resultOf).reverse)
    : ∃ inst ∈ (func.passFrom reachable value fresh).1, inst ∈ fresh
      ∧ func.DerivesBy reachable inst value result := by
  obtain ⟨inst, passed, results⟩ := List.mem_filterMap.mp (List.mem_reverse.mp member)
  obtain ⟨isFresh, live, derives⟩ := mem_fst_passFrom.mp passed
  exact ⟨inst, passed, isFresh, live, derives, results⟩

/-- One step of a walk. -/
theorem Walks.step {rest : List ValueId} {fresh : List InstId}
    (walks : func.Walks reachable base (value :: rest) fresh)
    : func.Walks reachable base
        (((func.passFrom reachable value fresh).1.filterMap func.resultOf).reverse ++ rest)
        (func.passFrom reachable value fresh).2 := by
  have comes := walks.derived value List.mem_cons_self
  refine ⟨fun result member => ?_, ?_, ?_, fun {inst source result} left comesSource derives => ?_⟩
  · rcases List.mem_append.mp member with new | old
    · obtain ⟨inst, _, _, derives⟩ := exists_of_pushed new
      exact comes.tail ⟨inst, derives⟩
    · exact walks.derived result (List.mem_cons_of_mem _ old)
  · apply List.Nodup.append
    · apply List.nodup_reverse.mpr
      apply List.Nodup.filterMap
      · intro first second result one other
        exact resultOf_inj one other
      · exact (nodup_passFrom walks.fresh_nodup).1
    · exact (List.nodup_cons.mp walks.stack_nodup).2
    · intro result new old
      obtain ⟨inst, _, isFresh, derives⟩ := exists_of_pushed new
      exact walks.ahead isFresh comes derives (List.mem_cons_of_mem _ old)
  · exact (nodup_passFrom walks.fresh_nodup).2
  · obtain ⟨isFresh, notPassed⟩ := mem_snd_passFrom.mp left
    intro member
    rcases List.mem_append.mp member with new | old
    · obtain ⟨other, passed, _, _, _, results⟩ := exists_of_pushed new
      exact notPassed (resultOf_inj results derives.2.2 ▸ passed)
    · exact walks.ahead isFresh comesSource derives (List.mem_cons_of_mem _ old)

/-- What a walk visits is derived from the base, and stood on the stack or is the result of a fresh
instruction; by the walk's own steps.
-/
theorem Walks.origin {stack : List ValueId} {fresh : List InstId}
    (walks : func.Walks reachable base stack fresh)
    (visited : value ∈ func.derived reachable stack fresh)
    : func.ComesFrom reachable base value
      ∧ (value ∈ stack ∨ ∃ inst ∈ fresh, ∃ source, func.ComesFrom reachable base source
        ∧ func.DerivesBy reachable inst source value) := by
  fun_induction func.derived reachable stack fresh with
  | case1 fresh => exact absurd visited List.not_mem_nil
  | case2 fresh head rest split ih =>
      rcases List.mem_cons.mp visited with rfl | later
      · exact ⟨walks.derived _ List.mem_cons_self, Or.inl List.mem_cons_self⟩
      obtain ⟨comes, inStack | ⟨inst, left, source, comesSource, derives⟩⟩ := ih walks.step later
      · refine ⟨comes, ?_⟩
        rcases List.mem_append.mp inStack with new | old
        · obtain ⟨inst, _, isFresh, derives⟩ := exists_of_pushed new
          exact Or.inr ⟨inst, isFresh, head, walks.derived _ List.mem_cons_self, derives⟩
        · exact Or.inl (List.mem_cons_of_mem _ old)
      · exact ⟨comes, Or.inr ⟨inst, (mem_snd_passFrom.mp left).1, source, comesSource, derives⟩⟩

/-- No value is visited twice; by the walk's own steps. -/
theorem Walks.nodup {stack : List ValueId} {fresh : List InstId}
    (walks : func.Walks reachable base stack fresh)
    : (func.derived reachable stack fresh).Nodup := by
  fun_induction func.derived reachable stack fresh with
  | case1 fresh => exact List.nodup_nil
  | case2 fresh head rest split ih =>
      refine List.nodup_cons.mpr ⟨fun again => ?_, ih walks.step⟩
      -- A second visit comes from a fresh instruction that leads back to the stack.
      obtain ⟨_, inStack | ⟨inst, left, source, comesSource, derives⟩⟩ :=
        walks.step.origin again
      · rcases List.mem_append.mp inStack with new | old
        · obtain ⟨inst, _, isFresh, derives⟩ := exists_of_pushed new
          exact walks.ahead isFresh (walks.derived _ List.mem_cons_self) derives
            List.mem_cons_self
        · exact (List.nodup_cons.mp walks.stack_nodup).1 old
      · exact walks.ahead (mem_snd_passFrom.mp left).1 comesSource derives List.mem_cons_self

theorem IsOrigin.walks (origin : func.IsOrigin reachable base)
    : func.Walks reachable base [base] func.instIds where
  derived _ member := List.mem_singleton.mp member ▸ .refl
  stack_nodup := List.nodup_singleton base
  fresh_nodup := func.instIds_nodup
  ahead _ comes derives member :=
    origin _ comes ⟨_, List.mem_singleton.mp member ▸ derives⟩

/-- The walk from a base visits the values that come from it. -/
theorem IsOrigin.mem_derivedFrom_iff (origin : func.IsOrigin reachable base)
    : value ∈ func.derivedFrom reachable base ↔ func.ComesFrom reachable base value := by
  constructor
  · intro visited
    exact (origin.walks.origin visited).1
  · intro comes
    induction comes with
    | refl => exact mem_derived_of_mem_stack List.mem_cons_self
    | tail _ derives ih =>
        obtain ⟨inst, live, derives, results⟩ := derives
        refine mem_derived_of_derivesFrom ih ?_ live derives results
        obtain ⟨op, found, _⟩ := derivesFrom_eq_true_iff.mp derives
        exact mem_instIds.mpr ⟨op, found⟩

theorem uses_nodup (func : Function) (value : ValueId) : (func.uses value).Nodup := by
  apply (func.uses_pairwise value).imp
  intro first second before same
  subst same
  rcases before with earlier | ⟨_, earlier⟩
  · exact Nat.lt_irrefl _ earlier
  · exact Nat.lt_irrefl _ earlier

end Function

-----------------------------------------------------------------------------------------
-- Uses
-----------------------------------------------------------------------------------------

namespace LocalAnalysis

/-- A reachable instruction has a value that comes from the base as an operand. -/
structure UsesFrom (analysis : LocalAnalysis) (base : ValueId) (entry : ValueId × UseSite)
    : Prop where
  comes : analysis.func.ComesFrom analysis.liveness.isReachable base entry.1
  live : analysis.liveness.isReachable entry.2.inst = true
  stands : ∃ op, analysis.func.inst entry.2.inst = .ok op
    ∧ op.operands[entry.2.operand]? = some entry.1

/-- All uses of the values that come from a base, each once, in some order. -/
structure Enumerates (analysis : LocalAnalysis) (base : ValueId)
    (order : List (ValueId × UseSite))
    : Prop where
  nodup : order.Nodup
  mem_iff : ∀ entry, entry ∈ order ↔ analysis.UsesFrom base entry

variable {analysis : LocalAnalysis} {base : ValueId}

/-- The walk meets every use once. -/
theorem enumerates_sites
    (origin : analysis.func.IsOrigin analysis.liveness.isReachable base)
    : analysis.Enumerates base (analysis.sites base) := by
  refine ⟨List.nodup_flatMap.mpr ⟨fun value _ => ?_, ?_⟩, fun entry => ?_⟩
  · apply List.Nodup.map
    · exact Prod.mk_right_injective value
    · exact (analysis.func.uses_nodup value).filter _
  · refine origin.walks.nodup.imp fun differ => ?_
    intro entry one other
    obtain ⟨_, _, rfl⟩ := List.mem_map.mp one
    obtain ⟨_, _, same⟩ := List.mem_map.mp other
    exact differ (congrArg Prod.fst same).symm
  · obtain ⟨value, site⟩ := entry
    simp only [sites, List.mem_flatMap, List.mem_map, List.mem_filter, Prod.mk.injEq,
      origin.mem_derivedFrom_iff, Function.mem_uses]
    constructor
    · intro listed
      obtain ⟨_, comes, _, ⟨stands, live⟩, rfl, rfl⟩ := listed
      exact ⟨comes, live, stands⟩
    · intro use
      exact ⟨value, use.comes, site, ⟨use.stands, use.live⟩, rfl, rfl⟩

end LocalAnalysis

-----------------------------------------------------------------------------------------
-- Adding up
-----------------------------------------------------------------------------------------

/-- The bytes that an effect accesses. -/
def Effect.range? : Effect → Option Range
  | .access range => some range
  | _ => none

/-- The call that an effect makes. -/
def Effect.call? : Effect → Option (Forward Global)
  | .forward call => some call
  | _ => none

namespace LocalAnalysis

variable {analysis : LocalAnalysis} {base : ValueId}

/-- The bytes that a use accesses, by the role of its operand. -/
def accessOf (analysis : LocalAnalysis) (base : ValueId) (entry : ValueId × UseSite)
    : Except Fault (Option Range) := do
  match (← analysis.func.inst entry.2.inst).role entry.2.operand with
  | .access extent => do pure (some (← analysis.extentRange entry.1 base extent))
  | _ => pure none

/-- The call that a use hands the address to, by the role of its operand. -/
def forwardOf (analysis : LocalAnalysis) (base : ValueId) (entry : ValueId × UseSite)
    : Except Fault (Option (Forward Global)) := do
  match (← analysis.func.inst entry.2.inst).role entry.2.operand with
  | .pass callee param => do
      let offset ← analysis.offset entry.1 base
      pure (some (← Forward.make callee (UInt32.ofNat param) offset))
  | _ => pure none

/-- What uses add up to, after some accesses and calls: the hull of all accesses and all calls, if
none of the uses escapes, and otherwise an unknown range.
-/
inductive AddsUp (analysis : LocalAnalysis) (base : ValueId) (alloca : Option InstId)
    (parts : List Range) (before : List (Forward Global)) (uses : List (ValueId × UseSite))
    : Tracked → Prop
  | complete {usage ranges calls}
    (accesses : uses.filterMapM (analysis.accessOf base) = .ok ranges)
    (forwards : uses.filterMapM (analysis.forwardOf base) = .ok calls)
    (stay : ∀ entry ∈ uses, ∀ {op}, analysis.func.inst entry.2.inst = .ok op
      → ¬ analysis.Escapes alloca op entry.2)
    (isHull : usage.range.IsHull analysis.pointer.bits (parts ++ ranges))
    (added : usage.calls = before ++ calls)
    : AddsUp analysis base alloca parts before uses ⟨usage, true⟩
  | escaped {usage entry op operand}
    (member : entry ∈ uses)
    (found : analysis.func.inst entry.2.inst = .ok op)
    (stands : op.operands[operand]? = some entry.1)
    (escapes : analysis.Escapes alloca op ⟨entry.2.inst, operand⟩)
    (full : usage.range = .top analysis.pointer.bits)
    : AddsUp analysis base alloca parts before uses ⟨usage, false⟩

section AddingUp

variable {alloca : Option InstId} {parts : List Range} {before : List (Forward Global)}
  {uses : List (ValueId × UseSite)} {tracked : Tracked}

/-- One step: a use that does not escape adds what it accesses or the call that it is handed to. -/
theorem AddsUp.cons {entry : ValueId × UseSite} {op : Inst} {range? : Option Range}
    {call? : Option (Forward Global)} (found : analysis.func.inst entry.2.inst = .ok op)
    (stays : ¬ analysis.Escapes alloca op entry.2)
    (accesses : analysis.accessOf base entry = .ok range?)
    (forwards : analysis.forwardOf base entry = .ok call?)
    (rest : analysis.AddsUp base alloca (parts ++ range?.toList) (before ++ call?.toList) uses
      tracked)
    : analysis.AddsUp base alloca parts before (entry :: uses) tracked := by
  cases rest with
  | complete accessesRest forwardsRest stay isHull added =>
      refine .complete (filterMapM_cons_eq_ok_iff.mpr ⟨_, _, accesses, accessesRest, rfl⟩)
        (filterMapM_cons_eq_ok_iff.mpr ⟨_, _, forwards, forwardsRest, rfl⟩) ?_ ?_ ?_
      · intro other member op foundOther
        rcases List.mem_cons.mp member with rfl | later
        · cases found.symm.trans foundOther
          exact stays
        · exact stay other later foundOther
      · rwa [← List.append_assoc]
      · rwa [← List.append_assoc]
  | escaped member foundOther stands escapes full =>
      exact .escaped (List.mem_cons_of_mem _ member) foundOther stands escapes full

/-- A use whose effect is no escape does not escape, and its effect is what its role says. -/
theorem Reflects.recorded {value : ValueId} {site : UseSite} {op : Inst} {effect : Effect}
    (reflects : analysis.Reflects base alloca value site op effect)
    (found : analysis.func.inst site.inst = .ok op) (stays : ∀ cause, effect ≠ .escape cause)
    : ¬ analysis.Escapes alloca op site
      ∧ analysis.accessOf base (value, site) = .ok effect.range?
      ∧ analysis.forwardOf base (value, site) = .ok effect.call? := by
  have inside {role : Role} (same : op.role site.operand = role) (notLeak : role ≠ .leak)
      (alive : op.usesMemory = true → analysis.isAlive alloca site.inst = true)
      : ¬ analysis.Escapes alloca op site := by
    intro escapes
    rcases escapes with leak | ⟨memory, dead⟩
    · exact notLeak (same.symm.trans leak)
    · exact Bool.false_ne_true (dead.symm.trans (alive memory))
  unfold accessOf forwardOf
  rw [found, ok_bind, ok_bind]
  cases reflects with
  | escape cause => exact absurd rfl (stays cause)
  | harmless other alive =>
      refine ⟨inside other (fun same => by cases same) alive, ?_⟩
      simp [other, Effect.range?, Effect.call?]
  | access accesses alive computed =>
      refine ⟨inside accesses (fun same => by cases same) fun _ => alive, ?_⟩
      simp [accesses, computed, Effect.range?, Effect.call?]
  | forward passes alive moved made =>
      refine ⟨inside passes (fun same => by cases same) fun _ => alive, ?_⟩
      simp [passes, moved, made, Effect.range?, Effect.call?]

theorem Takes.ne_escape {usage next : Usage Global} {effect : Effect}
    (takes : Takes usage effect next) (cause : Escape)
    : effect ≠ .escape cause := by
  intro same
  subst same
  cases takes

/-- Taking up an effect adds what it accesses to the hull, and the call that it makes. -/
theorem Takes.isHull (proper : analysis.addresses.Proper) {value : ValueId} {site : UseSite}
    {op : Inst} {effect : Effect} {usage next : Usage Global} (takes : Takes usage effect next)
    (reflects : analysis.Reflects base alloca value site op effect)
    (isHull : usage.range.IsHull analysis.pointer.bits parts)
    : next.range.IsHull analysis.pointer.bits (parts ++ effect.range?.toList)
      ∧ next.calls = usage.calls ++ effect.call?.toList := by
  cases takes with
  | harmless => simpa [Effect.range?, Effect.call?] using isHull
  | access widening =>
      cases reflects with
      | access _ _ computed =>
          obtain ⟨_, widened, sameCalls, isNext⟩ :=
            Usage.exists_widen_isHull isHull (extentRange_ofWidth proper computed)
          cases widening.symm.trans widened
          exact ⟨isNext, by simp [Effect.call?, sameCalls]⟩
  | forward call => simpa [Effect.range?, Effect.call?] using isHull

/-- The run: collecting the effects of uses adds them up; by induction on the uses. -/
theorem collect_addsUp (proper : analysis.addresses.Proper) {usage : Usage Global}
    (isHull : usage.range.IsHull analysis.pointer.bits parts)
    (standing : ∀ entry ∈ uses, entry.2 ∈ analysis.func.uses entry.1)
    (result : (analysis.collect base alloca usage uses).result = .ok tracked)
    : analysis.AddsUp base alloca parts usage.calls uses tracked := by
  induction uses generalizing usage parts with
  | nil =>
      cases result
      exact .complete rfl rfl (by simp) (by simpa using isHull) (by simp)
  | cons entry rest ih =>
      obtain ⟨op, found, operand⟩ := Function.mem_uses.mp (standing entry List.mem_cons_self)
      have standingRest : ∀ entry ∈ rest, entry.2 ∈ analysis.func.uses entry.1 :=
        fun entry member => standing entry (List.mem_cons_of_mem _ member)
      obtain ⟨effect, computed, ⟨cause, _, rfl, forgotten, rfl⟩ | ⟨next, takes, result⟩⟩ :=
        collect_cons_cases result
      · rw [Usage.forget, isHull.ofWidth.bits_eq, Range.full_eq analysis.pointer.valid_bits,
          ok_bind] at forgotten
        cases forgotten
        cases effect_reflects found operand computed with
        | escape _ stands escapes => exact .escaped List.mem_cons_self found stands escapes rfl
      have reflects := effect_reflects found operand computed
      obtain ⟨stays, accesses, forwards⟩ := reflects.recorded found takes.ne_escape
      obtain ⟨isNext, calls⟩ := takes.isHull proper reflects isHull
      exact .cons found stays accesses forwards (calls ▸ ih isNext standingRest result)

/-- Tracking does not depend on the order of the walk. For well-formed answers about addresses and
a base that is not derived from itself, the address escapes exactly when some use of a derived
value escapes, and then its range is unknown. Otherwise, in whatever order all uses are taken, the
range is the hull of their accesses and the calls are those that hand the address on, once for each
use.
-/
theorem track_adds_up_uses (proper : analysis.addresses.Proper)
    (origin : analysis.func.IsOrigin analysis.liveness.isReachable base)
    (result : (analysis.track base alloca).result = .ok tracked)
    : (∃ order, analysis.Enumerates base order)
      ∧ (tracked.complete = false
        ↔ ∃ entry op, analysis.UsesFrom base entry
          ∧ analysis.func.inst entry.2.inst = .ok op
          ∧ analysis.Escapes alloca op entry.2)
      ∧ (tracked.complete = false → tracked.usage.range = .top analysis.pointer.bits)
      ∧ (tracked.complete = true → ∀ order, analysis.Enumerates base order
        → ∃ ranges calls, order.filterMapM (analysis.accessOf base) = .ok ranges
          ∧ order.filterMapM (analysis.forwardOf base) = .ok calls
          ∧ tracked.usage.range.IsHull analysis.pointer.bits ranges
          ∧ tracked.usage.calls.Perm calls) := by
  have enumerates := enumerates_sites origin
  rw [result_track] at result
  have isHull := Range.isHull_bottom analysis.pointer.valid_bits
  have addsUp := collect_addsUp proper isHull (fun _ => mem_uses_of_sites) result
  refine ⟨⟨_, enumerates⟩, ?_⟩
  cases addsUp with
  | @escaped usage entry op operand member found stands escapes full =>
      have use := (enumerates.mem_iff entry).mp member
      have escaping : analysis.UsesFrom base (entry.1, ⟨entry.2.inst, operand⟩) :=
        ⟨use.comes, use.live, op, found, stands⟩
      exact ⟨iff_of_true rfl ⟨_, op, escaping, found, escapes⟩, fun _ => full,
        fun complete => absurd complete Bool.false_ne_true⟩
  | @complete usage ranges calls accesses forwards stay isHull added =>
      have notFalse : true ≠ false := Bool.false_ne_true.symm
      refine ⟨iff_of_false notFalse ?_, fun escaped => absurd escaped notFalse,
        fun _ order every => ?_⟩
      · intro escaping
        obtain ⟨entry, op, use, found, escapes⟩ := escaping
        exact stay entry ((enumerates.mem_iff entry).mpr use) found escapes
      · have perm : (analysis.sites base).Perm order :=
          (List.perm_ext_iff_of_nodup enumerates.nodup every.nodup).mpr fun entry =>
            (enumerates.mem_iff entry).trans (every.mem_iff entry).symm
        obtain ⟨others, accessed, permRanges⟩ := exists_filterMapM_of_perm perm accesses
        obtain ⟨more, forwarded, permCalls⟩ := exists_filterMapM_of_perm perm forwards
        rw [List.nil_append] at isHull added
        exact ⟨others, more, accessed, forwarded, isHull.of_perm permRanges, added ▸ permCalls⟩

end AddingUp

/-- Moves a pointer around a loop, reads through it and hands it on together with the pointer that
it started from. The return is not reachable.
-/
def cursor : LocalAnalysis where
  func := {
    sig := .declared "f" .exported [.ptr] .ptr
    values := [.argument .ptr 0, .constant (.i64 8), .result ⟨0⟩ .ptr, .result ⟨1⟩ .ptr,
      .result ⟨2⟩ .i32]
    insts := [.phi [⟨0⟩, ⟨3⟩] [⟨0⟩, ⟨1⟩] .ptr, .ptrAdd ⟨2⟩ ⟨1⟩, .load ⟨3⟩ .i32,
      .call ⟨.direct (.function ⟨1⟩), [⟨0⟩, ⟨3⟩, ⟨0⟩], [], .unit⟩, .ret (some ⟨2⟩)]
    blockCount := 0
    layout := [] }
  pointer := .w64
  liveness := ⟨fun inst => inst != ⟨4⟩, fun _ _ => true⟩
  addresses := ⟨fun addr base => .ok (if addr = base then ⟨64, 0, 1⟩ else ⟨64, 0, 33⟩),
    fun _ => .ok ⟨64, 0, 9⟩⟩

theorem cursor_proper : cursor.addresses.Proper := by
  constructor
  · intro addr base range answered
    cases answered
    split
    · decide
    · decide
  · intro value range answered
    cases answered
    decide

/-- Nothing results in an argument. -/
theorem cursor_isOrigin : cursor.func.IsOrigin cursor.liveness.isReachable ⟨0⟩ := by
  intro value _ derives
  obtain ⟨inst, _, _, results⟩ := derives
  obtain ⟨ty, found⟩ := Function.exists_result results
  cases found

/-- Witness: the pointer is read once and handed on three times. -/
theorem track_adds_up_uses_cursor
    : ∃ tracked order ranges calls, (cursor.track ⟨0⟩ none).result = .ok tracked
      ∧ tracked.complete = true
      ∧ cursor.Enumerates ⟨0⟩ order
      ∧ order.filterMapM (cursor.accessOf ⟨0⟩) = .ok ranges
      ∧ order.filterMapM (cursor.forwardOf ⟨0⟩) = .ok calls
      ∧ tracked.usage.range.IsHull 64 ranges
      ∧ tracked.usage.calls.Perm calls
      ∧ tracked.usage.range = ⟨64, 0, 36⟩
      ∧ tracked.usage.calls.length = 3 := by
  have result : (cursor.track ⟨0⟩ none).result = .ok ⟨⟨⟨64, 0, 36⟩,
      [⟨.function ⟨1⟩, 0, ⟨64, 0, 1⟩⟩, ⟨.function ⟨1⟩, 2, ⟨64, 0, 1⟩⟩,
        ⟨.function ⟨1⟩, 1, ⟨64, 0, 33⟩⟩]⟩, true⟩ := by decide +kernel
  obtain ⟨⟨order, every⟩, _, _, complete⟩ :=
    track_adds_up_uses cursor_proper cursor_isOrigin result
  obtain ⟨ranges, calls, accesses, forwards, isHull, perm⟩ := complete rfl order every
  exact ⟨_, order, ranges, calls, result, rfl, every, accesses, forwards, isHull, perm, rfl, rfl⟩

end LocalAnalysis

end StackBounds
