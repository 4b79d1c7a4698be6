import StackBounds.Proofs.Liveness

/-! Markers whose address can be an allocation: an allocation that is found alive can have been
ended on a path only by a marker of an address that is picked among several ones.
-/

namespace StackBounds

open Relation (ReflTransGen)

-----------------------------------------------------------------------------------------
-- Addresses that are picked among others
-----------------------------------------------------------------------------------------

namespace Function

/-- A value is one of several values: an arm of a choice, or an input of a merge of paths. -/
inductive Picks (func : Function) : ValueId → ValueId → Prop
  | select {addr inst ty cond then_ else_ arm}
    (value : func.value addr = .ok (.result inst ty))
    (op : func.inst inst = .ok (.select cond then_ else_))
    (taken : arm ∈ [then_, else_])
    : func.Picks addr arm
  | phi {addr inst ty inputs blocks target input}
    (value : func.value addr = .ok (.result inst ty))
    (op : func.inst inst = .ok (.phi inputs blocks target))
    (taken : input ∈ inputs)
    : func.Picks addr input

/-- A value is picked among others, through casts and offsets of zero. -/
def IsPicked (func : Function) (addr : ValueId) : Prop :=
  ∃ merged input, ReflTransGen func.SameAddress addr merged ∧ func.Picks merged input

/-- A value can be the address of an allocation: through casts, offsets of zero, choices and merges
of paths.
-/
inductive CanNameAlloca (func : Function) (alloca : InstId) : ValueId → Prop
  | alloca {addr ty elem count}
    (value : func.value addr = .ok (.result alloca ty))
    (op : func.inst alloca = .ok (.alloca elem count))
    : func.CanNameAlloca alloca addr
  | same {addr source}
    (same : func.SameAddress addr source) (names : func.CanNameAlloca alloca source)
    : func.CanNameAlloca alloca addr
  | picked {addr input}
    (picks : func.Picks addr input) (names : func.CanNameAlloca alloca input)
    : func.CanNameAlloca alloca addr

/-- Some instructions can leave an allocation ended: an end marker among them is on an address that
can be it, and no later marker of the allocation starts it again.
-/
def CanLeaveEnded (func : Function) (alloca : InstId) (insts : List InstId) (addr : ValueId)
    : Prop :=
  ∃ before marker size after, insts = before ++ marker :: after
    ∧ func.inst marker = .ok (.lifetime .stop size addr)
    ∧ func.CanNameAlloca alloca addr
    ∧ ∀ later ∈ after, ¬ func.Marks later alloca .start

variable {func : Function} {alloca : InstId} {addr : ValueId}

theorem IsPicked.head {source : ValueId} (picked : func.IsPicked source)
    (same : func.SameAddress addr source)
    : func.IsPicked addr := by
  obtain ⟨merged, input, chain, picks⟩ := picked
  exact ⟨merged, input, .head same chain, picks⟩

/-- An address that can be an allocation is that allocation, or it is picked among others. -/
theorem CanNameAlloca.names_or_isPicked (names : func.CanNameAlloca alloca addr)
    : func.NamesAlloca alloca addr ∨ func.IsPicked addr := by
  induction names with
  | alloca value op => exact .inl (.alloca value op)
  | same same _ ih => exact ih.imp (.same same) (·.head same)
  | picked picks _ _ => exact .inr ⟨_, _, .refl, picks⟩

end Function

-----------------------------------------------------------------------------------------
-- What an end marker leaves
-----------------------------------------------------------------------------------------

namespace MarkedFlow

variable {func : Function} {marked : MarkedFlow} {alloca : InstId} {insts : List InstId}
  (isOf : marked.IsOf func)

include isOf

/-- A dead allocation stays dead where no marker starts it. -/
theorem through_of_not_started (placed : ∀ inst ∈ insts, inst ∈ func.placedInsts)
    (unstarted : ∀ inst ∈ insts, ¬ func.Marks inst alloca .start)
    : marked.through alloca false insts = false := by
  induction insts with
  | nil => rfl
  | cons inst rest ih =>
      have step : marked.step alloca false inst = false := by
        by_cases stopped : func.Marks inst alloca .stop
        · exact step_of_marks isOf (placed inst List.mem_cons_self) stopped
        · refine step_of_unmarked isOf fun op marks => ?_
          cases op with
          | start => exact unstarted inst List.mem_cons_self marks
          | stop => exact stopped marks
      rw [through, List.foldl_cons, step]
      exact ih (fun other member => placed other (List.mem_cons_of_mem _ member))
        (fun other member => unstarted other (List.mem_cons_of_mem _ member))

/-- An end marker of the allocation leaves it dead, up to the next marker that starts it. -/
theorem through_of_stopped {before after : List InstId} {marker : InstId} {alive : Bool}
    (placed : ∀ inst ∈ before ++ marker :: after, inst ∈ func.placedInsts)
    (stopped : func.Marks marker alloca .stop)
    (unstarted : ∀ inst ∈ after, ¬ func.Marks inst alloca .start)
    : marked.through alloca alive (before ++ marker :: after) = false := by
  have standing := placed marker (List.mem_append_right _ List.mem_cons_self)
  rw [through, List.foldl_append, List.foldl_cons, step_of_marks isOf standing stopped]
  exact through_of_not_started isOf
    (fun inst member => placed inst (List.mem_append_right _ (List.mem_cons_of_mem _ member)))
    unstarted

end MarkedFlow

namespace Lifetime

variable {func : Function} {lifetime : Lifetime} {alloca inst : InstId} {block : BlockId}
  {path : List BlockId}

/-- A path on which an allocation comes out dead lets it be dead. -/
theorem canBeDead_of_path (describes : lifetime.Describes func) (marked : func.IsMarked alloca)
    (standing : func.blockOf inst = some block) (isPath : func.Path path block)
    (dead : lifetime.through alloca false
      (path.flatMap func.instsOf ++ upTo inst (func.instsOf block)) = false)
    : lifetime.CanBeDead alloca inst := by
  have isOf := isOf describes
  have entered : lifetime.Enters alloca block _ :=
    (MarkedFlow.enters_iff_path isOf).mpr ⟨path, isPath, rfl⟩
  rw [MarkedFlow.through, List.foldl_append] at dead
  refine ⟨(MarkedFlow.mem_tracked isOf).mpr marked, block, _, ?_, entered, ?_⟩
  · rw [isOf.func_eq, standing]
  · rwa [isOf.func_eq]

/-- Lifetimes miss only the ends of picked addresses. Where an allocation is found alive, no path
up to there can leave it ended, through casts, offsets of zero, choices and merges of paths, unless
the address of the end marker is picked among several ones by a choice or a merge of paths.
-/
theorem isPicked_of_isAliveAfter (made : ofFunction func = .ok lifetime)
    (standing : func.blockOf inst = some block) (isPath : func.Path path block)
    (alive : lifetime.isAliveAfter alloca inst = true) {addr : ValueId}
    (ended : func.CanLeaveEnded alloca
      (path.flatMap func.instsOf ++ upTo inst (func.instsOf block)) addr)
    : func.IsPicked addr := by
  obtain ⟨before, marker, size, after, split, stop, canName, unstarted⟩ := ended
  refine canName.names_or_isPicked.resolve_left fun names => ?_
  have describes := describes_of_ofFunction made
  have stopped : func.Marks marker alloca .stop := ⟨size, addr, stop, names⟩
  have placed : ∀ other ∈ before ++ marker :: after, other ∈ func.placedInsts := fun other member =>
    Function.mem_placedInsts_of_path (split ▸ member)
  have marked : func.IsMarked alloca :=
    ⟨marker, placed marker (List.mem_append_right _ List.mem_cons_self), .stop, stopped⟩
  refine not_canBeDead describes alive (canBeDead_of_path describes marked standing isPath ?_)
  rw [split]
  exact MarkedFlow.through_of_stopped (isOf describes) placed stopped unstarted

/-- One of two allocations starts to live. Then one of them is ended, which one depends on the
argument, and the first one is read.
-/
def endEither : Function where
  sig := .declared "f" .exported [.i1] .unit
  values := [.argument .i1 0, .result ⟨0⟩ .ptr, .result ⟨1⟩ .ptr, .result ⟨3⟩ .ptr,
    .result ⟨5⟩ .i64]
  insts := [.alloca .i64 none, .alloca .i64 none, .lifetime .start 8 ⟨1⟩, .select ⟨0⟩ ⟨1⟩ ⟨2⟩,
    .lifetime .stop 8 ⟨3⟩, .load ⟨1⟩ .i64, .ret none]
  blockCount := 1
  layout := [⟨⟨0⟩, [⟨0⟩, ⟨1⟩, ⟨2⟩, ⟨3⟩, ⟨4⟩, ⟨5⟩, ⟨6⟩]⟩]

/-- The lifetimes in `endEither`: a single block and a single marker of an allocation. -/
def endEitherLifetime : Lifetime where
  func := endEither
  flow := ⟨some ⟨0⟩, []⟩
  markers := [⟨⟨2⟩, ⟨0⟩, .start⟩]
  reachable := [⟨0⟩]
  tables := ⟨.ofList [(⟨0⟩, .empty)], .ofList [(⟨0⟩, ⟨1⟩)]⟩

theorem ofFunction_endEither : ofFunction endEither = .ok endEitherLifetime := by
  have flow : Flow.ofFunction endEither = .ok ⟨some ⟨0⟩, []⟩ := rfl
  have markers : endEither.markers = .ok [⟨⟨2⟩, ⟨0⟩, .start⟩] := by decide +kernel
  have order : (Flow.mk (some ⟨0⟩) []).postOrder = [⟨0⟩] := by
    rw [Flow.postOrder_eq_walk]
    simp [Flow.nodes, Flow.sorted, Flow.insertSorted, Flow.walk, Flow.succs]
  have control : MarkedFlow.ofFunction endEither = .ok endEitherLifetime.toMarkedFlow := by
    rw [MarkedFlow.ofFunction, flow, ok_bind, markers, ok_bind, order, pure_eq_ok]
    rfl
  have unchanged : endEitherLifetime.sweep endEitherLifetime.start
      = (endEitherLifetime.tables, false) := by decide
  rw [ofFunction, control, ok_bind, MarkedFlow.settle_of_unchanged unchanged, pure_eq_ok]

theorem endEither_canLeaveEnded
    : endEither.CanLeaveEnded ⟨0⟩
        ([].flatMap endEither.instsOf ++ upTo ⟨5⟩ (endEither.instsOf ⟨0⟩)) ⟨3⟩ := by
  refine ⟨[⟨0⟩, ⟨1⟩, ⟨2⟩, ⟨3⟩], ⟨4⟩, 8, [⟨5⟩], rfl, rfl, ?_, ?_⟩
  · exact .picked (.select rfl rfl List.mem_cons_self) (.alloca rfl rfl)
  · intro later member
    cases List.mem_singleton.mp member
    have read : endEither.inst ⟨5⟩ = .ok (.load ⟨1⟩ .i64) := rfl
    exact Function.not_marks_of_inst read nofun .start

/-- Counterexample: the first allocation is found alive after the load, although the marker before
it can have ended it and nothing has started it again.
-/
theorem exists_alive_ended_endEither
    : ∃ lifetime, ofFunction endEither = .ok lifetime
        ∧ endEither.IsMarked ⟨0⟩
        ∧ endEither.blockOf ⟨5⟩ = some ⟨0⟩
        ∧ endEither.Path [] ⟨0⟩
        ∧ lifetime.isAliveAfter ⟨0⟩ ⟨5⟩ = true
        ∧ endEither.CanLeaveEnded ⟨0⟩
            ([].flatMap endEither.instsOf ++ upTo ⟨5⟩ (endEither.instsOf ⟨0⟩)) ⟨3⟩ :=
  ⟨endEitherLifetime, ofFunction_endEither,
    ⟨⟨2⟩, by decide, .start, 8, ⟨1⟩, rfl, .alloca rfl rfl⟩, rfl, .entry rfl, by decide,
    endEither_canLeaveEnded⟩

/-- Witness: the marker that can have ended the allocation is on a picked address. -/
theorem isPicked_of_isAliveAfter_endEither
    : endEitherLifetime.isAliveAfter ⟨0⟩ ⟨5⟩ = true ∧ endEither.IsPicked ⟨3⟩ :=
  ⟨by decide, isPicked_of_isAliveAfter ofFunction_endEither rfl (.entry rfl) (by decide)
    endEither_canLeaveEnded⟩

end Lifetime

end StackBounds
