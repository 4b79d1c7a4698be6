import StackBounds.Proofs.Summary.Owners
import StackBounds.Proofs.Summary.Renaming

/-! The order of modules. Adding the modules of a program in another order renumbers the summaries
and changes nothing else: calls are bound alike, and a propagation that forces nothing records the
same accesses.
-/

namespace StackBounds

-----------------------------------------------------------------------------------------
-- Numbers in permuted lists
-----------------------------------------------------------------------------------------

open Classical in
/-- The number in one list of what has a number in another list. -/
noncomputable def SummaryId.moved {α : Type} (source target : List α) (id : SummaryId)
    : SummaryId :=
  match source[id.index]? with
  | some owner => ⟨target.idxOf owner⟩
  | none => id

section Moved

variable {α : Type} {source target : List α} (perm : source.Perm target) (id : SummaryId)

include perm

theorem getElem?_moved : target[(id.moved source target).index]? = source[id.index]? := by
  classical
  rw [SummaryId.moved]
  cases found : source[id.index]? with
  | none =>
      rw [List.getElem?_eq_none_iff] at found ⊢
      exact perm.length_eq ▸ found
  | some owner =>
      exact List.getElem?_idxOf (perm.mem_iff.mp (List.mem_of_getElem? found))

theorem moved_moved (distinct : source.Nodup)
    : (id.moved source target).moved target source = id := by
  classical
  rw [SummaryId.moved, getElem?_moved perm id]
  cases found : source[id.index]? with
  | none => rw [SummaryId.moved, found]
  | some owner =>
      obtain ⟨bound, rfl⟩ := List.getElem?_eq_some_iff.mp found
      exact congrArg SummaryId.mk (distinct.idxOf_getElem id.index bound)

/-- The numbers of one list in the order of the other one. -/
noncomputable def renumbering (distinct : source.Nodup) : SummaryId ≃ SummaryId where
  toFun := SummaryId.moved source target
  invFun := SummaryId.moved target source
  left_inv id := moved_moved perm id distinct
  right_inv id := moved_moved perm.symm id (perm.nodup_iff.mp distinct)

end Moved

-----------------------------------------------------------------------------------------
-- One symbol, one summary
-----------------------------------------------------------------------------------------

namespace Module

/-- The symbol can be seen from other modules. -/
def IsShared (unit : Module) (symbol : Global) : Prop :=
  Linkage.isLocal <$> unit.linkageOf symbol = .ok false

/-- Different symbols have different identifiers; only symbols of one name that can be seen from
other modules share theirs.
-/
def SymbolsApart (units : List Module) : Prop :=
  ∀ unit ∈ units, ∀ other ∈ units, ∀ symbol second guid,
    unit.guidOf symbol = .ok guid → other.guidOf second = .ok guid
    → (unit.name = other.name ∧ symbol = second)
      ∨ (unit.nameOf symbol = other.nameOf second ∧ unit.IsShared symbol ∧ other.IsShared second)

variable {unit : Module} {symbol : Global} {summary other : Summary}
  {rename : SummaryId ≃ SummaryId}

/-- What a module says about a symbol makes up its summary, up to the kind. -/
theorem Describes.eq_renamed (describes : unit.Describes symbol summary)
    (again : unit.Describes symbol other) (kind : other.kind = summary.kind.renamed rename)
    : other = summary.renamed rename := by
  have guid := Except.ok.inj (again.guid.symm.trans describes.guid)
  have linkage := Except.ok.inj (again.linkage.symm.trans describes.linkage)
  obtain ⟨dsoLocal, placed, same⟩ := describes.dsoLocal
  obtain ⟨_, placedAgain, sameAgain⟩ := again.dsoLocal
  cases placed.symm.trans placedAgain
  rw [linkage] at sameAgain
  have owner := again.owner.trans describes.owner.symm
  have live := again.live.trans describes.live.symm
  have placement := sameAgain.trans same.symm
  obtain ⟨otherGuid, otherUnit, otherLinkage, otherLive, otherDsoLocal, otherKind⟩ := other
  simp only at guid linkage owner live placement kind
  rw [Summary.renamed, guid, owner, linkage, live, placement, kind]

/-- A symbol has one summary, up to the number of its aliasee. -/
theorem Summarizes.eq_renamed {withAccesses : Bool} {known otherKnown : List (Global × SummaryId)}
    (summarizes : unit.Summarizes withAccesses known symbol summary)
    (again : unit.Summarizes withAccesses otherKnown symbol other)
    (follows : ∀ aliasee id second, (aliasee, id) ∈ known → (aliasee, second) ∈ otherKnown
      → second = rename id)
    : other = summary.renamed rename := by
  refine summarizes.describes.eq_renamed again.describes ?_
  cases summarizes with
  | function _ kind _ recorded unrecorded =>
      cases again with
      | function _ kindAgain _ recordedAgain unrecordedAgain =>
          rw [kind, kindAgain]
          refine congrArg SummaryKind.function ?_
          cases withAccesses with
          | false => rw [unrecorded rfl, unrecordedAgain rfl]
          | true =>
              obtain ⟨_, analyzed, accesses⟩ := recorded rfl
              obtain ⟨_, analyzedAgain, accessesAgain⟩ := recordedAgain rfl
              cases analyzed.symm.trans analyzedAgain
              exact Except.ok.inj (accessesAgain.symm.trans accesses)
  | aliased _ kind found leads =>
      cases again with
      | aliased _ kindAgain foundAgain leadsAgain =>
          cases found.symm.trans foundAgain
          rw [kind, kindAgain]
          exact congrArg SummaryKind.aliased (follows _ _ _ leads leadsAgain)

end Module

namespace SummaryIndex

variable {index other : SummaryIndex} {config : Config} {units others : List Module}
  {owners otherOwners : List (Module × Global)}

namespace Assembled

variable (assembled : index.Assembled config units owners)

include assembled

theorem perm (assembledOther : other.Assembled config others otherOwners)
    (permuted : units.Perm others)
    : owners.Perm otherOwners := by
  refine (List.perm_ext_iff_of_nodup assembled.distinct assembledOther.distinct).mpr ?_
  intro owner
  rw [assembled.listed, assembledOther.listed, permuted.mem_iff]

theorem renames (assembledOther : other.Assembled config others otherOwners)
    (permuted : owners.Perm otherOwners)
    : index.Renames (renumbering permuted assembled.distinct) other := by
  intro id
  have owner := getElem?_moved permuted id
  cases found : owners[id.index]? with
  | none =>
      rw [found, List.getElem?_eq_none_iff, assembledOther.length] at owner
      rw [List.getElem?_eq_none_iff, assembled.length] at found
      rw [List.getElem?_eq_none found, Option.map_none]
      exact List.getElem?_eq_none owner
  | some pair =>
      obtain ⟨unit, symbol⟩ := pair
      rw [found] at owner
      obtain ⟨summary, known, present, summarizes, owned⟩ := assembled.owned id unit symbol found
      obtain ⟨otherSummary, otherKnown, presentOther, again, ownedOther⟩ :=
        assembledOther.owned _ unit symbol owner
      rw [present, Option.map_some]
      refine presentOther.trans (congrArg some (summarizes.eq_renamed again ?_))
      intro aliasee before after inside insideOther
      have moved := (getElem?_moved permuted before).trans (owned _ inside)
      exact assembledOther.number_eq (ownedOther _ insideOther) moved

theorem measured (wide : ∀ unit ∈ units, unit.pointerWidth = .w64)
    : ∀ summary ∈ index.summaries, summary.Measured recordWidth := by
  intro summary member
  obtain ⟨unit, _, _, listed, summarizes⟩ := assembled.summarizes_of_mem member
  have measured := summarizes.measured
  rw [wide unit listed] at measured
  exact measured

theorem linkable (names : (units.map (·.name)).Nodup) (apart : Module.SymbolsApart units)
    : index.Linkable := by
  refine ⟨assembled.descends, ?_, ?_, ?_⟩
  · intro summary member
    obtain ⟨_, _, _, _, summarizes⟩ := assembled.summarizes_of_mem member
    exact summarizes.describes.live
  · intro summary member object
    obtain ⟨_, _, _, _, summarizes⟩ := assembled.summarizes_of_mem member
    cases summarizes with
    | function _ kind _ _ _ => cases object.symm.trans kind
    | aliased _ kind _ _ => cases object.symm.trans kind
  · intro id second summary secondSummary found foundSecond same differ
    obtain ⟨unit, symbol, _, owner, listed, summarizes⟩ := assembled.exists_owner found
    obtain ⟨secondUnit, secondSymbol, _, secondOwner, listedSecond, summarizesSecond⟩ :=
      assembled.exists_owner foundSecond
    have named := summarizes.describes.guid
    have namedSecond := summarizesSecond.describes.guid
    rw [← same] at namedSecond
    rcases apart unit listed secondUnit listedSecond _ _ _ named namedSecond
      with ⟨sameName, sameSymbol⟩ | ⟨_, shared, _⟩
    · have sameUnit := List.inj_on_of_nodup_map names listed listedSecond sameName
      subst sameUnit sameSymbol
      exact absurd (assembled.number_eq owner secondOwner) differ
    · rw [Module.IsShared, summarizes.describes.linkage, map_ok, Except.ok.injEq] at shared
      exact shared

theorem exists_propagated (wide : ∀ unit ∈ units, unit.pointerWidth = .w64) {settings : Config}
    (room : ¬ index.FillsCounter settings)
    : ∃ propagated, (index.propagate settings).result = .ok propagated := by
  have recorded := recorded_of_measured (assembled.measured wide)
  obtain ⟨functions, taken⟩ := recorded.exists_functions assembled.aliasesExist
  rcases recorded.sized.propagate_ends taken settings
    with answered | ⟨_, _, _, joins, _⟩ | ⟨fills, _⟩
  · exact answered
  · have differ := (joins.exists_losesTrack fun id access record =>
      (recorded.sized.ofWidth record).bits_eq).1
    exact absurd rfl differ
  · exact absurd fills room

end Assembled

theorem Renames.fillsCounter {rename : SummaryId ≃ SummaryId} {settings : Config}
    (renames : index.Renames rename other) (fills : index.FillsCounter settings)
    : other.FillsCounter settings := by
  obtain ⟨summary, member, full⟩ := fills
  obtain ⟨number, found⟩ := List.mem_iff_getElem?.mp member
  have numbered : index.summaries[(SummaryId.mk number).index]? = some summary := found
  refine ⟨_, List.mem_of_getElem? (renames.found numbered), ?_⟩
  rwa [Summary.accesses_renamed]

theorem clearAccesses_propagate {propagated : SummaryIndex} {settings : Config}
    (answered : (index.propagate settings).result = .ok propagated)
    : propagated.clearAccesses = index.clearAccesses := by
  obtain ⟨_, _, _, _, _, _, stored⟩ := exists_propagation answered
  exact clearAccesses_store stored

/-- A propagation forces nothing if its first visits force nothing and leave none to be made. -/
theorem unforced_of_visitAll {index : SummaryIndex} {settings : Config} {solver : Solver}
    {functions last : Functions} {events : List Event} (taken : index.functions = .ok functions)
    (made : Solver.make recordWidth settings = .ok solver)
    (quick : settings.verify = false)
    (visited : solver.visitAll functions.keys ⟨functions, []⟩ = ⟨events, .ok ⟨last, []⟩⟩)
    (unforced : Unforced events)
    : Unforced (index.propagate settings).events := by
  have drained : solver.drain ⟨last, []⟩ = pure ⟨last, []⟩ := by rw [Solver.drain]
  have first : (solver.visitAll functions.keys ⟨functions, []⟩).result = .ok ⟨last, []⟩ := by
    rw [visited]
  have ran : (solver.run settings.verify functions).result = .ok last := by
    rw [quick, Solver.run, Traced.result_bind, first, ok_bind, drained]
    rfl
  have quiet : Unforced (solver.run settings.verify functions).events := by
    rw [quick, Solver.run, Traced.events_bind _ first, visited, drained, unforced_append]
    exact ⟨unforced, fun _ _ => List.not_mem_nil⟩
  rw [propagate, Traced.events_bind _ taken, Traced.events_bind _ made,
    Traced.events_bind _ ran, unforced_append, unforced_append, unforced_append]
  refine ⟨fun _ _ => List.not_mem_nil, fun _ _ => List.not_mem_nil, quiet, ?_⟩
  intro func updates
  cases stored : index.store last with
  | error fault => exact List.not_mem_nil
  | ok result =>
      change _ ∉ [Event.propagate _]
      simp

end SummaryIndex

namespace Module

/-- The order of the modules of a program makes no difference. Adding them in another order has an
answer exactly if adding them in the first order has one. The summaries then differ in their numbers
only and every call is bound alike, before and after a propagation. If both propagations force
nothing, they record the same accesses.
-/
theorem summarizeAll_renames_of_perm {units others : List Module} (permuted : units.Perm others)
    (names : (units.map (·.name)).Nodup) (wide : ∀ unit ∈ units, unit.pointerWidth = .w64)
    (apart : SymbolsApart units) (config : Config)
    : ((∃ index, (summarizeAll units config .empty).result = .ok index)
        ↔ ∃ other, (summarizeAll others config .empty).result = .ok other)
      ∧ ∀ index other, (summarizeAll units config .empty).result = .ok index
        → (summarizeAll others config .empty).result = .ok other
        → ∃ rename, index.Renames rename other ∧ index.BindsAlike rename other
          ∧ ∀ settings,
            (¬ index.FillsCounter settings
              → (∃ propagated, (index.propagate settings).result = .ok propagated)
                ∧ ∃ propagated, (other.propagate settings).result = .ok propagated)
            ∧ ∀ propagated otherPropagated,
              (index.propagate settings).result = .ok propagated
              → (other.propagate settings).result = .ok otherPropagated
              → propagated.BindsAlike rename otherPropagated
                ∧ (Unforced (index.propagate settings).events
                  → Unforced (other.propagate settings).events
                  → propagated.Renames rename otherPropagated) := by
  have namesOther := (permuted.map (·.name)).nodup_iff.mp names
  have wideOther (unit : Module) (member : unit ∈ others) : unit.pointerWidth = .w64 :=
    wide unit (permuted.mem_iff.mpr member)
  have apartOther : SymbolsApart others := by
    intro unit member other memberOther
    exact apart unit (permuted.mem_iff.mpr member) other (permuted.mem_iff.mpr memberOther)
  constructor
  · rw [summarizeAll_ok_iff, summarizeAll_ok_iff]
    exact forall_congr' fun unit => imp_congr_left permuted.mem_iff
  intro index other summarized summarizedOther
  obtain ⟨owners, assembled⟩ := SummaryIndex.exists_assembled names.of_map summarized
  obtain ⟨otherOwners, assembledOther⟩ :=
    SummaryIndex.exists_assembled namesOther.of_map summarizedOther
  have renames := assembled.renames assembledOther (assembled.perm assembledOther permuted)
  have alike := SummaryIndex.bindsAlike_of_renames (assembled.linkable names apart)
    (assembledOther.linkable namesOther apartOther) renames
  refine ⟨_, renames, alike, fun settings => ⟨fun room => ⟨?_, ?_⟩, ?_⟩⟩
  · exact assembled.exists_propagated wide room
  · exact assembledOther.exists_propagated wideOther fun fills =>
      room (renames.symm.fillsCounter fills)
  · intro propagated otherPropagated answered answeredOther
    refine ⟨alike.of_clearAccesses (SummaryIndex.clearAccesses_propagate answered)
      (SummaryIndex.clearAccesses_propagate answeredOther), ?_⟩
    intro unforced unforcedOther
    exact renames.of_propagate alike (assembled.measured wide) (assembledOther.measured wideOther)
      answered answeredOther unforced unforcedOther

/-- What the solver sees of the function in the middle, which hands its parameter to `target`. -/
def handing (target : SummaryId) (range : Range) (updates : UInt32) : FunctionUsage Callee :=
  ⟨.empty, .ofList [(0, ⟨range, [⟨.summary target, 0, ⟨64, 4, 5⟩⟩]⟩)], updates⟩

def writing : FunctionUsage Callee := ⟨.empty, .ofList [(0, ⟨⟨64, 0, 4⟩, []⟩)], 0⟩

theorem symbolsApart_parts : SymbolsApart [relayer, writer] := by
  have listed : ∀ unit ∈ [relayer, writer], ∀ other ∈ [relayer, writer],
      ∀ symbol ∈ unit.globals, ∀ second ∈ other.globals,
        unit.guidOf symbol = other.guidOf second
        → (unit.name = other.name ∧ symbol = second)
          ∨ (unit.nameOf symbol = other.nameOf second
            ∧ Linkage.isLocal <$> unit.linkageOf symbol = .ok false
            ∧ Linkage.isLocal <$> other.linkageOf second = .ok false) := by
    decide +kernel
  intro unit member other memberOther symbol second guid named namedOther
  exact listed unit member other memberOther symbol (mem_globals_of_guidOf named) second
    (mem_globals_of_guidOf namedOther) (named.trans namedOther.symm)

theorem unforced_relayer_first
    : Unforced ((SummaryIndex.mk [pending, written]).propagate { verify := false }).events := by
  let functions (range : Range) (updates : UInt32) : Functions :=
    .ofList [(.summary ⟨0⟩, handing ⟨1⟩ range updates), (.summary ⟨1⟩, writing)]
  have taken : (SummaryIndex.mk [pending, written]).functions = .ok (functions ⟨64, 0, 0⟩ 0) := by
    decide +kernel
  have visited : (Solver.mk (Range.top 64) 20).visitAll [.summary ⟨0⟩, .summary ⟨1⟩]
      ⟨functions ⟨64, 0, 0⟩ 0, []⟩
      = ⟨[.widen (.summary ⟨0⟩) 0 false], .ok ⟨functions ⟨64, 4, 8⟩ 1, []⟩⟩ := rfl
  exact SummaryIndex.unforced_of_visitAll taken rfl rfl visited (by simp [Unforced])

theorem unforced_writer_first
    : Unforced ((SummaryIndex.mk [written, pending]).propagate { verify := false }).events := by
  let functions (range : Range) (updates : UInt32) : Functions :=
    .ofList [(.summary ⟨0⟩, writing), (.summary ⟨1⟩, handing ⟨0⟩ range updates)]
  have taken : (SummaryIndex.mk [written, pending]).functions = .ok (functions ⟨64, 0, 0⟩ 0) := by
    decide +kernel
  have visited : (Solver.mk (Range.top 64) 20).visitAll [.summary ⟨0⟩, .summary ⟨1⟩]
      ⟨functions ⟨64, 0, 0⟩ 0, []⟩
      = ⟨[.widen (.summary ⟨1⟩) 0 false], .ok ⟨functions ⟨64, 4, 8⟩ 1, []⟩⟩ := rfl
  exact SummaryIndex.unforced_of_visitAll taken rfl rfl visited (by simp [Unforced])

/-- Two modules of a program in either order. -/
theorem summarizeAll_renames_of_perm_parts
    : [relayer, writer].Perm [writer, relayer]
      ∧ ([relayer, writer].map (·.name)).Nodup
      ∧ (∀ unit ∈ [relayer, writer], unit.pointerWidth = .w64)
      ∧ SymbolsApart [relayer, writer]
      ∧ (summarizeAll [relayer, writer] recording .empty).result = .ok ⟨[pending, written]⟩
      ∧ (summarizeAll [writer, relayer] recording .empty).result = .ok ⟨[written, pending]⟩
      ∧ ∃ rename propagated otherPropagated,
        (SummaryIndex.mk [pending, written]).BindsAlike rename ⟨[written, pending]⟩
        ∧ ((SummaryIndex.mk [pending, written]).propagate { verify := false }).result
          = .ok propagated
        ∧ ((SummaryIndex.mk [written, pending]).propagate { verify := false }).result
          = .ok otherPropagated
        ∧ propagated.Renames rename otherPropagated := by
  have forth : (summarizeAll [relayer, writer] recording .empty).result
      = .ok ⟨[pending, written]⟩ := by
    rw [summarizeAll, List.foldlM_cons, Traced.result_bind, summarize_relayer, ok_bind,
      List.foldlM_cons, Traced.result_bind, summarize_writer, ok_bind]
    rfl
  have back : (summarizeAll [writer, relayer] recording .empty).result
      = .ok ⟨[written, pending]⟩ := by
    rw [summarizeAll, List.foldlM_cons, Traced.result_bind, summarize_writer, ok_bind,
      List.foldlM_cons, Traced.result_bind, summarize_relayer, ok_bind]
    rfl
  have room : ¬ (SummaryIndex.mk [pending, written]).FillsCounter { verify := false } := by
    intro fills
    obtain ⟨summary, member, full⟩ := fills
    simp only [List.mem_cons, List.not_mem_nil, or_false] at member
    rcases member with rfl | rfl <;> exact absurd full (by decide)
  have permuted : [relayer, writer].Perm [writer, relayer] := .swap _ _ _
  have names : ([relayer, writer].map (·.name)).Nodup := by decide
  have wide : ∀ unit ∈ [relayer, writer], unit.pointerWidth = .w64 := by decide
  obtain ⟨_, orders⟩ :=
    summarizeAll_renames_of_perm permuted names wide symbolsApart_parts recording
  obtain ⟨rename, _, alike, propagations⟩ := orders _ _ forth back
  obtain ⟨answers, same⟩ := propagations { verify := false }
  obtain ⟨⟨propagated, answered⟩, otherPropagated, answeredOther⟩ := answers room
  exact ⟨permuted, names, wide, symbolsApart_parts, forth, back, rename, propagated,
    otherPropagated, alike, answered, answeredOther,
    (same propagated otherPropagated answered answeredOther).2 unforced_relayer_first
      unforced_writer_first⟩

end Module

end StackBounds
