import StackBounds.Proofs.Summary.Chains

/-! Rounds of propagation, over records of any widths. A round binds calls as before and leaves no
calls in the records; what it records covers every chain of calls, and further rounds only widen
that.
-/

namespace StackBounds.SummaryIndex

open Relation (ReflTransGen TransGen)

/-- A round of propagation leads from one index to the other. -/
def Propagates (index propagated : SummaryIndex) : Prop :=
  ∃ config, (index.propagate config).result = .ok propagated

/-- The access is on record for the summary with the number. -/
def OnRecord (index : SummaryIndex) (id : SummaryId) (access : ParamAccess) : Prop :=
  ∃ summary, index.summaries[id.index]? = some summary ∧ access ∈ summary.accesses

/-- The range covers the accesses at the end of every chain of calls that starts at a parameter,
and is full when one of the chains gets lost.
-/
structure CoversChains (index : SummaryIndex) (id : SummaryId) (param : UInt32) (range : Range)
    : Prop where
  reached : ∀ {last access shift position}, index.Reaches id param last access.param shift
    → index.OnRecord last access → access.range.Holds position → range.Allows (shift + position)
  lost : ∀ {last lastParam shift}, index.Reaches id param last lastParam shift
    → index.Lost last lastParam → range.IsAll

variable {index propagated used : SummaryIndex} {width : Callee → UInt32}

theorem CoversChains.of_subset {id : SummaryId} {param : UInt32} {known range : Range}
    (covers : index.CoversChains id param known) (wfKnown : known.WellFormed)
    (wf : range.WellFormed) (same : known.bits = range.bits) (included : known ⊆ range)
    : index.CoversChains id param range where
  reached chain record held := (covers.reached chain record held).of_subset wfKnown wf same included
  lost chain lost := wf.isAll_of_superset (covers.lost chain lost) same.symm included

-----------------------------------------------------------------------------------------
-- Records
-----------------------------------------------------------------------------------------

/-- What is found for a parameter is on record. -/
theorem onRecord_of_access? {id : SummaryId} {param : UInt32} {access : ParamAccess}
    (found : index.access? id param = .ok (some access))
    : index.OnRecord id access ∧ access.param = param := by
  obtain ⟨summary, foundSummary, found⟩ := exists_of_bind_eq_ok found
  rw [pure_eq_ok, Except.ok.injEq] at found
  exact ⟨⟨summary, summary_eq_ok_iff.mp foundSummary, List.mem_of_find?_eq_some found⟩,
    by simpa using List.find?_some found⟩

section Records

variable (sized : index.Sized width)

include sized

theorem Sized.ofWidth {id : SummaryId} {access : ParamAccess} (record : index.OnRecord id access)
    : access.range.OfWidth (width (.summary id)) := by
  obtain ⟨summary, found, inside⟩ := record
  exact sized.ranges id summary found access inside

/-- A parameter has one record. -/
theorem Sized.record_eq {id : SummaryId} {first second : ParamAccess}
    (one : index.OnRecord id first) (other : index.OnRecord id second)
    (same : first.param = second.param)
    : first = second := by
  obtain ⟨summary, found, inside⟩ := one
  obtain ⟨_, foundAgain, insideOther⟩ := other
  cases found.symm.trans foundAgain
  exact List.inj_on_of_nodup_map (sized.params summary (List.mem_of_getElem? found)) inside
    insideOther same

/-- A record without calls covers all chains: there is only the one that stays. -/
theorem Sized.coversChains_of_nil {id : SummaryId} {access : ParamAccess}
    (record : index.OnRecord id access) (complete : access.calls = [])
    : index.CoversChains id access.param access.range := by
  have only {summary : Summary} {other : ParamAccess}
      (found : index.summaries[id.index]? = some summary) (inside : other ∈ summary.accesses)
      (same : other.param = access.param)
      : other = access :=
    sized.record_eq ⟨summary, found, inside⟩ record same
  have stays {param lastParam : UInt32} {last : SummaryId} {shift : Int}
      (chain : index.Reaches id param last lastParam shift) (same : param = access.param)
      : last = id ∧ lastParam = access.param ∧ shift = 0 := by
    cases chain with
    | here => exact ⟨rfl, same, rfl⟩
    | call found inside recorded _ _ _ =>
        rw [only found inside same, complete] at recorded
        cases recorded
  refine ⟨fun chain recordLast held => ?_, fun chain lost => ?_⟩
  · obtain ⟨rfl, same, rfl⟩ := stays chain rfl
    rw [sized.record_eq recordLast record same] at held
    rw [Int.zero_add]
    exact Or.inr held
  · obtain ⟨rfl, same, rfl⟩ := stays chain rfl
    cases lost with
    | unrecorded found absent =>
        obtain ⟨_, foundAgain, inside⟩ := record
        cases found.symm.trans foundAgain
        exact absurd same.symm (absent access inside)
    | unbound found inside recorded _ =>
        rw [only found inside same, complete] at recorded
        cases recorded

end Records

-----------------------------------------------------------------------------------------
-- One round
-----------------------------------------------------------------------------------------

/-- What a round stores: the ranges of functions that grew from the records until they absorbed
their calls.
-/
structure Round (index propagated : SummaryIndex) (width : Callee → UInt32) : Prop where
  bound : propagated.clearAccesses = index.clearAccesses
  sized : propagated.Sized width
  solved : ∃ config solver functions final, Solver.make recordWidth config = .ok solver
    ∧ index.Represents width functions ∧ final.Sized width ∧ functions.Grows final
    ∧ solver.Absorbed final
    ∧ ∀ {id access}, propagated.OnRecord id access
      → access.calls = [] ∧ ∃ usage, final.param? (.summary id) access.param = some usage
        ∧ usage.range = access.range

theorem length_eq_of_clearAccesses (same : propagated.clearAccesses = index.clearAccesses)
    : propagated.summaries.length = index.summaries.length := by
  have lengths := congrArg (fun cleared => cleared.summaries.length) same
  simpa only [clearAccesses_eq, List.length_map] using lengths

/-- A round solves the functions of the index and stores what it finds. -/
theorem Propagates.round (propagates : index.Propagates propagated) (sized : index.Sized width)
    : index.Round propagated width := by
  obtain ⟨config, answered⟩ := propagates
  obtain ⟨functions, solver, final, taken, made, ran, stored⟩ := exists_propagation answered
  have represents := represents_of_sized taken sized
  obtain ⟨chain, absorbed⟩ := Solver.run_answer made represents.sized ran
  obtain ⟨sizedFinal, grows⟩ := Solver.sized_of_chain made represents.sized chain
  have bound := clearAccesses_store stored
  obtain ⟨_, storing, accesses⟩ := store_accesses
    ((Table.Related.keys_eq grows).symm ▸ represents.keys)
  cases stored.symm.trans storing
  -- Every stored record was made from a solved parameter of its function.
  have records {id : SummaryId} {summary : Summary}
      (found : propagated.summaries[id.index]? = some summary)
      : (summary.accesses.map (·.param)).Nodup
        ∧ ∀ access ∈ summary.accesses, access.calls = []
          ∧ ∃ usage, final.param? (.summary id) access.param = some usage
            ∧ usage.range = access.range := by
    obtain ⟨_, foundAgain, same⟩ := accesses id
      (length_eq_of_clearAccesses bound ▸ (List.getElem?_eq_some_iff.mp found).1)
    cases found.symm.trans foundAgain
    cases foundInfo : final.get? (.summary id) with
    | none =>
        rw [foundInfo] at same
        rw [same]
        exact ⟨List.nodup_nil, fun _ member => by cases member⟩
    | some info =>
        rw [foundInfo, Option.map_some, Option.getD_some] at same
        rw [same, solvedAccesses, List.map_map]
        refine ⟨info.params.keys_nodup, fun access member => ?_⟩
        obtain ⟨⟨param, usage⟩, inside, rfl⟩ := List.mem_map.mp member
        refine ⟨rfl, usage, ?_, rfl⟩
        rw [Functions.param?, foundInfo, Option.bind_some]
        exact Table.get?_of_mem inside
  refine ⟨bound, ⟨?_, ?_, ?_⟩,
    config, solver, functions, final, made, represents, sizedFinal, grows, absorbed, ?_⟩
  · intro summary member
    obtain ⟨number, found⟩ := List.mem_iff_getElem?.mp member
    have numbered : propagated.summaries[(SummaryId.mk number).index]? = some summary := found
    exact (records numbered).1
  · intro id summary found access inside
    obtain ⟨_, usage, foundUsage, same⟩ := (records found).2 access inside
    exact same ▸ (sizedFinal.usages _ _ _ foundUsage).range
  · intro id summary found access inside call listed
    rw [((records found).2 access inside).1] at listed
    cases listed
  · rintro id access ⟨summary, found, inside⟩
    exact (records found).2 access inside

namespace Round

variable (round : index.Round propagated width)

include round

/-- A round makes the records complete. -/
theorem complete {id : SummaryId} {access : ParamAccess}
    (record : propagated.OnRecord id access)
    : access.calls = [] := by
  obtain ⟨_, _, _, _, _, _, _, _, _, records⟩ := round.solved
  exact (records record).1

/-- What a round records includes what was on record before. -/
theorem widens {id : SummaryId} {access : ParamAccess} (record : propagated.OnRecord id access)
    : ∃ known, index.OnRecord id known ∧ known.param = access.param
      ∧ known.range ⊆ access.range := by
  obtain ⟨_, _, functions, final, _, represents, sized, grows, _, records⟩ := round.solved
  obtain ⟨_, usage, found, same⟩ := records record
  obtain ⟨summary, known, callable, inside, param⟩ := exists_record_of_final represents grows found
  have meets := translates_final represents sized grows callable inside (param ▸ found)
  exact ⟨known, ⟨summary, callable.found, inside⟩, param, same ▸ meets.range⟩

/-- What a round records covers every chain of calls. -/
theorem coversChains {id : SummaryId} {summary : Summary} {access : ParamAccess}
    (sized : index.Sized width) (callable : index.Callable id summary)
    (record : propagated.OnRecord id access)
    : index.CoversChains id access.param access.range := by
  obtain ⟨_, _, _, _, made, represents, sizedFinal, grows, absorbed, records⟩ := round.solved
  obtain ⟨_, usage, found, same⟩ := records record
  refine same ▸ ⟨fun chain recordLast held => ?_, fun chain lost => ?_⟩
  · have range := sized.ofWidth recordLast
    obtain ⟨_, foundLast, inside⟩ := recordLast
    exact allows_of_reaches represents sizedFinal grows made absorbed chain callable foundLast
      inside rfl range held found
  · exact isAll_of_reaches_lost represents sizedFinal grows made absorbed chain lost callable found

end Round

-----------------------------------------------------------------------------------------
-- Any number of rounds
-----------------------------------------------------------------------------------------

/-- What stays true through rounds: calls are bound as before, and a record widens one that was
there.
-/
structure Widens (index used : SummaryIndex) (width : Callee → UInt32) : Prop where
  bound : used.clearAccesses = index.clearAccesses
  sized : used.Sized width
  records : ∀ {id access}, used.OnRecord id access
    → ∃ known, index.OnRecord id known ∧ known.param = access.param
      ∧ known.range ⊆ access.range

/-- Rounds widen; by induction on the rounds. -/
theorem widens_of_rounds (rounds : ReflTransGen Propagates index used) (sized : index.Sized width)
    : index.Widens used width := by
  induction rounds with
  | refl =>
      exact ⟨rfl, sized, fun record => ⟨_, record, rfl, Range.subset_refl _⟩⟩
  | tail _ last ih =>
      have round := last.round ih.sized
      refine ⟨round.bound.trans ih.bound, round.sized, fun record => ?_⟩
      obtain ⟨middle, recordMiddle, sameMiddle, wider⟩ := round.widens record
      obtain ⟨known, recordKnown, same, wide⟩ := ih.records recordMiddle
      exact ⟨known, recordKnown, same.trans sameMiddle, Range.subset_trans wide wider⟩

/-- After a round all records are complete. -/
theorem complete_of_rounds (rounds : TransGen Propagates index used) (sized : index.Sized width)
    {id : SummaryId} {access : ParamAccess} (record : used.OnRecord id access)
    : access.calls = [] := by
  obtain ⟨middle, before, last⟩ := TransGen.tail'_iff.mp rounds
  exact (last.round (widens_of_rounds before sized).sized).complete record

/-- However many rounds there were, a record without calls covers every chain of calls. -/
theorem coversChains_of_rounds (rounds : ReflTransGen Propagates index used)
    (sized : index.Sized width) {id : SummaryId} {summary : Summary} {access : ParamAccess}
    (callable : index.Callable id summary) (record : used.OnRecord id access)
    (complete : access.calls = [])
    : index.CoversChains id access.param access.range := by
  rcases ReflTransGen.cases_head rounds with rfl | ⟨first, head, rest⟩
  · exact sized.coversChains_of_nil record complete
  · have round := head.round sized
    have widens := widens_of_rounds rest round.sized
    obtain ⟨known, recordKnown, same, wider⟩ := widens.records record
    have range := round.sized.ofWidth recordKnown
    have widerRange := widens.sized.ofWidth record
    exact same ▸ (round.coversChains sized callable recordKnown).of_subset range.wellFormed
      widerRange.wellFormed (range.bits_eq.trans widerRange.bits_eq.symm) wider

/-- Calls are bound alike in an index with other records. -/
theorem boundFunction_eq (same : used.clearAccesses = index.clearAccesses) (guid : Guid)
    (unit : String)
    : used.boundFunction guid unit = index.boundFunction guid unit := by
  rw [← boundFunction_clearAccesses, same, boundFunction_clearAccesses]

end StackBounds.SummaryIndex
