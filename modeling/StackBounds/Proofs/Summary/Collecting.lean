import Mathlib.Data.List.Nodup
import StackBounds.Proofs.Local.Functions
import StackBounds.Proofs.Summary.Binding
import StackBounds.Summary.Collect

/-! Collected summaries: what a module adds to an index for each of its symbols, and what the
records of its functions say.
-/

namespace StackBounds

/-- The records denote straight sets of a width, their calls have offsets of that width, and no
parameter has two records.
-/
structure Summary.Measured (summary : Summary) (bits : UInt32) : Prop where
  params : (summary.accesses.map (·.param)).Nodup
  ranges : ∀ access ∈ summary.accesses, access.range.OfWidth bits
  straight : ∀ access ∈ summary.accesses, access.range.Straight
  offsets : ∀ access ∈ summary.accesses, ∀ call ∈ access.calls,
    call.offset.OfWidth bits ∧ ¬ call.offset.IsNone

theorem Summary.Measured.of_nil {summary : Summary} {bits : UInt32}
    (none : summary.accesses = [])
    : summary.Measured bits := by
  constructor <;> simp [none]

namespace Module

variable {unit : Module}

-----------------------------------------------------------------------------------------
-- Records
-----------------------------------------------------------------------------------------

/-- A recorded call names its callee by the identifier. -/
structure RecordsCall (unit : Module) (call : Forward Global) (recorded : AccessCall) : Prop where
  callee : unit.guidOf call.callee = .ok recorded.callee
  param : recorded.param = call.param
  offset : recorded.offset = call.offset

/-- A record says what is known about an address. -/
structure Records (unit : Module) (usage : Usage Global) (access : ParamAccess) : Prop where
  range : access.range = usage.range
  calls : List.Forall₂ unit.RecordsCall usage.calls access.calls

theorem accessCalls?_records {calls : List (Forward Global)} {recorded : List AccessCall}
    (result : unit.accessCalls? calls = .ok (some recorded))
    : List.Forall₂ unit.RecordsCall calls recorded := by
  induction calls generalizing recorded with
  | nil =>
      cases result
      exact .nil
  | cons call rest ih =>
      obtain ⟨first, head, result⟩ := exists_of_bind_eq_ok result
      cases first with
      | none => cases result
      | some first =>
          obtain ⟨later, tail, result⟩ := exists_of_bind_eq_ok result
          cases later with
          | none => cases result
          | some later =>
              cases result
              obtain ⟨full, _, head⟩ := exists_of_bind_eq_ok head
              split at head
              · cases head
              · obtain ⟨guid, named, head⟩ := exists_of_bind_eq_ok head
                cases head
                exact .cons ⟨named, rfl, rfl⟩ (ih tail)

theorem paramAccess?_records {param : UInt32 × Usage Global} {access : ParamAccess}
    (result : unit.paramAccess? param = .ok (some access))
    : access.param = param.1 ∧ unit.Records param.2 access := by
  obtain ⟨full, _, result⟩ := exists_of_bind_eq_ok result
  split at result
  · cases result
  · obtain ⟨calls, recorded, result⟩ := exists_of_bind_eq_ok result
    cases calls with
    | none => cases result
    | some calls =>
        cases result
        exact ⟨rfl, rfl, accessCalls?_records recorded⟩

/-- The records of a function are those of its parameters, at most one for each. -/
theorem paramAccesses_records {usages : FunctionUsage Global} {accesses : List ParamAccess}
    (result : unit.paramAccesses usages = .ok accesses)
    : (accesses.map (·.param)).Nodup
      ∧ ∀ access ∈ accesses, ∃ usage, usages.params.get? access.param = some usage
        ∧ unit.Records usage access := by
  constructor
  · exact usages.params.keys_nodup.sublist
      (filterMapM_sublist (fun _ _ step => (paramAccess?_records step).1) result)
  · intro access member
    obtain ⟨⟨param, usage⟩, inside, step⟩ := (mem_filterMapM result).mp member
    obtain ⟨same, records⟩ := paramAccess?_records step
    exact ⟨usage, same ▸ Table.get?_of_mem inside, records⟩

theorem accessCalls?_ok {calls : List (Forward Global)}
    (offsets : ∀ call ∈ calls, call.offset.WellFormed)
    (named : ∀ call ∈ calls, ∃ guid, unit.guidOf call.callee = .ok guid)
    : ∃ recorded, unit.accessCalls? calls = .ok recorded := by
  induction calls with
  | nil => exact ⟨some [], rfl⟩
  | cons call rest ih =>
      obtain ⟨later, tail⟩ := ih (fun other member => offsets other (List.mem_cons_of_mem _ member))
        fun other member => named other (List.mem_cons_of_mem _ member)
      obtain ⟨guid, name⟩ := named call List.mem_cons_self
      obtain ⟨first, head⟩ : ∃ first, unit.accessCall? call = .ok first := by
        simp only [accessCall?, (offsets call List.mem_cons_self).isFull_eq, ok_bind, name]
        split
        · exact ⟨none, rfl⟩
        · exact ⟨_, rfl⟩
      simp only [accessCalls?, head, ok_bind]
      cases first with
      | none => exact ⟨none, rfl⟩
      | some first => exact ⟨later.map (first :: ·), by simp only [tail, ok_bind, pure_eq_ok]⟩

/-- A function whose callees have names has records. -/
theorem paramAccesses_ok {usages : FunctionUsage Global} {bits : UInt32}
    (shaped : usages.Shaped bits)
    (named : ∀ entry ∈ usages.params.entries, ∀ call ∈ entry.2.calls,
      ∃ guid, unit.guidOf call.callee = .ok guid)
    : ∃ accesses, unit.paramAccesses usages = .ok accesses := by
  refine exists_filterMapM_eq_ok fun entry member => ?_
  have wf := (shaped.params entry member).1
  obtain ⟨calls, recorded⟩ :=
    accessCalls?_ok (fun call inside => (wf.offset call inside).wellFormed) (named entry member)
  simp only [paramAccess?, wf.range.wellFormed.isFull_eq, ok_bind, recorded]
  split
  · exact ⟨none, rfl⟩
  · exact ⟨_, rfl⟩

-----------------------------------------------------------------------------------------
-- Symbols
-----------------------------------------------------------------------------------------

/-- What is declared about a symbol of the module. -/
theorem attributes_of_mem {symbol : Global} (member : symbol ∈ unit.globals)
    : ∃ name linkage dsoLocal, unit.nameOf symbol = .ok name
      ∧ unit.linkageOf symbol = .ok linkage ∧ unit.isDsoLocal symbol = .ok dsoLocal := by
  simp only [globals, functionIds, aliasIds, List.map_map, List.mem_append, List.mem_map,
    List.mem_range, Function.comp_apply] at member
  rcases member with ⟨number, bound, rfl⟩ | ⟨number, bound, rfl⟩
  · have found : unit.function ⟨number⟩ = .ok unit.functions[number] := by
      simp only [function, List.getElem?_eq_getElem bound, pure_eq_ok]
    exact ⟨unit.functions[number].sig.name, unit.functions[number].sig.linkage,
      unit.functions[number].sig.dsoLocal, by
        simp only [nameOf, linkageOf, isDsoLocal, found, ok_bind, pure_eq_ok, and_self]⟩
  · have found : unit.aliasAt ⟨number⟩ = .ok unit.aliases[number] := by
      simp only [aliasAt, List.getElem?_eq_getElem bound, pure_eq_ok]
    exact ⟨unit.aliases[number].name, unit.aliases[number].linkage,
      unit.aliases[number].dsoLocal, by
        simp only [nameOf, linkageOf, isDsoLocal, found, ok_bind, pure_eq_ok, and_self]⟩

theorem mem_globals_of_linkageOf {symbol : Global} {linkage : Linkage}
    (linked : unit.linkageOf symbol = .ok linkage)
    : symbol ∈ unit.globals := by
  cases symbol with
  | function id =>
      obtain ⟨func, found, _⟩ := exists_of_bind_eq_ok linked
      exact mem_globals_of_function found
  | aliased id =>
      obtain ⟨link, found, _⟩ := exists_of_bind_eq_ok linked
      exact mem_globals_of_aliasAt found

theorem mem_globals_of_guidOf {symbol : Global} {guid : Guid}
    (named : unit.guidOf symbol = .ok guid)
    : symbol ∈ unit.globals := by
  obtain ⟨_, _, named⟩ := exists_of_bind_eq_ok named
  obtain ⟨_, linked, _⟩ := exists_of_bind_eq_ok named
  exact mem_globals_of_linkageOf linked

theorem exists_guid {symbol : Global} (member : symbol ∈ unit.globals)
    : ∃ guid, unit.guidOf symbol = .ok guid := by
  obtain ⟨name, linkage, _, named, linked, _⟩ := attributes_of_mem member
  exact ⟨_, by simp only [guidOf, named, linked, ok_bind]; rfl⟩

-----------------------------------------------------------------------------------------
-- Summaries
-----------------------------------------------------------------------------------------

/-- The summary says what the module declares about a symbol. -/
structure Describes (unit : Module) (symbol : Global) (summary : Summary) : Prop where
  guid : unit.guidOf symbol = .ok summary.guid
  owner : summary.unit = unit.name
  linkage : unit.linkageOf symbol = .ok summary.linkage
  live : summary.live = true
  dsoLocal : ∃ dsoLocal, unit.isDsoLocal symbol = .ok dsoLocal
    ∧ summary.dsoLocal = (dsoLocal && !summary.linkage.isInterposable)

theorem summaryOf_describes {symbol : Global} {kind : SummaryKind} {summary : Summary}
    (result : unit.summaryOf symbol kind = .ok summary)
    : unit.Describes symbol summary ∧ summary.kind = kind := by
  obtain ⟨linkage, linked, result⟩ := exists_of_bind_eq_ok result
  obtain ⟨guid, named, result⟩ := exists_of_bind_eq_ok result
  obtain ⟨dsoLocal, placed, result⟩ := exists_of_bind_eq_ok result
  cases result
  exact ⟨⟨named, rfl, linked, rfl, dsoLocal, placed, rfl⟩, rfl⟩

theorem summaryOf_ok {symbol : Global} (member : symbol ∈ unit.globals) (kind : SummaryKind)
    : ∃ summary, unit.summaryOf symbol kind = .ok summary := by
  obtain ⟨_, linkage, dsoLocal, _, linked, placed⟩ := attributes_of_mem member
  obtain ⟨guid, named⟩ := exists_guid member
  exact ⟨_, by simp only [summaryOf, linked, named, placed, ok_bind]; rfl⟩

/-- What the summary says decides whether a defined symbol is bound here. -/
theorem Describes.isBoundHere {symbol : Global} {summary : Summary}
    (describes : unit.Describes symbol summary) (defined : unit.isDeclaration symbol = .ok false)
    : unit.isBoundHere symbol = .ok summary.dsoLocal := by
  obtain ⟨dsoLocal, placed, same⟩ := describes.dsoLocal
  simp only [Module.isBoundHere, defined, describes.linkage, placed, ok_bind, pure_eq_ok, same,
    Bool.not_false, Bool.true_and, Bool.and_comm]

/-- The summary of a symbol: a function with a body, with its records when they are wanted, or an
alias of a symbol whose summary is known.
-/
inductive Summarizes (unit : Module) (withAccesses : Bool) (known : List (Global × SummaryId))
    : Global → Summary → Prop
  | function {id accesses summary}
    (describes : unit.Describes (.function id) summary)
    (kind : summary.kind = .function accesses)
    (defined : unit.isDeclaration (.function id) = .ok false)
    (recorded : withAccesses = true → ∃ usages, (unit.analyzeFunction id).result = .ok usages
      ∧ unit.paramAccesses usages = .ok accesses)
    (unrecorded : withAccesses = false → accesses = [])
    : unit.Summarizes withAccesses known (.function id) summary
  | aliased {id link aliasee summary}
    (describes : unit.Describes (.aliased id) summary)
    (kind : summary.kind = .aliased aliasee)
    (found : unit.aliasAt id = .ok link)
    (leads : (link.aliasee, aliasee) ∈ known)
    : unit.Summarizes withAccesses known (.aliased id) summary

variable {withAccesses : Bool} {known : List (Global × SummaryId)} {symbol : Global}
  {summary : Summary}

theorem Summarizes.describes (summarizes : unit.Summarizes withAccesses known symbol summary)
    : unit.Describes symbol summary := by
  cases summarizes with
  | function describes _ _ _ _ => exact describes
  | aliased describes _ _ _ => exact describes

theorem Summarizes.mono {later : List (Global × SummaryId)} (more : known ⊆ later)
    (summarizes : unit.Summarizes withAccesses known symbol summary)
    : unit.Summarizes withAccesses later symbol summary := by
  cases summarizes with
  | function describes kind defined recorded unrecorded =>
      exact .function describes kind defined recorded unrecorded
  | aliased describes kind found leads => exact .aliased describes kind found (more leads)

/-- The records of a function, with the results of the local analysis that they come from. -/
theorem Summarizes.exists_usages {id : FunctionId}
    (summarizes : unit.Summarizes true known (.function id) summary)
    : ∃ usages, (unit.analyzeFunction id).result = .ok usages
      ∧ unit.paramAccesses usages = .ok summary.accesses := by
  cases summarizes with
  | function _ kind _ recorded _ =>
      obtain ⟨usages, analyzed, recording⟩ := recorded rfl
      exact ⟨usages, analyzed, by rw [recording, Summary.accesses, kind]⟩

/-- The records of a module have its width. -/
theorem Summarizes.measured (summarizes : unit.Summarizes withAccesses known symbol summary)
    : summary.Measured unit.pointerWidth.bits := by
  cases summarizes with
  | aliased _ kind _ _ => exact .of_nil (by rw [Summary.accesses, kind])
  | function describes kind defined recorded unrecorded =>
      cases withAccesses with
      | false => exact .of_nil (by rw [Summary.accesses, kind]; exact unrecorded rfl)
      | true =>
          have function : unit.Summarizes true known _ summary :=
            .function describes kind defined recorded unrecorded
          obtain ⟨usages, analyzed, recording⟩ := function.exists_usages
          have shaped := analyzeFunction_shaped analyzed
          obtain ⟨distinct, records⟩ := paramAccesses_records recording
          have source (access : ParamAccess) (member : access ∈ summary.accesses)
              : ∃ usage : Usage Global, unit.Records usage access
                ∧ usage.WellFormed unit.pointerWidth.bits ∧ usage.range.Straight := by
            obtain ⟨usage, found, states⟩ := records access member
            exact ⟨usage, states, shaped.params _ (Table.mem_of_get? found)⟩
          refine ⟨distinct, fun access member => ?_, fun access member => ?_,
            fun access member call listed => ?_⟩
          · obtain ⟨usage, states, wf, _⟩ := source access member
            exact states.range ▸ wf.range
          · obtain ⟨usage, states, _, straight⟩ := source access member
            exact states.range ▸ straight
          · obtain ⟨usage, states, wf, _⟩ := source access member
            obtain ⟨forwarded, inside, same⟩ := exists_input states.calls listed
            exact ⟨same.offset ▸ wf.offset forwarded inside,
              same.offset ▸ wf.moved forwarded inside⟩

-----------------------------------------------------------------------------------------
-- Collections
-----------------------------------------------------------------------------------------

/-- What has been added to an index: the summaries that were there keep their numbers, and each of
the others belongs to one symbol of the module.
-/
structure Collects (unit : Module) (withAccesses : Bool) (index : SummaryIndex)
    (collection : Collection)
    : Prop where
  grows : index.summaries.length ≤ collection.index.summaries.length
  kept : ∀ number, number < index.summaries.length
    → collection.index.summaries[number]? = index.summaries[number]?
  made : ∀ symbol id, (symbol, id) ∈ collection.summarized → index.summaries.length ≤ id.index
    ∧ ∃ summary, collection.index.summaries[id.index]? = some summary
      ∧ unit.Summarizes withAccesses collection.summarized symbol summary
  named : ∀ number, index.summaries.length ≤ number → number < collection.index.summaries.length
    → ∃ symbol, (symbol, ⟨number⟩) ∈ collection.summarized
  symbols : (collection.summarized.map (·.1)).Nodup

variable {index : SummaryIndex} {collection : Collection}

theorem collects_nothing (index : SummaryIndex) : unit.Collects withAccesses index ⟨index, []⟩ :=
  ⟨Nat.le_refl _, fun _ _ => rfl, by simp, fun _ above below => by simp only at below; omega,
    List.nodup_nil⟩

/-- One more summary. -/
theorem Collects.add (collects : unit.Collects withAccesses index collection)
    (fresh : symbol ∉ collection.summarized.map (·.1))
    (summarizes : unit.Summarizes withAccesses collection.summarized symbol summary)
    : unit.Collects withAccesses index (collection.add symbol summary) := by
  have more : collection.summarized ⊆ (collection.add symbol summary).summarized :=
    List.subset_append_left _ _
  have old (number : Nat) (bound : number < collection.index.summaries.length)
      : (collection.add symbol summary).index.summaries[number]?
        = collection.index.summaries[number]? :=
    List.getElem?_append_left bound
  have new : (collection.add symbol summary).index.summaries[collection.index.summaries.length]?
      = some summary :=
    List.getElem?_concat_length
  have length : (collection.add symbol summary).index.summaries.length
      = collection.index.summaries.length + 1 :=
    List.length_append
  refine ⟨?_, ?_, ?_, ?_, ?_⟩
  · rw [length]
    exact Nat.le_succ_of_le collects.grows
  · intro number below
    rw [old number (Nat.lt_of_lt_of_le below collects.grows), collects.kept number below]
  · intro other id member
    rcases List.mem_append.mp member with earlier | last
    · obtain ⟨above, found, present, summarized⟩ := collects.made other id earlier
      refine ⟨above, found, ?_, summarized.mono more⟩
      rw [old _ (List.getElem?_eq_some_iff.mp present).1, present]
    · cases List.mem_singleton.mp last
      exact ⟨collects.grows, summary, new, summarizes.mono more⟩
  · intro number above below
    rw [length] at below
    rcases Nat.lt_succ_iff_lt_or_eq.mp below with earlier | rfl
    · obtain ⟨other, member⟩ := collects.named number above earlier
      exact ⟨other, more member⟩
    · exact ⟨symbol, List.mem_append_right _ (List.mem_singleton.mpr rfl)⟩
  · rw [Collection.add, List.map_append, List.nodup_append]
    exact ⟨collects.symbols, List.nodup_singleton _, by
      rintro other before _ last rfl
      cases List.mem_singleton.mp last
      exact fresh before⟩

/-- A summary was there before, or belongs to a symbol of the module. -/
theorem Collects.old_or_summarizes (collects : unit.Collects withAccesses index collection)
    {id : SummaryId} (found : collection.index.summaries[id.index]? = some summary)
    : index.summaries[id.index]? = some summary
      ∨ ∃ symbol, (symbol, id) ∈ collection.summarized
        ∧ unit.Summarizes withAccesses collection.summarized symbol summary := by
  rcases Nat.lt_or_ge id.index index.summaries.length with old | new
  · exact Or.inl ((collects.kept id.index old).symm.trans found)
  · obtain ⟨symbol, inside⟩ :=
      collects.named id.index new (List.getElem?_eq_some_iff.mp found).1
    obtain ⟨_, _, foundAgain, summarizes⟩ := collects.made symbol id inside
    cases found.symm.trans foundAgain
    exact Or.inr ⟨symbol, inside, summarizes⟩

/-- Aliases still lead to summaries. -/
theorem Collects.aliasesExist_of (collects : unit.Collects withAccesses index collection)
    (aliases : index.AliasesExist)
    : collection.index.AliasesExist := by
  intro summary member aliasee kind
  obtain ⟨number, found⟩ := List.mem_iff_getElem?.mp member
  have numbered : collection.index.summaries[(SummaryId.mk number).index]? = some summary := found
  rcases collects.old_or_summarizes numbered with old | ⟨_, _, summarizes⟩
  · exact Nat.lt_of_lt_of_le (aliases summary (List.mem_of_getElem? old) aliasee kind)
      collects.grows
  · cases summarizes with
    | function _ other _ _ _ => cases kind.symm.trans other
    | aliased _ other _ leads =>
        cases kind.symm.trans other
        obtain ⟨_, _, foundAliasee, _⟩ := collects.made _ _ leads
        exact (List.getElem?_eq_some_iff.mp foundAliasee).1

theorem Collection.symbols_add (collection : Collection) (symbol : Global) (summary : Summary)
    : (collection.add symbol summary).summarized.map (·.1)
      = collection.summarized.map (·.1) ++ [symbol] :=
  List.map_append

theorem Collection.not_mem_of_find? (absent : collection.find? symbol = none)
    : symbol ∉ collection.summarized.map (·.1) := by
  intro member
  obtain ⟨entry, inside, same⟩ := List.mem_map.mp member
  have differs := List.find?_eq_none.mp (Option.map_eq_none_iff.mp absent) entry inside
  exact differs (beq_iff_eq.mpr same)

/-- Summaries of further symbols enter a collection one after the other, an alias after the symbol
that it stands for.
-/
inductive Extends (unit : Module) (withAccesses : Bool) : Collection → Collection → Prop
  | refl {collection : Collection} : unit.Extends withAccesses collection collection
  | add {collection final : Collection} {symbol : Global} {summary : Summary}
    (fresh : symbol ∉ collection.summarized.map (·.1))
    (summarizes : unit.Summarizes withAccesses collection.summarized symbol summary)
    (later : unit.Extends withAccesses (collection.add symbol summary) final)
    : unit.Extends withAccesses collection final

theorem Extends.trans {next final : Collection}
    (first : unit.Extends withAccesses collection next)
    (second : unit.Extends withAccesses next final)
    : unit.Extends withAccesses collection final := by
  induction first with
  | refl => exact second
  | add fresh summarizes _ ih => exact .add fresh summarizes (ih second)

theorem Extends.subset {final : Collection} (extended : unit.Extends withAccesses collection final)
    : collection.summarized ⊆ final.summarized := by
  induction extended with
  | refl => exact List.Subset.refl _
  | add _ _ _ ih => exact List.Subset.trans (List.subset_append_left _ _) ih

theorem Collects.extended {final : Collection}
    (collects : unit.Collects withAccesses index collection)
    (extended : unit.Extends withAccesses collection final)
    : unit.Collects withAccesses index final := by
  induction extended with
  | refl => exact collects
  | add fresh summarizes _ ih => exact ih (collects.add fresh summarizes)

/-- A function is passed over, or gets its summary. -/
theorem collectFunction_spec {next : Collection} {id : FunctionId}
    (result : (unit.collectFunction withAccesses collection id).result = .ok next)
    : (unit.isDeclaration (.function id) = .ok true ∧ next = collection)
      ∨ ∃ summary, unit.Summarizes withAccesses collection.summarized (.function id) summary
        ∧ next = collection.add (.function id) summary := by
  simp only [collectFunction, Traced.result_bind, Traced.result_liftM] at result
  obtain ⟨declaration, declared, result⟩ := exists_of_bind_eq_ok result
  cases declaration with
  | true =>
      cases result
      exact Or.inl ⟨declared, rfl⟩
  | false =>
      refine Or.inr ?_
      simp only [Bool.false_eq_true, ↓reduceIte] at result
      cases withAccesses with
      | true =>
          simp only [↓reduceIte, Traced.result_bind, Traced.result_liftM] at result
          obtain ⟨usages, analyzed, result⟩ := exists_of_bind_eq_ok result
          obtain ⟨accesses, recorded, result⟩ := exists_of_bind_eq_ok result
          obtain ⟨summary, made, result⟩ := exists_of_bind_eq_ok result
          cases result
          obtain ⟨describes, kind⟩ := summaryOf_describes made
          exact ⟨summary, .function describes kind declared
            (fun _ => ⟨usages, analyzed, recorded⟩) (fun never => by cases never), rfl⟩
      | false =>
          simp only [Bool.false_eq_true, ↓reduceIte, Traced.result_bind, Traced.result_liftM,
            Traced.result_pure, ok_bind] at result
          obtain ⟨summary, made, result⟩ := exists_of_bind_eq_ok result
          cases result
          obtain ⟨describes, kind⟩ := summaryOf_describes made
          exact ⟨summary, .function describes kind declared (fun never => by cases never)
            (fun _ => rfl), rfl⟩

/-- Collecting functions, by induction on their numbers. -/
theorem foldlM_collectFunction_spec {ids : List FunctionId} (distinct : ids.Nodup)
    {final : Collection} (fresh : ∀ id ∈ ids, .function id ∉ collection.summarized.map (·.1))
    (result : (ids.foldlM (unit.collectFunction withAccesses) collection).result = .ok final)
    : unit.Extends withAccesses collection final
      ∧ (∀ symbol ∈ final.summarized.map (·.1), symbol ∈ collection.summarized.map (·.1)
        ∨ ∃ id, symbol = .function id)
      ∧ ∀ id ∈ ids, unit.isDeclaration (.function id) = .ok false
        → .function id ∈ final.summarized.map (·.1) := by
  induction ids generalizing collection with
  | nil =>
      cases result
      exact ⟨.refl, fun _ member => Or.inl member, by simp⟩
  | cons id rest ih =>
      rw [List.foldlM_cons, Traced.result_bind] at result
      obtain ⟨next, first, remaining⟩ := exists_of_bind_eq_ok result
      obtain ⟨absent, distinct⟩ := List.nodup_cons.mp distinct
      have freshHere := fresh id List.mem_cons_self
      have freshRest (other : FunctionId) (member : other ∈ rest) :=
        fresh other (List.mem_cons_of_mem _ member)
      rcases collectFunction_spec first with ⟨declared, rfl⟩ | ⟨summary, summarizes, rfl⟩
      · obtain ⟨extended, origin, all⟩ := ih distinct freshRest remaining
        refine ⟨extended, origin, fun other member defined => ?_⟩
        rcases List.mem_cons.mp member with rfl | later
        · cases declared.symm.trans defined
        · exact all other later defined
      · obtain ⟨extended, origin, all⟩ := ih distinct
          (fun other member => by
            rw [Collection.symbols_add, List.mem_append, List.mem_singleton, not_or]
            exact ⟨freshRest other member, fun same => absent (Global.function.inj same ▸ member)⟩)
          remaining
        refine ⟨.add freshHere summarizes extended, ?_, ?_⟩
        · intro symbol member
          rcases origin symbol member with before | function
          · rw [Collection.symbols_add, List.mem_append, List.mem_singleton] at before
            exact before.imp_right fun last => ⟨id, last⟩
          · exact Or.inr function
        · intro other member defined
          rcases List.mem_cons.mp member with rfl | later
          · refine List.map_subset _ extended.subset ?_
            rw [Collection.symbols_add]
            exact List.mem_append_right _ (List.mem_singleton.mpr rfl)
          · exact all other later defined

/-- One round over aliases, by induction on them. Those that leave the round have a summary now; if
none does, each of them waits for a symbol without a summary.
-/
theorem collectAliases_spec {pending later : List AliasId} (distinct : pending.Nodup)
    {next : Collection} (fresh : ∀ id ∈ pending, .aliased id ∉ collection.summarized.map (·.1))
    (result : unit.collectAliases pending collection = .ok (next, later))
    : unit.Extends withAccesses collection next
      ∧ later.Sublist pending
      ∧ (∀ symbol ∈ next.summarized.map (·.1), symbol ∈ collection.summarized.map (·.1)
        ∨ ∃ id ∈ pending, id ∉ later ∧ symbol = .aliased id)
      ∧ (∀ id ∈ pending, id ∉ later → .aliased id ∈ next.summarized.map (·.1))
      ∧ (later = pending → next = collection ∧ ∀ id ∈ pending, ∀ link,
        unit.aliasAt id = .ok link → link.aliasee ∉ collection.summarized.map (·.1)) := by
  induction pending generalizing collection next later with
  | nil =>
      cases result
      exact ⟨.refl, .slnil, fun _ member => Or.inl member, by simp, fun _ => ⟨rfl, by simp⟩⟩
  | cons id rest ih =>
      obtain ⟨link, found, result⟩ := exists_of_bind_eq_ok result
      obtain ⟨absent, distinct⟩ := List.nodup_cons.mp distinct
      have freshRest (other : AliasId) (member : other ∈ rest) :=
        fresh other (List.mem_cons_of_mem _ member)
      split at result
      · rename_i aliasee known
        obtain ⟨summary, made, remaining⟩ := exists_of_bind_eq_ok result
        obtain ⟨describes, kind⟩ := summaryOf_describes made
        have summarizes
            : unit.Summarizes withAccesses collection.summarized (.aliased id) summary :=
          .aliased describes kind found
            (mem_of_find?_key known)
        obtain ⟨extended, fewer, origin, settled, _⟩ := ih distinct
          (fun other member => by
            rw [Collection.symbols_add, List.mem_append, List.mem_singleton, not_or]
            exact ⟨freshRest other member, fun same => absent (Global.aliased.inj same ▸ member)⟩)
          remaining
        refine ⟨.add (fresh id List.mem_cons_self) summarizes extended, .cons _ fewer, ?_, ?_, ?_⟩
        · intro symbol member
          rcases origin symbol member with before | ⟨other, inside, left, same⟩
          · rw [Collection.symbols_add, List.mem_append, List.mem_singleton] at before
            exact before.imp_right fun last =>
              ⟨id, List.mem_cons_self, fun waiting => absent (fewer.subset waiting), last⟩
          · exact Or.inr ⟨other, List.mem_cons_of_mem _ inside, left, same⟩
        · intro other member left
          rcases List.mem_cons.mp member with rfl | inside
          · refine List.map_subset _ extended.subset ?_
            rw [Collection.symbols_add]
            exact List.mem_append_right _ (List.mem_singleton.mpr rfl)
          · exact settled other inside left
        · intro same
          exact absurd (fewer.subset (same ▸ List.mem_cons_self)) absent
      · rename_i unknown
        obtain ⟨⟨rounded, waiting⟩, remaining, result⟩ := exists_of_bind_eq_ok result
        cases result
        obtain ⟨extended, fewer, origin, settled, stuck⟩ := ih distinct freshRest remaining
        refine ⟨extended, .cons_cons _ fewer, ?_, ?_, ?_⟩
        · intro symbol member
          refine (origin symbol member).imp_right ?_
          rintro ⟨other, inside, left, same⟩
          refine ⟨other, List.mem_cons_of_mem _ inside, ?_, same⟩
          rw [List.mem_cons, not_or]
          exact ⟨fun equal => absent (equal ▸ inside), left⟩
        · intro other member left
          obtain ⟨differs, left⟩ := not_or.mp (mt List.mem_cons.mpr left)
          exact settled other ((List.mem_cons.mp member).resolve_left differs) left
        · intro same
          obtain ⟨unchanged, none⟩ := stuck (List.cons.inj same).2
          refine ⟨unchanged, fun other member otherLink foundOther => ?_⟩
          rcases List.mem_cons.mp member with rfl | inside
          · cases found.symm.trans foundOther
            exact Collection.not_mem_of_find? unknown
          · exact none other inside otherLink foundOther

/-- Rounds over aliases, by induction on the aliases that wait: in the end an alias has a summary if
the symbol that it stands for has one.
-/
theorem settleAliases_spec {pending : List AliasId} (distinct : pending.Nodup)
    {final : Collection} (fresh : ∀ id ∈ pending, .aliased id ∉ collection.summarized.map (·.1))
    (result : unit.settleAliases pending collection = .ok final)
    : unit.Extends withAccesses collection final
      ∧ ∀ id ∈ pending, ∀ link, unit.aliasAt id = .ok link
        → link.aliasee ∈ final.summarized.map (·.1) → .aliased id ∈ final.summarized.map (·.1) := by
  induction size : pending.length using Nat.strongRecOn generalizing pending collection with
  | ind _ ih =>
      rw [settleAliases] at result
      obtain ⟨⟨next, later⟩, round, remaining⟩ := exists_of_bind_eq_ok result
      obtain ⟨extended, fewer, origin, settled, stuck⟩ := collectAliases_spec distinct fresh round
      simp only at remaining
      split at remaining
      · rename_i shorter
        have freshLater (id : AliasId) (waiting : id ∈ later)
            : .aliased id ∉ next.summarized.map (·.1) := by
          intro member
          rcases origin _ member with before | ⟨other, _, left, same⟩
          · exact fresh id (fewer.subset waiting) before
          · cases same
            exact left waiting
        obtain ⟨extendedFinal, complete⟩ := ih _ (size ▸ shorter) (distinct.sublist fewer)
          freshLater remaining rfl
        refine ⟨extended.trans extendedFinal, fun id member link found known => ?_⟩
        by_cases waiting : id ∈ later
        · exact complete id waiting link found known
        · exact List.map_subset _ extendedFinal.subset (settled id member waiting)
      · rename_i longer
        cases remaining
        obtain ⟨unchanged, none⟩ := stuck (fewer.eq_of_length_le (Nat.not_lt.mp longer))
        exact ⟨extended, fun id member link found known =>
          absurd (unchanged ▸ known) (none id member link found)⟩

/-- A module adds summaries of its own symbols to an index, one after the other. Among them are all
functions with a body and all aliases of symbols with a summary.
-/
theorem summarize_extends {config : Config} {collected : SummaryIndex}
    (result : (unit.summarize config index).result = .ok collected)
    : ∃ collection, unit.Extends (unit.needsAccesses config) ⟨index, []⟩ collection
      ∧ collection.index = collected
      ∧ (∀ id, unit.isDeclaration (.function id) = .ok false
        → .function id ∈ collection.summarized.map (·.1))
      ∧ ∀ id link, unit.aliasAt id = .ok link → link.aliasee ∈ collection.summarized.map (·.1)
        → .aliased id ∈ collection.summarized.map (·.1) := by
  simp only [summarize, Traced.result_bind, Traced.result_liftM, Traced.result_emit,
    Traced.result_pure, ok_bind] at result
  obtain ⟨functions, first, result⟩ := exists_of_bind_eq_ok result
  obtain ⟨collection, second, result⟩ := exists_of_bind_eq_ok result
  cases result
  obtain ⟨extended, origin, all⟩ := foldlM_collectFunction_spec
    (List.nodup_range.map fun _ _ same => FunctionId.mk.inj same) (by simp) first
  obtain ⟨extendedAll, settled⟩ := settleAliases_spec
    (List.nodup_range.map fun _ _ same => AliasId.mk.inj same)
    (fun id _ member => by
      rcases origin _ member with nothing | ⟨_, same⟩
      · simp at nothing
      · cases same)
    second
  refine ⟨collection, extended.trans extendedAll, rfl, fun id defined => ?_,
    fun id link found => ?_⟩
  · obtain ⟨func, found, _⟩ := exists_of_bind_eq_ok defined
    exact List.map_subset _ extendedAll.subset
      (all id (mem_functionIds found) defined)
  · exact settled id (mem_aliasIds found) link found

/-- What has been added to an index holds all functions with a body. -/
theorem summarize_spec {config : Config} {collected : SummaryIndex}
    (result : (unit.summarize config index).result = .ok collected)
    : ∃ collection, unit.Collects (unit.needsAccesses config) index collection
      ∧ collection.index = collected
      ∧ ∀ id ∈ unit.functionIds, unit.isDeclaration (.function id) = .ok false
        → .function id ∈ collection.summarized.map (·.1) := by
  obtain ⟨collection, extended, same, functions, _⟩ := summarize_extends result
  exact ⟨collection, (collects_nothing index).extended extended, same, fun id _ => functions id⟩

-----------------------------------------------------------------------------------------
-- Answers
-----------------------------------------------------------------------------------------

/-- A function with records gets its summary. -/
theorem collectFunction_of_records {id : FunctionId} {usages : FunctionUsage Global}
    {accesses : List ParamAccess} {summary : Summary}
    (defined : unit.isDeclaration (.function id) = .ok false)
    (analyzed : (unit.analyzeFunction id).result = .ok usages)
    (recorded : unit.paramAccesses usages = .ok accesses)
    (made : unit.summaryOf (.function id) (.function accesses) = .ok summary)
    (collection : Collection)
    : (unit.collectFunction true collection id).result
      = .ok (collection.add (.function id) summary) := by
  simp only [collectFunction, defined, Bool.false_eq_true, ↓reduceIte, Traced.result_bind,
    Traced.result_liftM, Traced.result_pure, Traced.result_ofResult, analyzed, recorded, made,
    ok_bind]

theorem collectFunction_ok {id : FunctionId} (member : .function id ∈ unit.globals)
    (recorded : withAccesses = true → unit.isDeclaration (.function id) = .ok false
      → ∃ usages accesses, (unit.analyzeFunction id).result = .ok usages
        ∧ unit.paramAccesses usages = .ok accesses)
    (collection : Collection)
    : ∃ next, (unit.collectFunction withAccesses collection id).result = .ok next := by
  have summary (accesses : List ParamAccess) := summaryOf_ok member (.function accesses)
  obtain ⟨declaration, declared⟩ : ∃ declaration,
      unit.isDeclaration (.function id) = .ok declaration := by
    obtain ⟨_, _, _, named, _⟩ := attributes_of_mem member
    obtain ⟨func, found, _⟩ := exists_of_bind_eq_ok named
    exact ⟨func.isDeclaration, by simp only [isDeclaration, found, ok_bind, pure_eq_ok]⟩
  cases declaration with
  | true => exact ⟨collection, by simp [collectFunction, Traced.result_bind, declared]⟩
  | false =>
      cases withAccesses with
      | true =>
          obtain ⟨usages, accesses, analyzed, recording⟩ := recorded rfl declared
          obtain ⟨summary, made⟩ := summary accesses
          exact ⟨_, collectFunction_of_records declared analyzed recording made collection⟩
      | false =>
          obtain ⟨summary, made⟩ := summary []
          exact ⟨collection.add (.function id) summary, by
            simp only [collectFunction, declared, Bool.false_eq_true, ↓reduceIte,
              Traced.result_bind, Traced.result_liftM, Traced.result_pure, made, ok_bind]⟩

theorem collectAliases_ok {pending : List AliasId}
    (members : ∀ id ∈ pending, .aliased id ∈ unit.globals) (collection : Collection)
    : ∃ next later, unit.collectAliases pending collection = .ok (next, later)
      ∧ later ⊆ pending := by
  induction pending generalizing collection with
  | nil => exact ⟨collection, [], rfl, List.Subset.refl _⟩
  | cons id rest ih =>
      have member := members id List.mem_cons_self
      have remaining := ih fun other inside => members other (List.mem_cons_of_mem _ inside)
      obtain ⟨link, found⟩ : ∃ link, unit.aliasAt id = .ok link := by
        obtain ⟨_, _, _, named, _⟩ := attributes_of_mem member
        obtain ⟨link, found, _⟩ := exists_of_bind_eq_ok named
        exact ⟨link, found⟩
      simp only [collectAliases, found, ok_bind]
      cases collection.find? link.aliasee with
      | some aliasee =>
          obtain ⟨summary, made⟩ := summaryOf_ok member (.aliased aliasee)
          obtain ⟨next, later, answered, fewer⟩ := remaining (collection.add (.aliased id) summary)
          exact ⟨next, later, by simp only [made, ok_bind, answered],
            List.subset_cons_of_subset _ fewer⟩
      | none =>
          obtain ⟨next, later, answered, fewer⟩ := remaining collection
          exact ⟨next, id :: later, by simp only [answered, ok_bind, pure_eq_ok],
            List.cons_subset_cons _ fewer⟩

theorem settleAliases_ok {pending : List AliasId}
    (members : ∀ id ∈ pending, .aliased id ∈ unit.globals) (collection : Collection)
    : ∃ final, unit.settleAliases pending collection = .ok final := by
  induction size : pending.length using Nat.strongRecOn generalizing pending collection with
  | ind _ ih =>
      obtain ⟨next, later, round, fewer⟩ := collectAliases_ok members collection
      rw [settleAliases, round, ok_bind]
      simp only
      split
      · rename_i shorter
        exact ih _ (size ▸ shorter) (fun id waiting => members id (fewer waiting)) next rfl
      · exact ⟨next, rfl⟩

theorem settleAliases_nil (unit : Module) (collection : Collection)
    : unit.settleAliases [] collection = .ok collection := by
  rw [settleAliases]
  rfl

/-- The stages of collecting lead to the index. -/
theorem result_summarize {config : Config} {functions final : Collection}
    (first : (unit.functionIds.foldlM (unit.collectFunction (unit.needsAccesses config))
      ⟨index, []⟩).result = .ok functions)
    (second : unit.settleAliases unit.aliasIds functions = .ok final)
    : (unit.summarize config index).result = .ok final.index := by
  simp only [summarize, Traced.result_bind, Traced.result_liftM, Traced.result_emit,
    Traced.result_pure, first, second, ok_bind]

/-- A function with a body is analysed, and recorded as a summary. -/
def RecordsAs (unit : Module) (id : FunctionId) (summary : Summary) : Prop :=
  unit.isDeclaration (.function id) = .ok false
    ∧ ∃ usages accesses, (unit.analyzeFunction id).result = .ok usages
      ∧ unit.paramAccesses usages = .ok accesses
      ∧ unit.summaryOf (.function id) (.function accesses) = .ok summary

theorem exists_usages_of_records {summaries : List Summary}
    (records : List.Forall₂ unit.RecordsAs unit.functionIds summaries) (id : FunctionId)
    (defined : unit.isDeclaration (.function id) = .ok false)
    : ∃ usages, (unit.analyzeFunction id).result = .ok usages := by
  obtain ⟨func, found, _⟩ := exists_of_bind_eq_ok defined
  obtain ⟨_, _, _, usages, _, analyzed, _⟩ := exists_answer records (mem_functionIds found)
  exact ⟨usages, analyzed⟩

/-- A module without aliases adds the summaries that its functions are recorded as; by induction on
the functions.
-/
theorem summarize_of_records {config : Config} {summaries : List Summary}
    (needed : unit.needsAccesses config = true) (none : unit.aliases = [])
    (records : List.Forall₂ unit.RecordsAs unit.functionIds summaries) (index : SummaryIndex)
    : (unit.summarize config index).result = .ok ⟨index.summaries ++ summaries⟩ := by
  have collect {ids : List FunctionId} {summaries : List Summary}
      (records : List.Forall₂ unit.RecordsAs ids summaries) (collection : Collection)
      : ∃ final, (ids.foldlM (unit.collectFunction true) collection).result = .ok final
        ∧ final.index = ⟨collection.index.summaries ++ summaries⟩ := by
    induction records generalizing collection with
    | nil => exact ⟨collection, rfl, by rw [List.append_nil]⟩
    | @cons id summary rest others first _ ih =>
        obtain ⟨defined, _, _, analyzed, recorded, made⟩ := first
        obtain ⟨final, folded, same⟩ := ih (collection.add (.function id) summary)
        refine ⟨final, ?_, ?_⟩
        · rw [List.foldlM_cons, Traced.result_bind,
            collectFunction_of_records defined analyzed recorded made, ok_bind, folded]
        · rw [same, List.append_cons]
          rfl
  obtain ⟨final, folded, same⟩ := collect records ⟨index, []⟩
  have settled : unit.settleAliases unit.aliasIds final = .ok final := by
    rw [aliasIds, none]
    exact settleAliases_nil unit final
  rw [result_summarize (needed.symm ▸ folded) settled, same]

/-- Where records are wanted, the functions with a body can be analysed and have records. -/
def Recordable (unit : Module) (config : Config) : Prop :=
  unit.needsAccesses config = true → ∀ id, unit.isDeclaration (.function id) = .ok false
    → ∃ usages accesses, (unit.analyzeFunction id).result = .ok usages
      ∧ unit.paramAccesses usages = .ok accesses

/-- A module whose functions have records can be collected. -/
theorem summarize_ok (config : Config) (index : SummaryIndex)
    (recordable : unit.Recordable config)
    : ∃ collected, (unit.summarize config index).result = .ok collected := by
  have functions (ids : List FunctionId) (members : ∀ id ∈ ids, .function id ∈ unit.globals)
      (collection : Collection)
      : ∃ final, (ids.foldlM (unit.collectFunction (unit.needsAccesses config))
        collection).result = .ok final := by
    induction ids generalizing collection with
    | nil => exact ⟨collection, rfl⟩
    | cons id rest ih =>
        obtain ⟨next, first⟩ :=
          collectFunction_ok (members id List.mem_cons_self) (fun wanted => recordable wanted id)
            collection
        obtain ⟨final, later⟩ :=
          ih (fun other inside => members other (List.mem_cons_of_mem _ inside)) next
        exact ⟨final, by rw [List.foldlM_cons, Traced.result_bind, first, ok_bind, later]⟩
  obtain ⟨collection, first⟩ := functions unit.functionIds
    (fun id inside => List.mem_append_left _ (List.mem_map_of_mem inside)) ⟨index, []⟩
  have aliases : ∀ id ∈ unit.aliasIds, .aliased id ∈ unit.globals :=
    fun id inside => List.mem_append_right _ (List.mem_map_of_mem inside)
  obtain ⟨final, second⟩ := settleAliases_ok aliases collection
  exact ⟨final.index, result_summarize first second⟩

end Module

end StackBounds
