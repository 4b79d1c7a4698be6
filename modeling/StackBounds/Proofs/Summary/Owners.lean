import StackBounds.Proofs.Summary.Programs
import StackBounds.Proofs.Summary.Symbols

/-! The owners of summaries. When modules are added to an index one after the other, each symbol
that stands for a function with a body owns one summary, which says what its module says about it.
So the order of the modules decides the numbers of the summaries only.
-/

namespace StackBounds

namespace Module

variable {unit : Module} {collection : Collection}

/-- Modules can be added exactly if each of them can be, in whatever order. -/
theorem summarizeAll_ok_iff {units : List Module} {config : Config} {index : SummaryIndex}
    : (∃ final, (summarizeAll units config index).result = .ok final)
      ↔ ∀ unit ∈ units, unit.Recordable config := by
  induction units generalizing index with
  | nil => exact iff_of_true ⟨index, rfl⟩ (by simp)
  | cons unit rest ih =>
      rw [List.forall_mem_cons]
      simp only [summarizeAll, List.foldlM_cons, Traced.result_bind]
      constructor
      · intro answered
        obtain ⟨final, folded⟩ := answered
        obtain ⟨next, summarized, remaining⟩ := exists_of_bind_eq_ok folded
        exact ⟨recordable_of_summarize summarized, ih.mp ⟨final, remaining⟩⟩
      · intro recordable
        obtain ⟨next, summarized⟩ := summarize_ok config index recordable.1
        rw [summarized]
        exact ih.mpr recordable.2

/-- The owners of the summaries that a module has added, in their order. -/
def Collection.owners (collection : Collection) (unit : Module) : List (Module × Global) :=
  collection.summarized.map fun entry => (unit, entry.1)

theorem Ordered.mem_owners_iff {start : Nat} {owner : Module} {symbol : Global}
    (ordered : unit.Ordered start collection)
    (all : ∀ symbol func, unit.StandsFor symbol func
      → symbol ∈ collection.summarized.map (·.1))
    : (owner, symbol) ∈ collection.owners unit
      ↔ owner = unit ∧ ∃ func, unit.StandsFor symbol func := by
  rw [Collection.owners, List.mem_map]
  constructor
  · intro member
    obtain ⟨entry, inside, same⟩ := member
    cases same
    exact ⟨rfl, ordered.standing entry.1 (List.mem_map_of_mem inside)⟩
  · intro member
    obtain ⟨rfl, func, stands⟩ := member
    obtain ⟨entry, inside, same⟩ := List.mem_map.mp (all symbol func stands)
    exact ⟨entry, inside, by rw [same]⟩

/-- The new owners come after the old ones, as the new summaries do. -/
theorem Ordered.getElem?_owners {before : List (Module × Global)} {entry : Global × SummaryId}
    (ordered : unit.Ordered before.length collection) (inside : entry ∈ collection.summarized)
    : (before ++ collection.owners unit)[entry.2.index]? = some (unit, entry.1) := by
  obtain ⟨number, found⟩ := List.mem_iff_getElem?.mp inside
  rw [ordered.number_eq found, List.getElem?_append_right (Nat.le_add_right _ _),
    Nat.add_sub_cancel_left, Collection.owners, List.getElem?_map, found, Option.map_some]

end Module

namespace SummaryIndex

/-- Who owns the summaries that modules have left in an index: for each summary, in their order, the
module and its symbol.
-/
structure Assembled (index : SummaryIndex) (config : Config) (units : List Module)
    (owners : List (Module × Global))
    : Prop where
  length : owners.length = index.summaries.length
  distinct : owners.Nodup
  listed : ∀ unit symbol, (unit, symbol) ∈ owners
    ↔ unit ∈ units ∧ ∃ func, unit.StandsFor symbol func
  owned : ∀ (id : SummaryId) unit symbol, owners[id.index]? = some (unit, symbol)
    → ∃ summary known, index.summaries[id.index]? = some summary
      ∧ unit.Summarizes (unit.needsAccesses config) known symbol summary
      ∧ ∀ entry ∈ known, owners[entry.2.index]? = some (unit, entry.1)
  descends : index.Descends 0

variable {index : SummaryIndex} {config : Config} {units : List Module}
  {owners : List (Module × Global)}

theorem assembled_empty (config : Config) : SummaryIndex.empty.Assembled config [] [] where
  length := rfl
  distinct := List.nodup_nil
  listed _ _ := by simp
  owned _ _ _ found := by simp at found
  descends _ _ _ _ found := by simp [SummaryIndex.empty] at found

/-- One more module. -/
theorem Assembled.add {next : SummaryIndex} {unit : Module}
    (assembled : index.Assembled config units owners) (new : unit ∉ units)
    (summarized : (unit.summarize config index).result = .ok next)
    : ∃ more, next.Assembled config (units ++ [unit]) (owners ++ more) := by
  obtain ⟨collection, rfl, collects, ordered, all⟩ := Module.summarize_ordered summarized
  have descends := ordered.descends
  rw [← assembled.length] at ordered
  refine ⟨collection.owners unit, ?_, ?_, ?_, ?_, ?_⟩
  · rw [List.length_append, ordered.length, Module.Collection.owners, List.length_map]
  · refine List.nodup_append.mpr ⟨assembled.distinct, ?_, ?_⟩
    · refine List.Nodup.of_map Prod.snd ?_
      rw [Module.Collection.owners, List.map_map]
      exact collects.symbols
    · intro owner before other last same
      subst same
      have own := (ordered.mem_owners_iff all).mp last
      exact new (own.1 ▸ ((assembled.listed _ _).mp before).1)
  · intro owner symbol
    rw [List.mem_append, ordered.mem_owners_iff all, assembled.listed, List.mem_append,
      List.mem_singleton, or_and_right]
    refine or_congr Iff.rfl (and_congr_right ?_)
    intro same
    rw [same]
  · intro id owner symbol found
    rcases Nat.lt_or_ge id.index owners.length with old | later
    · rw [List.getElem?_append_left old] at found
      obtain ⟨summary, known, present, summarizes, named⟩ := assembled.owned id owner symbol found
      refine ⟨summary, known, ?_, summarizes, fun entry inside => ?_⟩
      · rw [collects.kept id.index (assembled.length ▸ old), present]
      · have before := named entry inside
        rw [List.getElem?_append_left (List.getElem?_eq_some_iff.mp before).1, before]
    · rw [List.getElem?_append_right later, Module.Collection.owners, List.getElem?_map,
        Option.map_eq_some_iff] at found
      obtain ⟨entry, inside, same⟩ := found
      cases same
      have number := ordered.number_eq inside
      rw [Nat.add_sub_cancel' later] at number
      obtain ⟨_, summary, present, summarizes⟩ :=
        collects.made entry.1 entry.2 (List.mem_of_getElem? inside)
      exact ⟨summary, collection.summarized, number ▸ present, summarizes,
        fun _ member => ordered.getElem?_owners member⟩
  · intro id summary aliasee _ found kind
    rcases Nat.lt_or_ge id.index index.summaries.length with old | later
    · rw [collects.kept id.index old] at found
      exact assembled.descends id summary aliasee (Nat.zero_le _) found kind
    · exact ⟨Nat.zero_le _, (descends id summary aliasee later found kind).2⟩

/-- All modules, by induction on those that are still to be added. -/
theorem Assembled.addAll {rest : List Module} {final : SummaryIndex}
    (assembled : index.Assembled config units owners) (distinct : (units ++ rest).Nodup)
    (summarized : (Module.summarizeAll rest config index).result = .ok final)
    : ∃ owners, final.Assembled config (units ++ rest) owners := by
  induction rest generalizing index units owners with
  | nil =>
      cases summarized
      exact ⟨owners, (List.append_nil units).symm ▸ assembled⟩
  | cons unit rest ih =>
      rw [Module.summarizeAll, List.foldlM_cons, Traced.result_bind] at summarized
      obtain ⟨next, first, remaining⟩ := exists_of_bind_eq_ok summarized
      have new : unit ∉ units := by
        intro member
        exact (List.nodup_append.mp distinct).2.2 unit member unit List.mem_cons_self rfl
      obtain ⟨more, extended⟩ := assembled.add new first
      rw [List.append_cons] at distinct ⊢
      exact ih extended distinct remaining

theorem exists_assembled (distinct : units.Nodup)
    (summarized : (Module.summarizeAll units config .empty).result = .ok index)
    : ∃ owners, index.Assembled config units owners :=
  (assembled_empty config).addAll distinct summarized

namespace Assembled

variable (assembled : index.Assembled config units owners)

include assembled

theorem number_eq {id second : SummaryId} {owner : Module × Global}
    (found : owners[id.index]? = some owner) (again : owners[second.index]? = some owner)
    : id = second := by
  have bound := (List.getElem?_eq_some_iff.mp found).1
  have number := (List.getElem?_inj bound assembled.distinct).mp (found.trans again.symm)
  exact congrArg SummaryId.mk number

theorem exists_owner {id : SummaryId} {summary : Summary}
    (found : index.summaries[id.index]? = some summary)
    : ∃ unit symbol known, owners[id.index]? = some (unit, symbol) ∧ unit ∈ units
      ∧ unit.Summarizes (unit.needsAccesses config) known symbol summary := by
  have bound : id.index < owners.length :=
    assembled.length ▸ (List.getElem?_eq_some_iff.mp found).1
  have owner : owners[id.index]? = some owners[id.index] := List.getElem?_eq_getElem bound
  obtain ⟨_, known, present, summarizes, _⟩ := assembled.owned id _ _ owner
  cases found.symm.trans present
  exact ⟨_, _, known, owner, ((assembled.listed _ _).mp (List.getElem_mem bound)).1, summarizes⟩

theorem summarizes_of_mem {summary : Summary} (member : summary ∈ index.summaries)
    : ∃ unit symbol known, unit ∈ units
      ∧ unit.Summarizes (unit.needsAccesses config) known symbol summary := by
  obtain ⟨number, found⟩ := List.mem_iff_getElem?.mp member
  have numbered : index.summaries[(SummaryId.mk number).index]? = some summary := found
  obtain ⟨unit, symbol, known, _, listed, summarizes⟩ := assembled.exists_owner numbered
  exact ⟨unit, symbol, known, listed, summarizes⟩

theorem aliasesExist : index.AliasesExist := by
  intro summary member aliasee kind
  obtain ⟨number, found⟩ := List.mem_iff_getElem?.mp member
  have below := (assembled.descends ⟨number⟩ summary aliasee (Nat.zero_le _) found kind).2
  exact Nat.lt_trans below (List.getElem?_eq_some_iff.mp found).1

end Assembled

end SummaryIndex

end StackBounds
