import StackBounds.Proofs.Local.Totality
import StackBounds.Proofs.Safety
import StackBounds.Proofs.Summary.Following
import StackBounds.Proofs.Summary.Linking

/-! The symbols of a module and their summaries. A symbol gets a summary exactly if it stands
for a function with a body, and the summary resolves to that of the function that a call to the
symbol runs.
-/

namespace StackBounds.Module

open Relation (ReflTransGen)

/-- A symbol stands for a function with a body: it is one, or the chain of aliases from it ends at
one.
-/
inductive StandsFor (unit : Module) : Global → FunctionId → Prop
  | here {func} (defined : unit.isDeclaration (.function func) = .ok false)
    : unit.StandsFor (.function func) func
  | through {id link func} (found : unit.aliasAt id = .ok link)
    (later : unit.StandsFor link.aliasee func)
    : unit.StandsFor (.aliased id) func

variable {unit : Module} {withAccesses : Bool} {index : SummaryIndex} {collection : Collection}
  {symbol : Global} {func : FunctionId}

-----------------------------------------------------------------------------------------
-- Chains of aliases
-----------------------------------------------------------------------------------------

theorem Leads.standsFor (leads : unit.Leads symbol func) : unit.StandsFor symbol func := by
  obtain ⟨chain, bound⟩ := leads
  induction chain using ReflTransGen.head_induction_on with
  | refl => exact .here (bound _ .refl).defined
  | head step _ later =>
      have rest := later fun passed chain => bound passed (.head step chain)
      cases step with
      | intro found => exact .through found rest

theorem Leads.end_standsFor (leads : unit.Leads symbol func)
    : unit.StandsFor (.function func) func :=
  .here (leads.bound _ leads.chain).defined

-----------------------------------------------------------------------------------------
-- Summaries in their order
-----------------------------------------------------------------------------------------

/-- What the order of the summaries says: they are numbered one after the other, aliases lead to
earlier summaries that were added too, and every symbol stands for a function with a body.
-/
structure Ordered (unit : Module) (start : Nat) (collection : Collection) : Prop where
  numbers : collection.summarized.map (·.2.index)
    = List.range' start collection.summarized.length
  length : collection.index.summaries.length = start + collection.summarized.length
  descends : collection.index.Descends start
  standing : ∀ symbol ∈ collection.summarized.map (·.1), ∃ func, unit.StandsFor symbol func

theorem ordered_nothing (unit : Module) (index : SummaryIndex)
    : unit.Ordered index.summaries.length ⟨index, []⟩ := by
  refine ⟨rfl, rfl, fun id summary aliasee above found => ?_, by simp⟩
  exact absurd (List.getElem?_eq_some_iff.mp found).1 (Nat.not_lt.mpr above)

/-- One more summary. -/
theorem Ordered.add {summary : Summary}
    (ordered : unit.Ordered index.summaries.length collection)
    (collects : unit.Collects withAccesses index collection)
    (summarizes : unit.Summarizes withAccesses collection.summarized symbol summary)
    : unit.Ordered index.summaries.length (collection.add symbol summary) := by
  have below {other : Global} {id : SummaryId} (inside : (other, id) ∈ collection.summarized)
      : index.summaries.length ≤ id.index ∧ id.index < collection.index.summaries.length := by
    obtain ⟨above, _, found, _⟩ := collects.made other id inside
    exact ⟨above, (List.getElem?_eq_some_iff.mp found).1⟩
  refine ⟨?_, ?_, ?_, ?_⟩
  · simp only [Collection.add, SummaryIndex.insert, List.map_append, List.map_cons, List.map_nil,
      List.length_append, List.length_singleton, ordered.numbers, ordered.length,
      List.range'_concat, Nat.one_mul]
  · simp only [Collection.add, SummaryIndex.insert, List.length_append, List.length_singleton,
      ordered.length, Nat.add_assoc]
  · intro id found aliasee above present kind
    rcases Nat.lt_or_ge id.index collection.index.summaries.length with old | new
    · refine ordered.descends id found aliasee above ?_ kind
      rwa [Collection.add, SummaryIndex.insert, List.getElem?_append_left old] at present
    · rw [Collection.add, SummaryIndex.insert, List.getElem?_append_right new,
        List.getElem?_singleton] at present
      split at present
      · cases present
        cases summarizes with
        | function _ other _ _ _ => cases kind.symm.trans other
        | aliased _ other _ leads =>
            cases kind.symm.trans other
            have bounds := below leads
            omega
      · cases present
  · intro other member
    rw [Collection.symbols_add, List.mem_append, List.mem_singleton] at member
    rcases member with before | rfl
    · exact ordered.standing other before
    · cases summarizes with
      | function _ _ defined _ _ => exact ⟨_, .here defined⟩
      | aliased _ _ found leads =>
          obtain ⟨func, later⟩ := ordered.standing _ (List.mem_map_of_mem leads)
          exact ⟨func, .through found later⟩

theorem Ordered.extended {final : Collection}
    (ordered : unit.Ordered index.summaries.length collection)
    (collects : unit.Collects withAccesses index collection)
    (extended : unit.Extends withAccesses collection final)
    : unit.Ordered index.summaries.length final := by
  induction extended with
  | refl => exact ordered
  | add fresh summarizes _ ih =>
      exact ih (ordered.add collects summarizes) (collects.add fresh summarizes)

theorem Ordered.number_eq {start number : Nat} {entry : Global × SummaryId}
    (ordered : unit.Ordered start collection)
    (inside : collection.summarized[number]? = some entry)
    : entry.2.index = start + number := by
  have numbered := congrArg (·[number]?) ordered.numbers
  have bound := (List.getElem?_eq_some_iff.mp inside).1
  simpa only [List.getElem?_map, inside, Option.map_some, List.getElem?_range' bound, Nat.one_mul,
    Option.some.injEq] using numbered

theorem Ordered.nodup {start : Nat} (ordered : unit.Ordered start collection)
    : (collection.summarized.map (·.2)).Nodup := by
  refine List.Nodup.of_map SummaryId.index ?_
  rw [List.map_map]
  exact (ordered.numbers.symm ▸ List.nodup_range' : (collection.summarized.map (·.2.index)).Nodup)

theorem Ordered.symbol_eq {start : Nat} {other : Global} {id : SummaryId}
    (ordered : unit.Ordered start collection) (inside : (symbol, id) ∈ collection.summarized)
    (again : (other, id) ∈ collection.summarized)
    : symbol = other := by
  have same := List.inj_on_of_nodup_map ordered.nodup inside again rfl
  exact congrArg Prod.fst same

-----------------------------------------------------------------------------------------
-- Resolution
-----------------------------------------------------------------------------------------

/-- A chain in the module is followed in the index; by induction on the chain. -/
theorem Leads.resolve {id target : SummaryId} (leads : unit.Leads symbol func)
    (ordered : unit.Ordered index.summaries.length collection)
    (collects : unit.Collects withAccesses index collection)
    (inside : (symbol, id) ∈ collection.summarized)
    (reached : (.function func, target) ∈ collection.summarized)
    : collection.index.resolve id = .ok (some target) := by
  obtain ⟨chain, bound⟩ := leads
  induction chain using ReflTransGen.head_induction_on generalizing id with
  | refl =>
      cases collects.number_eq inside reached
      obtain ⟨above, summary, found, summarizes⟩ := collects.made _ _ inside
      have here := bound _ .refl
      have placed := summarizes.describes.isBoundHere here.defined
      rw [isBoundHere_iff.mpr here, Except.ok.injEq] at placed
      cases summarizes with
      | function describes kind _ _ _ =>
          rw [SummaryIndex.resolve_eq ordered.descends above found, kind, describes.live, ← placed]
          rfl
  | head step _ later =>
      have rest := fun {id} inside =>
        @later id inside fun passed chain => bound passed (.head step chain)
      obtain ⟨above, summary, foundSummary, summarizes⟩ := collects.made _ id inside
      have here := bound _ .refl
      have placed := summarizes.describes.isBoundHere here.defined
      rw [isBoundHere_iff.mpr here, Except.ok.injEq] at placed
      cases step with
      | intro found =>
          cases summarizes with
          | aliased describes kind foundLink leads =>
              cases found.symm.trans foundLink
              rw [SummaryIndex.resolve_eq ordered.descends above foundSummary, kind, describes.live,
                ← placed]
              exact rest leads

/-- A symbol that stands for a function with a body has a summary, if those with a body have one and
aliases of symbols with one.
-/
theorem StandsFor.mem_summarized (stands : unit.StandsFor symbol func)
    (functions : ∀ id, unit.isDeclaration (.function id) = .ok false
      → .function id ∈ collection.summarized.map (·.1))
    (aliases : ∀ id link, unit.aliasAt id = .ok link
      → link.aliasee ∈ collection.summarized.map (·.1)
      → .aliased id ∈ collection.summarized.map (·.1))
    : symbol ∈ collection.summarized.map (·.1) := by
  induction stands with
  | here defined => exact functions _ defined
  | through found _ ih => exact aliases _ _ found ih

/-- Collecting a module has an answer only if the wanted records exist. -/
theorem recordable_of_summarize {config : Config} {next : SummaryIndex}
    (summarized : (unit.summarize config index).result = .ok next)
    : unit.Recordable config := by
  intro wanted id defined
  obtain ⟨collection, collects, _, all⟩ := summarize_spec summarized
  obtain ⟨found, present, _⟩ := exists_of_bind_eq_ok defined
  obtain ⟨⟨_, number⟩, inside, rfl⟩ := List.mem_map.mp (all id (mem_functionIds present) defined)
  obtain ⟨_, summary, _, summarizes⟩ := collects.made _ number inside
  rw [wanted] at summarizes
  obtain ⟨usages, analyzed, recorded⟩ := summarizes.exists_usages
  exact ⟨usages, summary.accesses, analyzed, recorded⟩

/-- A module adds its summaries in order, one for each symbol that stands for a function with a
body.
-/
theorem summarize_ordered {config : Config} {next : SummaryIndex}
    (summarized : (unit.summarize config index).result = .ok next)
    : ∃ collection, collection.index = next
      ∧ unit.Collects (unit.needsAccesses config) index collection
      ∧ unit.Ordered index.summaries.length collection
      ∧ ∀ symbol func, unit.StandsFor symbol func
        → symbol ∈ collection.summarized.map (·.1) := by
  obtain ⟨collection, extended, same, functions, aliases⟩ := summarize_extends summarized
  have collects := (collects_nothing index).extended extended
  have ordered := (ordered_nothing unit index).extended (collects_nothing index) extended
  exact ⟨collection, same, collects, ordered,
    fun _ _ stands => stands.mem_summarized functions aliases⟩

/-- A module can be added to any index, unless records are wanted and cannot be made. Then exactly
the symbols that stand for a function with a body have got a summary, each one of its own, and a
call to a symbol runs a function of the module exactly if the summary of the symbol resolves to that
of the function.
-/
theorem summarize_resolves_unless_unrecordable (unit : Module) (config : Config)
    (index : SummaryIndex)
    : ((∃ next, (unit.summarize config index).result = .ok next) ↔ unit.Recordable config)
      ∧ ∀ next, (unit.summarize config index).result = .ok next
        → ∃ collection, collection.index = next
          ∧ unit.Collects (unit.needsAccesses config) index collection
          ∧ (collection.summarized.map (·.2)).Nodup
          ∧ (∀ symbol, symbol ∈ collection.summarized.map (·.1)
            ↔ ∃ func, unit.StandsFor symbol func)
          ∧ ∀ symbol func, unit.boundFunction symbol = .ok (some func)
            ↔ ∃ id target, (symbol, id) ∈ collection.summarized
              ∧ (.function func, target) ∈ collection.summarized
              ∧ next.resolve id = .ok (some target) := by
  refine ⟨⟨?_, summarize_ok config index⟩, ?_⟩
  · rintro ⟨next, summarized⟩
    exact recordable_of_summarize summarized
  intro next summarized
  obtain ⟨collection, rfl, collects, ordered, all⟩ := summarize_ordered summarized
  have complete {symbol : Global} {func : FunctionId} (stands : unit.StandsFor symbol func)
      : ∃ id, (symbol, id) ∈ collection.summarized := by
    obtain ⟨⟨_, id⟩, inside, rfl⟩ := List.mem_map.mp (all symbol func stands)
    exact ⟨id, inside⟩
  refine ⟨collection, rfl, collects, ordered.nodup, fun symbol => ⟨ordered.standing symbol, ?_⟩,
    fun symbol func => ⟨?_, ?_⟩⟩
  · rintro ⟨func, stands⟩
    exact all symbol func stands
  · intro bound
    have leads := boundFunction_eq_some_iff.mp bound
    obtain ⟨id, inside⟩ := complete leads.standsFor
    obtain ⟨target, reached⟩ := complete leads.end_standsFor
    exact ⟨id, target, inside, reached, leads.resolve ordered collects inside reached⟩
  · rintro ⟨id, target, inside, reached, resolved⟩
    obtain ⟨other, leads, ends⟩ := collects.leads _ inside resolved
    cases ordered.symbol_eq ends reached
    exact leads.boundFunction

/-- The module of a function that is wiped with a length of minus one or minus two. -/
def wiper : Module := ⟨"m", ⟨.x86_64, .unknown, .linux⟩, [LocalAnalysis.wipe (-2)], []⟩

def wiping : List Command :=
  [.declareFunction (LocalAnalysis.wipe (-2)).sig,
    .session ⟨0⟩ [.appendBlock, .selectBlock ⟨0⟩, .append (.alloca .i64 none),
      .constant (.i64 (-1)), .constant (.i64 (-2)), .constant (.i8 0),
      .append (.select ⟨0⟩ ⟨2⟩ ⟨3⟩), .append (.memSet ⟨1⟩ ⟨4⟩ ⟨5⟩), .append (.ret none), .finish]]

theorem wiper_built : wiper.Built := ⟨"m", wiper.target, wiping, by decide +kernel⟩

/-- A function with a body gets no summary: its local analysis fails, and so does collecting. -/
theorem exists_unsummarized_wiper
    : wiper.Built
      ∧ wiper.StandsFor (.function ⟨0⟩) ⟨0⟩
      ∧ (wiper.summarize { recordAccesses := true } .empty).result = .error .accessSize := by
  have straight : (LocalAnalysis.wipe (-2)).IsStraight ⟨⟨0⟩, [⟨0⟩, ⟨1⟩, ⟨2⟩, ⟨3⟩]⟩ :=
    ⟨rfl, rfl, rfl⟩
  have failed : (wiper.analyzeFunction ⟨0⟩).result = .error .accessSize := by
    rw [straight.analyzeFunction rfl]
    decide +kernel
  have stopped : (wiper.collectFunction true ⟨.empty, []⟩ ⟨0⟩).result = .error .accessSize := by
    have defined : wiper.isDeclaration (.function ⟨0⟩) = .ok false := rfl
    simp only [collectFunction, defined, Bool.false_eq_true, ↓reduceIte, Traced.result_bind,
      Traced.result_liftM, failed, ok_bind]
    rfl
  refine ⟨wiper_built, .here rfl, ?_⟩
  rw [summarize, Traced.result_bind]
  change (List.foldlM (wiper.collectFunction true) _ [FunctionId.mk 0]).result >>= _ = _
  rw [List.foldlM_cons, Traced.result_bind, stopped]
  rfl

/-- A function and four aliases: of an alias that comes later, of the function, of itself and of a
function without a body.
-/
def tangled : Module where
  name := "m"
  target := ⟨.x86_64, .unknown, .linux⟩
  functions := [fill, .ofSignature (.declared "g" .external [] .unit)]
  aliases := [⟨"a", .exported, true, .aliased ⟨1⟩⟩, ⟨"b", .exported, true, .function ⟨0⟩⟩,
    ⟨"c", .exported, true, .aliased ⟨2⟩⟩, ⟨"d", .exported, true, .function ⟨1⟩⟩]

theorem tangled_not_standsFor (stands : tangled.StandsFor symbol func)
    : symbol ≠ .aliased ⟨2⟩ ∧ symbol ≠ .aliased ⟨3⟩ ∧ symbol ≠ .function ⟨1⟩ := by
  induction stands with
  | here defined =>
      refine ⟨by simp, by simp, ?_⟩
      rintro ⟨⟩
      cases defined
  | through found _ ih =>
      obtain ⟨noLoop, _, noDeclaration⟩ := ih
      refine ⟨?_, ?_, by simp⟩
      · rintro ⟨⟩
        cases found
        exact noLoop rfl
      · rintro ⟨⟩
        cases found
        exact noDeclaration rfl

/-- Witness: the first alias resolves to the function, the last two have no summary. -/
theorem summarize_resolves_unless_unrecordable_tangled
    : ∃ next collection, (tangled.summarize {} .empty).result = .ok next
      ∧ tangled.Collects false .empty collection
      ∧ (∃ id target, (.aliased ⟨0⟩, id) ∈ collection.summarized
        ∧ (.function ⟨0⟩, target) ∈ collection.summarized
        ∧ next.resolve id = .ok (some target))
      ∧ .aliased ⟨2⟩ ∉ collection.summarized.map (·.1)
      ∧ .aliased ⟨3⟩ ∉ collection.summarized.map (·.1) := by
  obtain ⟨answers, shape⟩ := summarize_resolves_unless_unrecordable tangled {} .empty
  obtain ⟨next, summarized⟩ := answers.mpr fun wanted => by cases wanted
  obtain ⟨collection, _, collects, _, standing, resolves⟩ := shape next summarized
  refine ⟨next, collection, summarized, collects, (resolves _ _).mp rfl, ?_, ?_⟩
  · intro member
    obtain ⟨func, stands⟩ := (standing _).mp member
    exact (tangled_not_standsFor stands).1 rfl
  · intro member
    obtain ⟨func, stands⟩ := (standing _).mp member
    exact (tangled_not_standsFor stands).2.1 rfl

end StackBounds.Module
