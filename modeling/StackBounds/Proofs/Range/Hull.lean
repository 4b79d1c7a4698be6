import StackBounds.Proofs.Range.Cover
import StackBounds.Usage

/-! Hulls: the least straight range that includes several ranges. Widening a usage by one range
after the other gives the hull of all of them, so the order does not matter.
-/

namespace StackBounds

namespace Range

/-- The least range of a width that includes some ranges and does not pass the end of the signed
numbers.
-/
structure IsHull (bits : UInt32) (parts : List Range) (hull : Range) : Prop where
  ofWidth : hull.OfWidth bits
  straight : hull.Straight
  includes : ∀ part ∈ parts, part ⊆ hull
  least : ∀ outer : Range, outer.OfWidth bits → outer.Straight → (∀ part ∈ parts, part ⊆ outer)
    → hull ⊆ outer

variable {bits : UInt32} {parts : List Range} {hull : Range}

/-- Ranges have one hull. -/
theorem IsHull.unique {other : Range} (isHull : hull.IsHull bits parts)
    (isOther : other.IsHull bits parts)
    : hull = other :=
  eq_of_subset_of_subset isHull.ofWidth.wellFormed isOther.ofWidth.wellFormed
    (isHull.ofWidth.bits_eq.trans isOther.ofWidth.bits_eq.symm)
    (isHull.least other isOther.ofWidth isOther.straight isOther.includes)
    (isOther.least hull isHull.ofWidth isHull.straight isHull.includes)

/-- The order of the parts does not matter. -/
theorem IsHull.of_perm {others : List Range} (isHull : hull.IsHull bits parts)
    (perm : parts.Perm others)
    : hull.IsHull bits others where
  ofWidth := isHull.ofWidth
  straight := isHull.straight
  includes part member := isHull.includes part (perm.mem_iff.mpr member)
  least outer proper straight included :=
    isHull.least outer proper straight fun part member => included part (perm.mem_iff.mp member)

theorem isHull_bottom (valid : Word.Valid bits) : (bottom bits).IsHull bits [] where
  ofWidth := ofWidth_bottom valid
  straight := Or.inl (isNone_bottom bits)
  includes _ member := absurd member List.not_mem_nil
  least outer _ _ _ :=
    (ofWidth_bottom valid).wellFormed.subset_of_isNone (isNone_bottom bits) outer

/-- A straight range is its own hull. -/
theorem isHull_self (proper : hull.OfWidth bits) (straight : hull.Straight)
    : hull.IsHull bits [hull] where
  ofWidth := proper
  straight := straight
  includes _ member := List.mem_singleton.mp member ▸ subset_refl hull
  least _ _ _ included := included hull (List.mem_singleton.mpr rfl)

/-- Covering one more range gives the hull of all of them. -/
theorem IsHull.exists_cover {part : Range} (isHull : hull.IsHull bits parts)
    (proper : part.OfWidth bits)
    : ∃ next, hull.cover part = .ok next ∧ next.IsHull bits (parts ++ [part]) := by
  have width := isHull.ofWidth.bits_eq.trans proper.bits_eq.symm
  obtain ⟨next, covered, properNext, straight, keeps, includes⟩ :=
    cover_spec isHull.ofWidth.wellFormed proper.wellFormed width
  refine ⟨next, covered, isHull.ofWidth.bits_eq ▸ properNext, straight, fun other member => ?_,
    fun outer properOuter straightOuter included => ?_⟩
  · rcases List.mem_append.mp member with earlier | last
    · exact subset_trans (isHull.includes other earlier) keeps
    · exact List.mem_singleton.mp last ▸ includes
  · have includesHull : hull ⊆ outer := isHull.least outer properOuter straightOuter
      fun other member => included other (List.mem_append_left _ member)
    exact cover_least isHull.ofWidth.wellFormed proper.wellFormed width covered
      properOuter.wellFormed (properOuter.bits_eq.trans isHull.ofWidth.bits_eq.symm)
      straightOuter includesHull
      (included part (List.mem_append_right _ (List.mem_singleton.mpr rfl)))

/-- A range without elements changes no hull. -/
theorem IsHull.append_none {part : Range} (isHull : hull.IsHull bits parts) (wf : part.WellFormed)
    (none : part.IsNone)
    : hull.IsHull bits (parts ++ [part]) := by
  refine ⟨isHull.ofWidth, isHull.straight, fun other member => ?_,
    fun outer proper straight included => ?_⟩
  · rcases List.mem_append.mp member with earlier | last
    · exact isHull.includes other earlier
    · cases List.mem_singleton.mp last
      exact wf.subset_of_isNone none hull
  · exact isHull.least outer proper straight fun other member =>
      included other (List.mem_append_left _ member)

/-- Covering a range changes nothing exactly when it is included already. -/
theorem cover_eq_self_iff {range part : Range} (proper : range.OfWidth bits)
    (straight : range.Straight) (properPart : part.OfWidth bits)
    : range.cover part = .ok range ↔ part ⊆ range := by
  obtain ⟨next, covered, isHull⟩ := (isHull_self proper straight).exists_cover properPart
  have includes := isHull.includes part (by simp)
  rw [covered]
  constructor
  · intro same
    cases same
    exact includes
  · intro included
    have isOwn : range.IsHull bits ([range] ++ [part]) := by
      refine ⟨proper, straight, fun other member => ?_, fun outer _ _ both => both range (by simp)⟩
      rcases List.mem_append.mp member with first | last
      · exact List.mem_singleton.mp first ▸ subset_refl range
      · exact List.mem_singleton.mp last ▸ included
    rw [isHull.unique isOwn]

end Range

namespace Usage

variable {γ : Type} {bits : UInt32} {usage : Usage γ}

/-- One step: widening a usage whose range is a hull takes one more range into the hull, and leaves
the calls as they are.
-/
theorem exists_widen_isHull {parts : List Range} {range : Range}
    (isHull : usage.range.IsHull bits parts) (proper : range.OfWidth bits)
    : ∃ widened, usage.widen range = .ok widened ∧ widened.calls = usage.calls
      ∧ widened.range.IsHull bits (parts ++ [range]) := by
  obtain ⟨next, covered, isNext⟩ := isHull.exists_cover proper
  exact ⟨{ usage with range := next }, by rw [widen, covered, ok_bind, pure_eq_ok], rfl, isNext⟩

/-- The run: widening by several ranges gives the hull of all of them; by induction on the ranges.
-/
theorem exists_foldlM_widen_isHull {parts ranges : List Range}
    (isHull : usage.range.IsHull bits parts) (proper : ∀ range ∈ ranges, range.OfWidth bits)
    : ∃ widened, ranges.foldlM widen usage = .ok widened ∧ widened.calls = usage.calls
      ∧ widened.range.IsHull bits (parts ++ ranges) := by
  induction ranges generalizing usage parts with
  | nil => exact ⟨usage, rfl, rfl, by rwa [List.append_nil]⟩
  | cons range rest ih =>
      obtain ⟨next, widening, sameCalls, isNext⟩ :=
        exists_widen_isHull isHull (proper range List.mem_cons_self)
      obtain ⟨widened, folded, calls, isWidened⟩ :=
        ih isNext fun other member => proper other (List.mem_cons_of_mem _ member)
      refine ⟨widened, ?_, calls.trans sameCalls, ?_⟩
      · rw [List.foldlM_cons, widening, ok_bind, folded]
      · rwa [List.append_assoc, List.singleton_append] at isWidened

/-- Widening is a least upper bound. Widening a usage by several ranges has one outcome in every
order: its range is the hull of the first range and all others. Widening by one range changes
nothing exactly when the range is included already.
-/
theorem foldlM_widen_isHull_of_perm {ranges : List Range} (proper : usage.range.OfWidth bits)
    (straight : usage.range.Straight) (properRanges : ∀ range ∈ ranges, range.OfWidth bits)
    : (∃ widened : Usage γ,
        (∀ order : List Range, order.Perm ranges → order.foldlM widen usage = .ok widened)
        ∧ widened.calls = usage.calls
        ∧ widened.range.IsHull bits (usage.range :: ranges))
      ∧ ∀ range : Range, range.OfWidth bits
        → (usage.widen range = .ok usage ↔ range ⊆ usage.range) := by
  have isHull := Range.isHull_self proper straight
  obtain ⟨widened, folded, calls, isWidened⟩ := exists_foldlM_widen_isHull isHull properRanges
  refine ⟨⟨widened, fun order perm => ?_, calls, isWidened⟩, fun range properRange => ?_⟩
  · obtain ⟨other, foldedOther, callsOther, isOther⟩ := exists_foldlM_widen_isHull isHull
      fun range member => properRanges range (perm.mem_iff.mp member)
    -- Both outcomes have the hull of the same ranges.
    have sameRange : other.range = widened.range :=
      (isOther.of_perm (perm.append_left _)).unique isWidened
    have same : other = widened := by
      obtain ⟨range, calls⟩ := other
      obtain ⟨_, _⟩ := widened
      cases sameRange
      cases callsOther.trans calls.symm
      rfl
    rw [foldedOther, same]
  · rw [← Range.cover_eq_self_iff proper straight properRange, widen]
    cases covered : usage.range.cover range with
    | error fault => simp
    | ok next =>
        obtain ⟨_, _⟩ := usage
        simp

/-- Witness: a range that wraps around zero and one that ends at the last signed byte, in either
order. A range inside the first one changes nothing.
-/
theorem foldlM_widen_isHull_of_perm_bytes
    : ∃ widened : Usage Callee,
        [⟨8, 250, 3⟩, ⟨8, 120, 127⟩].foldlM widen ⟨⟨8, 0, 4⟩, []⟩ = .ok widened
        ∧ [⟨8, 120, 127⟩, ⟨8, 250, 3⟩].foldlM widen ⟨⟨8, 0, 4⟩, []⟩ = .ok widened
        ∧ widened.range.IsHull 8 [⟨8, 0, 4⟩, ⟨8, 250, 3⟩, ⟨8, 120, 127⟩]
        ∧ widened.range = ⟨8, 250, 127⟩
        ∧ (⟨⟨8, 0, 4⟩, []⟩ : Usage Callee).widen ⟨8, 0, 3⟩ = .ok ⟨⟨8, 0, 4⟩, []⟩ := by
  have proper : (⟨⟨8, 0, 4⟩, []⟩ : Usage Callee).range.OfWidth 8 := by decide
  have straight : (⟨⟨8, 0, 4⟩, []⟩ : Usage Callee).range.Straight := by decide
  have properRanges : ∀ range ∈ [Range.mk 8 250 3, ⟨8, 120, 127⟩], range.OfWidth 8 := by decide
  obtain ⟨⟨widened, folded, _, isHull⟩, unchanged⟩ :=
    foldlM_widen_isHull_of_perm proper straight properRanges
  have properInner : (Range.mk 8 0 3).OfWidth 8 := by decide
  have included : Range.mk 8 0 3 ⊆ Range.mk 8 0 4 :=
    (Range.contains_eq_true_iff proper.wellFormed properInner.wellFormed rfl).mp (by decide)
  have forth := folded _ (.refl _)
  refine ⟨widened, forth, folded _ (.swap _ _ _), isHull, ?_,
    (unchanged _ properInner).mpr included⟩
  have result : [⟨8, 250, 3⟩, ⟨8, 120, 127⟩].foldlM widen (⟨⟨8, 0, 4⟩, []⟩ : Usage Callee)
      = .ok ⟨⟨8, 250, 127⟩, []⟩ := by decide
  cases result.symm.trans forth
  rfl

end Usage

end StackBounds
