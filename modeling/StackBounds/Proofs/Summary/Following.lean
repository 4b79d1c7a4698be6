import StackBounds.Proofs.Summary.Binding

/-! Following aliases towards smaller numbers. Collected summaries come after those that they lead
to, so a chain of aliases never comes back and what is fresh makes no difference to its end.
-/

namespace StackBounds.SummaryIndex

/-- From a number on, an alias leads to an earlier summary, but to none before that number. -/
def Descends (index : SummaryIndex) (start : Nat) : Prop :=
  ∀ (id : SummaryId) (summary : Summary) (aliasee : SummaryId), start ≤ id.index
    → index.summaries[id.index]? = some summary → summary.kind = .aliased aliasee
    → start ≤ aliasee.index ∧ aliasee.index < id.index

/-- A summary and all that come before it are fresh. -/
def FreshUpTo (fresh : List SummaryId) (id : SummaryId) : Prop :=
  ∀ number, number ≤ id.index → ⟨number⟩ ∈ fresh

variable {index : SummaryIndex} {start : Nat} {fresh other : List SummaryId} {id : SummaryId}
  {summary : Summary}

theorem FreshUpTo.self (unseen : FreshUpTo fresh id) : id ∈ fresh :=
  unseen id.index (Nat.le_refl _)

/-- What comes before a summary stays fresh when the summary is passed. -/
theorem FreshUpTo.erase {aliasee : SummaryId} (unseen : FreshUpTo fresh id)
    (below : aliasee.index < id.index)
    : FreshUpTo (fresh.erase id) aliasee := by
  intro number small
  refine (List.mem_erase_of_ne ?_).mpr (unseen number (by omega))
  intro same
  subst same
  exact absurd small (by simpa using below)

theorem freshUpTo_ids (bound : id.index < index.summaries.length) : FreshUpTo index.ids id := by
  intro number small
  exact List.mem_map.mpr ⟨number, List.mem_range.mpr (by omega), rfl⟩

section Descending

variable (descends : index.Descends start)

include descends

/-- What is fresh makes no difference; by induction on the number. -/
theorem resolveFrom_congr (above : start ≤ id.index) (unseen : FreshUpTo fresh id)
    (unseenOther : FreshUpTo other id)
    : index.resolveFrom fresh id = index.resolveFrom other id := by
  induction number : id.index using Nat.strongRecOn generalizing id fresh other with
  | ind _ ih =>
      rw [resolveFrom, resolveFrom]
      cases found : index.summary id with
      | error fault => rfl
      | ok summary =>
          rw [ok_bind, ok_bind, dif_pos unseen.self, dif_pos unseenOther.self]
          cases kind : summary.kind with
          | function accesses => rfl
          | object => rfl
          | aliased aliasee =>
              obtain ⟨aboveLater, below⟩ :=
                descends id summary aliasee above (summary_eq_ok_iff.mp found) kind
              simp only [ih aliasee.index (number ▸ below) aboveLater (unseen.erase below)
                (unseenOther.erase below) rfl]

/-- A summary resolves to itself if it is a function and to what its aliasee resolves to if it is an
alias, as long as it is live and not preemptable.
-/
theorem resolve_eq (above : start ≤ id.index)
    (found : index.summaries[id.index]? = some summary)
    : index.resolve id
      = if summary.live && summary.dsoLocal then
          match summary.kind with
          | .function _ => pure (some id)
          | .aliased aliasee => index.resolve aliasee
          | .object => pure none
        else
          pure none := by
  have bound := (List.getElem?_eq_some_iff.mp found).1
  have unseen := freshUpTo_ids bound
  rw [resolve, resolveFrom, summary_eq_ok_iff.mpr found, ok_bind, dif_pos unseen.self]
  cases kind : summary.kind with
  | function accesses => rfl
  | object => rfl
  | aliased aliasee =>
      obtain ⟨aboveLater, below⟩ := descends id summary aliasee above found kind
      simp only [resolve, resolveFrom_congr descends aboveLater (unseen.erase below)
        (freshUpTo_ids (Nat.lt_trans below bound))]

/-- A chain of aliases ends at a function if no summary is an object; by induction on the number. -/
theorem exists_base (code : ∀ summary ∈ index.summaries, summary.kind ≠ .object)
    (above : start ≤ id.index) (bound : id.index < index.summaries.length)
    (unseen : FreshUpTo fresh id)
    : ∃ base summary, index.baseFrom fresh id = .ok (some base)
      ∧ index.summary base = .ok summary ∧ summary.kind.isFunction = true := by
  induction number : id.index using Nat.strongRecOn generalizing id fresh with
  | ind _ ih =>
      obtain ⟨summary, found, member⟩ := exists_summary bound
      rw [baseFrom, found, ok_bind]
      cases kind : summary.kind with
      | object => exact absurd kind (code summary member)
      | function accesses => exact ⟨id, summary, rfl, found, by rw [kind]; rfl⟩
      | aliased aliasee =>
          obtain ⟨aboveLater, below⟩ :=
            descends id summary aliasee above (summary_eq_ok_iff.mp found) kind
          simp only [unseen.self, ↓reduceDIte]
          exact ih aliasee.index (number ▸ below) aboveLater (Nat.lt_trans below bound)
            (unseen.erase below) rfl

theorem namesFunction_eq (code : ∀ summary ∈ index.summaries, summary.kind ≠ .object)
    (above : start ≤ id.index) (bound : id.index < index.summaries.length)
    : index.namesFunction id = .ok true := by
  obtain ⟨base, summary, ends, found, function⟩ :=
    exists_base descends code above bound (freshUpTo_ids bound)
  rw [namesFunction, ends, ok_bind]
  simp only [found, ok_bind, function, pure_eq_ok]

end Descending

end StackBounds.SummaryIndex
