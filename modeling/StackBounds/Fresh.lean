/-! Fresh items: a walk that enters each item at most once takes it off a list of fresh ones. -/

namespace StackBounds

/-- Entering a fresh item leaves fewer fresh ones. -/
theorem length_erase_lt {α : Type} [BEq α] [LawfulBEq α] {fresh : List α} {item : α}
    (h : item ∈ fresh)
    : (fresh.erase item).length < fresh.length := by
  rw [List.length_erase_of_mem h]
  have := List.length_pos_of_mem h
  omega

/-- A weaker test that one more item passes counts more items. -/
theorem countP_lt_countP {α : Type} {items : List α} {test weaker : α → Bool}
    (implied : ∀ item, test item = true → weaker item = true) {item : α} (member : item ∈ items)
    (passes : weaker item = true) (fails : test item = false)
    : items.countP test < items.countP weaker := by
  induction items with
  | nil => cases member
  | cons head rest ih =>
      have later : rest.countP test ≤ rest.countP weaker :=
        List.countP_mono_left fun other _ => implied other
      rw [List.countP_cons, List.countP_cons]
      rcases List.mem_cons.mp member with rfl | inside
      · rw [passes, fails]
        simp only [Bool.false_eq_true, ↓reduceIte]
        omega
      · have fewer := ih inside
        cases here : test head with
        | false =>
            simp only [Bool.false_eq_true, ↓reduceIte]
            omega
        | true =>
            rw [implied head here]
            simp only [↓reduceIte]
            omega

end StackBounds
