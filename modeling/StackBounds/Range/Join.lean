import StackBounds.Range.Basic

/-! Inclusion of ranges, and the interval that covers two of them. -/

namespace StackBounds.Range

-----------------------------------------------------------------------------------------
-- Inclusion
-----------------------------------------------------------------------------------------

/-- Every element of the second range is in the first. -/
def contains (outer inner : Range) : Except Fault Bool := do
  outer.requireSameWidth inner
  if ← outer.isFull then
    pure true
  else if inner.isEmpty then
    pure true
  else if outer.isEmpty then
    pure false
  else if ← inner.isFull then
    pure false
  else
    pure <| match outer.isWrapped, inner.isWrapped with
      | false, false => decide (outer.lower ≤ inner.lower ∧ inner.upper ≤ outer.upper)
      | false, true => false
      | true, false => decide (inner.upper ≤ outer.upper ∨ outer.lower ≤ inner.lower)
      | true, true => decide (inner.upper ≤ outer.upper ∧ outer.lower ≤ inner.lower)

-----------------------------------------------------------------------------------------
-- Union
-----------------------------------------------------------------------------------------

/-- Which of two covering intervals a union takes when neither is inside the other. -/
inductive Preference
  /-- The one with fewer elements. -/
  | smallest
  /-- The one that stays on one side of the end of the signed numbers, then the smaller. -/
  | signed
  deriving DecidableEq, Repr

/-- The smaller of two candidates, the first on a tie. -/
def smaller (first second : Range) : Except Fault Range := do
  if ← second.isSmallerThan first then pure second else pure first

/-- The candidate that a preference selects. -/
def prefer (preference : Preference) (first second : Range) : Except Fault Range :=
  match preference with
  | .smallest => smaller first second
  | .signed => do
    match ← first.crossesSign, ← second.crossesSign with
    | false, true => pure first
    | true, false => pure second
    | _, _ => smaller first second

/-- The union of two non-empty intervals of which neither wraps. Disjoint ones are joined
across the gap between them or around the end of the words.
-/
def unionPlain (preference : Preference) (left right : Range) : Except Fault Range :=
  if right.upper < left.lower ∨ left.upper < right.lower then
    prefer preference ⟨left.bits, left.lower, right.upper⟩ ⟨left.bits, right.lower, left.upper⟩
  else do
    let mask ← Word.mask left.bits
    let lower := if right.lower < left.lower then right.lower else left.lower
    let upper :=
      if (left.upper - 1) &&& mask < (right.upper - 1) &&& mask then right.upper else left.upper
    if lower = 0 ∧ upper = 0 then full left.bits else pure ⟨left.bits, lower, upper⟩

/-- The union of an interval that wraps with one that does not. -/
def unionMixed (preference : Preference) (wrapped plain : Range) : Except Fault Range :=
  if plain.upper ≤ wrapped.upper ∨ wrapped.lower ≤ plain.lower then
    -- The plain interval lies in one of the two pieces.
    pure wrapped
  else if plain.lower ≤ wrapped.upper ∧ wrapped.lower ≤ plain.upper then
    -- It bridges the hole.
    full wrapped.bits
  else if wrapped.upper < plain.lower ∧ plain.upper < wrapped.lower then
    -- It lies inside the hole.
    prefer preference
      ⟨wrapped.bits, wrapped.lower, plain.upper⟩ ⟨wrapped.bits, plain.lower, wrapped.upper⟩
  else if wrapped.upper < plain.lower then
    -- It reaches the piece above the hole.
    pure ⟨wrapped.bits, plain.lower, wrapped.upper⟩
  else
    -- It reaches the piece below the hole.
    pure ⟨wrapped.bits, wrapped.lower, plain.upper⟩

/-- The union of two intervals that both wrap. -/
def unionWrapped (left right : Range) : Except Fault Range :=
  if right.lower ≤ left.upper ∨ left.lower ≤ right.upper then
    full left.bits
  else
    pure {
      bits := left.bits
      lower := if right.lower < left.lower then right.lower else left.lower
      upper := if left.upper < right.upper then right.upper else left.upper
    }

/-- The smallest interval that covers both ranges. Where two intervals qualify, the preference
decides.
-/
def union (preference : Preference) (left right : Range) : Except Fault Range := do
  left.requireSameWidth right
  if left.isEmpty then
    pure right
  else if ← right.isFull then
    pure right
  else if right.isEmpty then
    pure left
  else if ← left.isFull then
    pure left
  else
    match left.isWrapped, right.isWrapped with
    | false, false => unionPlain preference left right
    | false, true => unionMixed preference right left
    | true, false => unionMixed preference left right
    | true, true => unionWrapped left right

/-- The interval that covers both ranges, or the full set when that interval passes the end of
the signed numbers.
-/
def cover (left right : Range) : Except Fault Range := do
  let union ← left.union .signed right
  if ← union.isSignWrapped then full union.bits else pure union

end StackBounds.Range
