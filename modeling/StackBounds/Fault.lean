/-! Faults: the reasons a computation stops without an answer. -/

namespace StackBounds

/-- The numbered parts of a program that a reference can name. -/
inductive Entity
  | value
  | inst
  | function
  | aliasName
  | summary
  deriving DecidableEq, Repr

/-- Why a computation has no answer. A fault is never an answer of the analysis: it marks
an input on which the operation is not defined.
-/
inductive Fault
  /-- A width for which words have no mask or no signed reading. -/
  | width (bits : UInt32)
  /-- Two ranges of different widths were combined. -/
  | widthMismatch (left right : UInt32)
  /-- Equal bounds that denote neither the empty nor the full set. -/
  | equalBounds
  /-- A closed interval whose least element is above its greatest. -/
  | reversedBounds
  /-- An address handed on at an empty set of offsets. -/
  | emptyOffset
  /-- An access whose size range has no usable upper bound. -/
  | accessSize
  /-- A pointer width other than 32 and 64 bits. -/
  | pointerWidth (bits : UInt32)
  /-- A by-value mark on a parameter that is missing or not a pointer. -/
  | byValueParam (index : Nat)
  /-- A reference to a part that does not exist. -/
  | dangling (entity : Entity) (index : Nat)
  /-- A merge without incoming values. -/
  | emptyMerge
  /-- An instruction was appended while no block was selected. -/
  | noBlockSelected
  /-- An instruction was appended to a block that is not placed. -/
  | blockNotPlaced (block : Nat)
  /-- A block was placed a second time. -/
  | blockPlacedTwice (block : Nat)
  /-- An instruction was placed a second time. -/
  | instPlacedTwice (inst : Nat)
  /-- An instruction was given a second result. -/
  | secondResult (inst : Nat)
  /-- A finished body has a block without a terminator at its end. -/
  | unterminated (block : Nat)
  /-- The local analysis was asked about a function without a body. -/
  | declaration
  /-- A lifetime marker's address depends on itself through casts only. -/
  | endlessAddress (value : Nat)
  /-- A widening counter left its word. -/
  | counterOverflow
  /-- The verification pass found a range that still grows. -/
  | notStable
  deriving DecidableEq, Repr

section Steps

variable {α β : Type}

@[simp] theorem pure_eq_ok (answer : α) : (pure answer : Except Fault α) = .ok answer := rfl

@[simp] theorem throw_eq_error (fault : Fault) : (throw fault : Except Fault α) = .error fault :=
  rfl

/-- There is nothing to lift within one kind of computation. -/
@[simp] theorem liftM_eq (answer : Except Fault α) : (liftM answer : Except Fault α) = answer := rfl

@[simp] theorem ok_bind (answer : α) (rest : α → Except Fault β)
    : (Except.ok answer >>= rest) = rest answer :=
  rfl

@[simp] theorem error_bind (fault : Fault) (rest : α → Except Fault β)
    : (Except.error fault >>= rest) = .error fault :=
  rfl

@[simp] theorem map_ok (change : α → β) (answer : α)
    : change <$> (Except.ok answer : Except Fault α) = .ok (change answer) :=
  rfl

end Steps

/-- A computation in steps has an answer only when its first step has one. -/
theorem exists_of_bind_eq_ok {α β : Type} {first : Except Fault α} {rest : α → Except Fault β}
    {answer : β} (h : first >>= rest = .ok answer)
    : ∃ value, first = .ok value ∧ rest value = .ok answer := by
  cases first with
  | error fault => cases h
  | ok value => exact ⟨value, rfl, h⟩

end StackBounds
