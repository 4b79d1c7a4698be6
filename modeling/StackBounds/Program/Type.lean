import StackBounds.Fault

/-! Types of the program model, with their text, sizes and alignments. -/

namespace StackBounds

/-- The types of values and of memory. -/
inductive Ty
  | i1
  | i8
  | i16
  | i32
  | i64
  | ptr
  | array (elem : Ty) (length : UInt64)
  | struct (fields : List Ty)
  /-- A vector whose length is a multiple of `minLength` that is known only at run time. -/
  | scalable (elem : Ty) (minLength : UInt64)
  | unit
  deriving Repr, Inhabited

namespace Ty

mutual

/-- The text of a type. -/
def text : Ty → String
  | .i1 => "i1"
  | .i8 => "i8"
  | .i16 => "i16"
  | .i32 => "i32"
  | .i64 => "i64"
  | .ptr => "ptr"
  | .array elem length => "[" ++ elem.text ++ ";" ++ toString length.toNat ++ "]"
  | .struct fields => "\x7b" ++ ", ".intercalate (texts fields) ++ "\x7d"
  | .scalable elem minLength =>
      "<vscale x " ++ toString minLength.toNat ++ " x " ++ elem.text ++ ">"
  | .unit => "unit"

/-- The texts of several types. -/
def texts : List Ty → List String
  | [] => []
  | ty :: rest => ty.text :: texts rest

end

mutual

/-- Whether two types are the same one. -/
def decEq (first second : Ty) : Decidable (first = second) :=
  if kind : first.ctorIdx = second.ctorIdx then
    match first, second, kind with
    | .i1, .i1, _ | .i8, .i8, _ | .i16, .i16, _ | .i32, .i32, _ | .i64, .i64, _ | .ptr, .ptr, _
    | .unit, .unit, _ => isTrue rfl
    | .array elem length, .array other otherLength, _
    | .scalable elem length, .scalable other otherLength, _ =>
        match decEq elem other with
        | isTrue _ => decidable_of_iff (length = otherLength) (by simp [*])
        | isFalse _ => isFalse (by simp [*])
    | .struct fields, .struct others, _ =>
        match decEqAll fields others with
        | isTrue _ => isTrue (by simp [*])
        | isFalse _ => isFalse (by simp [*])
  else
    isFalse fun same => kind (congrArg Ty.ctorIdx same)

/-- Whether two lists of types are the same one. -/
def decEqAll (first second : List Ty) : Decidable (first = second) :=
  match first, second with
  | [], [] => isTrue rfl
  | ty :: rest, other :: others =>
      match decEq ty other, decEqAll rest others with
      | isTrue _, isTrue _ => isTrue (by simp [*])
      | isFalse _, _ => isFalse (by simp [*])
      | _, isFalse _ => isFalse (by simp [*])
  | [], _ :: _ => isFalse (by simp)
  | _ :: _, [] => isFalse (by simp)

end

instance : DecidableEq Ty := decEq

/-- The type is a pointer. -/
def isPointer : Ty → Bool
  | .ptr => true
  | _ => false

/-- The type has no values to pass around. -/
def isUnit : Ty → Bool
  | .unit => true
  | _ => false

/-- The width of an integer type. -/
def intBits : Ty → Option UInt32
  | .i1 => some 1
  | .i8 => some 8
  | .i16 => some 16
  | .i32 => some 32
  | .i64 => some 64
  | _ => none

end Ty

-----------------------------------------------------------------------------------------
-- Sizes
-----------------------------------------------------------------------------------------

/-- The width of an address. -/
inductive PointerWidth
  | w32
  | w64
  deriving DecidableEq, Repr

namespace PointerWidth

/-- The pointer width with the given number of bits. -/
def ofBits (bits : UInt32) : Except Fault PointerWidth :=
  if bits = 32 then pure .w32 else if bits = 64 then pure .w64 else throw (.pointerWidth bits)

/-- The number of bits of an address. -/
def bits : PointerWidth → UInt32
  | .w32 => 32
  | .w64 => 64

/-- The number of bytes of an address. -/
def bytes : PointerWidth → Nat
  | .w32 => 4
  | .w64 => 8

end PointerWidth

/-- A number of bytes, or the least number of bytes of a scalable type. -/
structure TypeSize where
  bytes : Nat
  scalable : Bool
  deriving DecidableEq, Repr

namespace TypeSize

/-- The number of bytes, when it does not depend on the run. -/
def fixed? (size : TypeSize) : Option Nat :=
  if size.scalable then none else some size.bytes

/-- The text of a size. -/
def text (size : TypeSize) : String :=
  if size.scalable then "vscale x " ++ toString size.bytes else toString size.bytes

end TypeSize

/-- The largest number of bytes that is written exactly. -/
def maxBytes : Nat := UInt64.size - 1

/-- A number of bytes, cut at the largest one. -/
def saturate (bytes : Nat) : Nat := min bytes maxBytes

/-- The next multiple of an alignment, cut at the largest number of bytes. -/
def alignTo (offset align : Nat) : Nat :=
  saturate ((offset + align - 1) / align * align)

namespace Ty

mutual

/-- The alignment of a type in memory. -/
def align (pointer : PointerWidth) : Ty → Nat
  | .i1 => 1
  | .i8 => 1
  | .i16 => 2
  | .i32 => 4
  | .i64 => 8
  | .ptr => pointer.bytes
  | .array elem _ => elem.align pointer
  | .struct fields => maxAlign pointer fields
  | .scalable elem _ => elem.align pointer
  | .unit => 1

/-- The strictest alignment of several types, at least 1. -/
def maxAlign (pointer : PointerWidth) : List Ty → Nat
  | [] => 1
  | ty :: rest => max (ty.align pointer) (maxAlign pointer rest)

end

mutual

/-- The number of bytes of a value in memory, trailing padding included. -/
def size (pointer : PointerWidth) : Ty → TypeSize
  | .i1 => ⟨1, false⟩
  | .i8 => ⟨1, false⟩
  | .i16 => ⟨2, false⟩
  | .i32 => ⟨4, false⟩
  | .i64 => ⟨8, false⟩
  | .ptr => ⟨pointer.bytes, false⟩
  | .array elem length =>
      let elemSize := elem.size pointer
      ⟨saturate (elemSize.bytes * length.toNat), elemSize.scalable⟩
  | .struct fields =>
      let placed := placeFields pointer ⟨0, false⟩ fields
      ⟨alignTo placed.bytes (maxAlign pointer fields), placed.scalable⟩
  | .scalable elem minLength => ⟨saturate ((elem.size pointer).bytes * minLength.toNat), true⟩
  | .unit => ⟨0, false⟩

/-- The end of the last field when fields are placed one after the other, each at the next
multiple of its alignment.
-/
def placeFields (pointer : PointerWidth) (before : TypeSize) : List Ty → TypeSize
  | [] => before
  | field :: rest =>
      let fieldSize := field.size pointer
      placeFields pointer
        ⟨saturate (alignTo before.bytes (field.align pointer) + fieldSize.bytes),
          before.scalable || fieldSize.scalable⟩
        rest

end

end Ty

end StackBounds
