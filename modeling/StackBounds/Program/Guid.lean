/-! Global identifiers: a 64-bit hash that names a symbol the same way in every module. -/

namespace StackBounds

/-- The identifier of a symbol across modules. -/
structure Guid where
  value : UInt64
  deriving DecidableEq, Repr

namespace Guid

/-- The number whose bytes, least significant first, are the given ones. -/
def littleEndian (bytes : List UInt8) : UInt64 :=
  bytes.foldr (fun byte high => high <<< 8 ||| byte.toUInt64) 0

/-- Multiplies to 128 bits and folds the halves onto each other. -/
def mix (left right : UInt64) : UInt64 :=
  let product := left.toNat * right.toNat
  UInt64.ofNat product ^^^ UInt64.ofNat (product / UInt64.size)

/-- The two running words of the hash. -/
structure Accumulator where
  first : UInt64
  second : UInt64

/-- The words before any byte is read. -/
def Accumulator.start : Accumulator := ⟨0x243f6a8885a308d3, 0x13198a2e03707344⟩

/-- Adds a pair of words to the accumulator. -/
def Accumulator.xor (acc : Accumulator) (first second : UInt64) : Accumulator :=
  ⟨acc.first ^^^ first, acc.second ^^^ second⟩

/-- Reads one block of sixteen bytes. -/
def Accumulator.block (acc : Accumulator) (bytes : List UInt8) : Accumulator :=
  ⟨acc.second,
    mix (acc.first ^^^ littleEndian (bytes.take 8))
      (0xa4093822299f31d0 ^^^ littleEndian ((bytes.drop 8).take 8))⟩

/-- Reads the given number of blocks from the front of the bytes. -/
def Accumulator.blocks (acc : Accumulator) : Nat → List UInt8 → Accumulator
  | 0, _ => acc
  | count + 1, bytes => (acc.block bytes).blocks count (bytes.drop 16)

/-- Reads a byte string of at most sixteen bytes: its two ends, which overlap when it is
short.
-/
def Accumulator.short (acc : Accumulator) (bytes : List UInt8) : Accumulator :=
  let size := bytes.length
  if 8 ≤ size then
    acc.xor (littleEndian (bytes.take 8)) (littleEndian (bytes.drop (size - 8)))
  else if 4 ≤ size then
    acc.xor (littleEndian (bytes.take 4)) (littleEndian (bytes.drop (size - 4)))
  else if 0 < size then
    acc.xor (littleEndian (bytes.take 1))
      (littleEndian [(bytes.drop (size / 2)).headD 0, bytes.getLastD 0])
  else
    acc

/-- Reads a byte string. A long one is read in blocks that leave at least one byte, then its
last sixteen bytes are read.
-/
def Accumulator.read (acc : Accumulator) (bytes : List UInt8) : Accumulator :=
  let size := bytes.length
  if size ≤ 16 then
    acc.short bytes
  else
    let tail := bytes.drop (size - 16)
    (acc.blocks ((size - 1) / 16) bytes).xor (littleEndian (tail.take 8))
      (littleEndian (tail.drop 8))

/-- The hash of a byte string. It is that of a hashing library, not of the analysis: only the text
of answers and the fixed programs of witnesses evaluate it, and no statement about all programs
opens it. What such a statement needs of it (different symbols have different identifiers) is one
of its hypotheses.
-/
def hashBytes (bytes : List UInt8) : UInt64 :=
  let acc := Accumulator.start.read bytes
  mix acc.first acc.second ^^^ UInt64.ofNat bytes.length

/-- The multiplier of the final rounds. -/
def multiplier : UInt64 := 0xf1357aea2e62a9c5

/-- The identifier of a symbol that is visible to other modules. -/
def ofName (name : String) : Guid :=
  let word := (hashBytes name.toUTF8.toList * multiplier + 0xff) * multiplier
  ⟨word <<< 26 ||| word >>> 38⟩

/-- The name that identifies a symbol of one module only. -/
def localName (moduleName name : String) : String := moduleName ++ ";" ++ name

/-- The identifier of a symbol that is visible in its own module only. -/
def ofLocal (moduleName name : String) : Guid := ofName (localName moduleName name)

/-- The text of an identifier: sixteen hexadecimal digits. -/
def text (guid : Guid) : String :=
  let digits := Nat.toDigits 16 guid.value.toNat
  "guid:" ++ String.ofList (List.replicate (16 - digits.length) '0' ++ digits)

end Guid

end StackBounds
