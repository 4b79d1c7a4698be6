import StackBounds.Program.Type

/-! Targets: architecture, vendor and operating system, read from and written as text. -/

namespace StackBounds

/-- The supported instruction sets. -/
inductive Architecture
  | x86_64
  | aarch64
  | riscv32
  | riscv64
  | wasm32
  deriving DecidableEq, Repr

/-- The supported vendors. -/
inductive Vendor
  | unknown
  | apple
  | pc
  deriving DecidableEq, Repr

/-- The supported operating systems. -/
inductive OperatingSystem
  | linux
  | darwin
  | windows
  | wasi
  /-- No operating system at all. -/
  | bare
  | unknown
  deriving DecidableEq, Repr

/-- A platform that programs are compiled for. -/
structure Target where
  architecture : Architecture
  vendor : Vendor
  system : OperatingSystem
  deriving DecidableEq, Repr

/-- Why a text names no target. -/
inductive TargetError
  | format (text : String)
  | architecture
  | vendor
  | system
  | combination
  deriving DecidableEq, Repr

/-- The message of an error. -/
def TargetError.message : TargetError → String
  | .format text =>
      "the format of triple must be `architecture-vendor-os`: but got `" ++ text ++ "`"
  | .architecture => "given architecture is not supported"
  | .vendor => "given vendor is not supported"
  | .system => "given operating system is not supported"
  | .combination => "given triple consists of invalid combination"

namespace Architecture

/-- The name of an instruction set. -/
def text : Architecture → String
  | .x86_64 => "x86_64"
  | .aarch64 => "aarch64"
  | .riscv32 => "riscv32"
  | .riscv64 => "riscv64"
  | .wasm32 => "wasm32"

/-- Reads the name of an instruction set; one of them has two names. -/
def parse (text : String) : Except TargetError Architecture :=
  if text = "x86_64" then pure .x86_64
  else if text = "aarch64" ∨ text = "arm64" then pure .aarch64
  else if text = "riscv32" then pure .riscv32
  else if text = "riscv64" then pure .riscv64
  else if text = "wasm32" then pure .wasm32
  else throw .architecture

/-- The width of an address. -/
def pointerWidth : Architecture → PointerWidth
  | .x86_64 => .w64
  | .aarch64 => .w64
  | .riscv32 => .w32
  | .riscv64 => .w64
  | .wasm32 => .w32

end Architecture

namespace Vendor

/-- The name of a vendor. -/
def text : Vendor → String
  | .unknown => "unknown"
  | .apple => "apple"
  | .pc => "pc"

/-- Reads the name of a vendor. -/
def parse (text : String) : Except TargetError Vendor :=
  if text = "unknown" then pure .unknown
  else if text = "apple" then pure .apple
  else if text = "pc" then pure .pc
  else throw .vendor

end Vendor

namespace OperatingSystem

/-- The name of an operating system. -/
def text : OperatingSystem → String
  | .linux => "linux"
  | .darwin => "darwin"
  | .windows => "windows"
  | .wasi => "wasi"
  | .bare => "none"
  | .unknown => "unknown"

/-- Reads the name of an operating system. -/
def parse (text : String) : Except TargetError OperatingSystem :=
  if text = "linux" then pure .linux
  else if text = "darwin" then pure .darwin
  else if text = "windows" then pure .windows
  else if text = "wasi" then pure .wasi
  else if text = "none" then pure .bare
  else if text = "unknown" then pure .unknown
  else throw .system

/-- The system is one that a web assembly module runs under. -/
def hostsWasm (system : OperatingSystem) : Bool := system == .wasi || system == .unknown

end OperatingSystem

namespace Target

/-- The text of a target. -/
def text (target : Target) : String :=
  target.architecture.text ++ "-" ++ target.vendor.text ++ "-" ++ target.system.text

/-- The width of an address. -/
def pointerWidth (target : Target) : PointerWidth := target.architecture.pointerWidth

/-- The part of a text at a position, or the error for a text with too few parts. -/
def part (text : String) (parts : List String) (index : Nat) : Except TargetError String :=
  match parts[index]? with
  | some part => pure part
  | none => throw (.format text)

/-- Reads a target. The parts are read from left to right and the first fault is reported;
web assembly and the systems that host it go together only.
-/
def parse (text : String) : Except TargetError Target := do
  let parts := text.splitOn "-"
  let architecture ← Architecture.parse (← part text parts 0)
  let vendor ← Vendor.parse (← part text parts 1)
  let system ← OperatingSystem.parse (← part text parts 2)
  if 3 < parts.length then
    throw (.format text)
  else if (architecture == .wasm32) != system.hostsWasm then
    throw .combination
  else
    pure ⟨architecture, vendor, system⟩

end Target

end StackBounds
