import ObjectLang.Word

/-!
Settings of the machine, and the faults that stop it before it halts.
-/
namespace ObjectLang

structure Flags where
  /-- Fail when the heap pointer reaches the stack pointer. -/
  checkCollision : Bool := false
  trace : Bool := false
  echo : Bool := false

def Flags.bits (f : Flags) : Nat :=
  f.checkCollision.toNat + 2 * f.trace.toNat + 4 * f.echo.toNat

structure Config where
  /-- Words of memory, which stack and heap share. -/
  memorySize : Nat := 10000
  codeSize : Nat := 10000
  flags : Flags := {}
  maxSteps : Option Nat := none

inductive Fault where
  | programTooLarge (size capacity : Nat)
  | invalidOpcode (word : Word) (ip : Nat)
  | memoryOutOfBounds (address : Word) (ip : Nat)
  | codeOutOfBounds (address : Int)
  | divisionByZero (ip : Nat)
  | heapStackCollision (hp sp : Word) (ip : Nat)
  | stepLimitExceeded (limit : Nat)
  deriving DecidableEq

def Fault.message : Fault → String
  | .programTooLarge size capacity =>
    s!"program of {size} words exceeds the code size of {capacity}"
  | .invalidOpcode word ip => s!"invalid opcode {word.toInt} at address {ip}"
  | .memoryOutOfBounds address ip =>
    s!"memory address {address.toInt} out of bounds at instruction {ip}"
  | .codeOutOfBounds address => s!"code address {address} out of bounds"
  | .divisionByZero ip => s!"division by zero at instruction {ip}"
  | .heapStackCollision hp sp ip =>
    s!"heap pointer {hp.toInt} reached stack pointer {sp.toInt} at instruction {ip}"
  | .stepLimitExceeded limit => s!"step limit of {limit} instructions exceeded"

end ObjectLang
