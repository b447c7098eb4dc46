import ObjectLang.Code.Image
import ObjectLang.Machine.Config

/-!
The machine and its state. The stack grows down from the end of memory and the heap up from its
start. An instruction is a sequence of small actions; an action that fails leaves the state as the
actions before it made it.
-/
namespace ObjectLang

/-- What stays fixed during a run. -/
structure Machine where
  config : Config
  code : Array Word

namespace Machine

structure State where
  memory : Array Word
  ip : Nat
  sp : Word
  fp : Word
  hp : Word
  ra : Word
  tm : Word
  printed : Array Word
  steps : Nat
  halted : Bool

def load (config : Config) (p : Image) : Except Fault Machine :=
  if config.codeSize < p.size then .error (.programTooLarge p.size config.codeSize)
  else .ok ⟨config, p.words.toArray⟩

def start (m : Machine) : State where
  memory := Array.replicate m.config.memorySize 0
  ip := 0
  sp := Word.ofSize m.config.memorySize
  fp := Word.ofSize m.config.memorySize
  hp := 0
  ra := 0
  tm := 0
  printed := #[]
  steps := 0
  halted := false

def State.top? (s : State) : Option Word := (Word.index? s.sp).bind fun i => s.memory[i]?

/-- Actions: they end with a value or a fault, and with a state in both cases. -/
abbrev Action := EStateM Fault State

/-- A fault of memory access names the code address up to which words were fetched. -/
def loadWord (address : Word) : Action Word := fun s =>
  match (Word.index? address).bind fun i => s.memory[i]? with
  | some value => .ok value s
  | none => .error (.memoryOutOfBounds address s.ip) s

def storeWord (address value : Word) : Action Unit := fun s =>
  match Word.index? address with
  | none => .error (.memoryOutOfBounds address s.ip) s
  | some i =>
    if bound : i < s.memory.size then .ok () { s with memory := s.memory.set i value bound }
    else .error (.memoryOutOfBounds address s.ip) s

def checkCollision (m : Machine) : Action Unit := fun s =>
  if m.config.flags.checkCollision && s.sp ≤ s.hp then
    .error (.heapStackCollision s.hp s.sp s.ip) s
  else .ok () s

def setSp (sp : Word) : Action Unit := fun s => .ok () { s with sp }

def setFp (fp : Word) : Action Unit := fun s => .ok () { s with fp }

def setHp (hp : Word) : Action Unit := fun s => .ok () { s with hp }

def setRa (ra : Word) : Action Unit := fun s => .ok () { s with ra }

def setTm (tm : Word) : Action Unit := fun s => .ok () { s with tm }

def push (m : Machine) (value : Word) : Action Unit := do
  let sp := (← get).sp - 1
  storeWord sp value
  setSp sp
  m.checkCollision

def pop : Action Word := do
  let sp := (← get).sp
  let value ← loadWord sp
  setSp (sp + 1)
  return value

def fetch (m : Machine) : Action Word := fun s =>
  match m.code[s.ip]? with
  | some word => .ok word { s with ip := s.ip + 1 }
  | none => .error (.codeOutOfBounds s.ip) s

def jump (target : Word) : Action Unit := fun s =>
  match Word.index? target with
  | some ip => .ok () { s with ip }
  | none => .error (.codeOutOfBounds target.toInt) s

end Machine

end ObjectLang
