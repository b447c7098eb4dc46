import ObjectLang.Machine.State

/-!
One instruction of the machine.
-/
namespace ObjectLang.Machine

def combine (m : Machine) (f : Word → Word → Word) : Action Unit := do
  let upper ← pop
  let lower ← pop
  m.push (f lower upper)

/-- Fetches a target, pops two words and jumps if the lower and the upper one are related. -/
def branchIf (m : Machine) (test : Word → Word → Bool) : Action Unit := do
  let target ← m.fetch
  let upper ← pop
  let lower ← pop
  if test lower upper then jump target

/-- Keeps the word on top of the stack as printed; an empty stack prints nothing. -/
def printTop : Action Unit := fun s =>
  match s.top? with
  | some value => .ok () { s with printed := s.printed.push value }
  | none => .ok () s

/-- Executes an instruction whose opcode, at address `start`, has been fetched. -/
def exec (m : Machine) (start : Nat) : Opcode → Action Unit
  | .push => do m.push (← m.fetch)
  | .pop => do let _ ← pop
  | .add => m.combine (· + ·)
  | .sub => m.combine (· - ·)
  | .mult => m.combine (· * ·)
  | .div => do
    let divisor ← pop
    let dividend ← pop
    if divisor = 0 then throw (.divisionByZero start)
    m.push (dividend / divisor)
  | .storeW => do
    let address ← pop
    let value ← pop
    storeWord address value
  | .loadW => do
    let address ← pop
    m.push (← loadWord address)
  | .branch => do jump (← m.fetch)
  | .branchEq => m.branchIf (· == ·)
  | .branchLessEq => m.branchIf fun lower upper => lower ≤ upper
  | .js => do
    let target ← pop
    setRa (Int32.ofNat (← get).ip)
    jump target
  | .storeRa => do setRa (← pop)
  | .loadRa => do m.push (← get).ra
  | .storeTm => do setTm (← pop)
  | .loadTm => do m.push (← get).tm
  | .loadFp => do m.push (← get).fp
  | .storeFp => do setFp (← pop)
  | .copyFp => do setFp (← get).sp
  | .storeHp => do
    setHp (← pop)
    m.checkCollision
  | .loadHp => do m.push (← get).hp
  | .print => printTop
  | .halt => modify fun s => { s with halted := true }

def execNext (m : Machine) : Action Unit := do
  let start := (← get).ip
  let word ← m.fetch
  match Opcode.ofWord? word with
  | none => throw (.invalidOpcode word start)
  | some op => m.exec start op

def exhausted? (m : Machine) (s : State) : Option Nat :=
  m.config.maxSteps.filter fun limit => limit ≤ s.steps

/-- Counts and executes one instruction. A halted machine does nothing, and without a step left the
state stays as it is; an instruction that fails counts. -/
def step (m : Machine) : Action Unit := fun s =>
  if s.halted then .ok () s
  else match m.exhausted? s with
    | some limit => .error (.stepLimitExceeded limit) s
    | none => m.execNext { s with steps := s.steps + 1 }

end ObjectLang.Machine
