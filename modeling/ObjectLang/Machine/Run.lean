import ObjectLang.Journal
import ObjectLang.Machine.Step

/-!
Runs of the machine. A run goes on until the machine halts or fails; a budget of steps bounds how
far it is followed. The records and the echo of a run are read off its states, so they cannot
change it.
-/
namespace ObjectLang.Machine

inductive Run where
  | running (s : State)
  | halted (s : State)
  | failed (fault : Fault) (s : State)

def Run.state : Run → State
  | .running s | .halted s | .failed _ s => s

def runFor (m : Machine) : (budget : Nat) → State → Run
  | 0, s => if s.halted then .halted s else .running s
  | budget + 1, s =>
    if s.halted then .halted s
    else match m.step s with
      | .ok _ s => m.runFor budget s
      | .error fault s => .failed fault s

structure Outcome where
  printed : List Word
  stackTop : Option Word
  steps : Nat
  deriving DecidableEq

def State.outcome (s : State) : Outcome := ⟨s.printed.toList, s.top?, s.steps⟩

def Run.result? : Run → Option (Except Fault Outcome)
  | .running _ => none
  | .halted s => some (.ok s.outcome)
  | .failed fault _ => some (.error fault)

def execute (config : Config) (budget : Nat) (p : Image) : Option (Except Fault Outcome) :=
  match load config p with
  | .error fault => some (.error fault)
  | .ok m => (m.runFor budget m.start).result?

def echo (m : Machine) (s : State) : String :=
  if m.config.flags.echo then
    String.join (s.printed.toList.map fun value => Word.text value ++ "\n")
  else ""

def nextOpcode? (m : Machine) (s : State) : Option Opcode :=
  if s.halted || (m.exhausted? s).isSome then none else m.code[s.ip]?.bind Opcode.ofWord?

def State.registers (s : State) : String :=
  s!"sp={s.sp.toInt} fp={s.fp.toInt} hp={s.hp.toInt} ra={s.ra.toInt} tm={s.tm.toInt}"

def stepJournal (m : Machine) (s : State) : List Record :=
  match m.nextOpcode? s with
  | none => []
  | some op =>
    (if m.config.flags.trace then
      [Record.trace s!"{rightAligned 5 (toString s.ip)}: {op.mnemonic} {s.registers}"]
    else []) ++
    (if op = .print ∧ s.top?.isNone then
      [Record.warn s!"print on an empty stack at instruction {s.ip}"]
    else [])

def stepsJournal (m : Machine) :
    (budget : Nat) → State → (before : Array Record) → Array Record
  | 0, _, before => before
  | budget + 1, s, before =>
    if s.halted then before
    else
      let records := before.appendList (m.stepJournal s)
      match m.step s with
      | .ok _ s => m.stepsJournal budget s records
      | .error _ _ => records

def topText : Option Word → String
  | some value => "Some(" ++ Word.text value ++ ")"
  | none => "None"

def runJournal (m : Machine) (budget : Nat) : List Record :=
  [Record.debug s!"running {m.code.size} words of code"] ++
  (m.stepsJournal budget m.start #[]).toList ++
  match m.runFor budget m.start with
  | .halted s =>
    [Record.info s!"halted after {s.steps} steps with {topText s.top?} on top of the stack"]
  | .running _ | .failed _ _ => []

/-- Calls `step` `count` times, whether or not it succeeds, and gives the state after each call with
the fault of the call. -/
def calls (m : Machine) : (count : Nat) → State → List (Option Fault × State)
  | 0, _ => []
  | count + 1, s =>
    match m.step s with
    | .ok _ s => (none, s) :: m.calls count s
    | .error fault s => (some fault, s) :: m.calls count s

def callsJournal (m : Machine) : (count : Nat) → State → List Record
  | 0, _ => []
  | count + 1, s =>
    m.stepJournal s ++
      match m.step s with
      | .ok _ s => m.callsJournal count s
      | .error _ s => m.callsJournal count s

end ObjectLang.Machine
