import ObjectLang.Code.Lowering
import ObjectLang.Machine.Run
import ObjectLang.Report
import ObjectLang.Scope.Resolve
import ObjectLang.Typing.Program

/-!
Compiling and running whole programs. A program is resolved and checked; if nothing is reported,
it is turned into machine words, which can then be run.
-/
namespace ObjectLang

structure Options where
  memorySize : Nat := 10000
  flags : Flags := {}
  maxSteps : Option Nat := none

/-- The machine settings for these options; programs may have the default size. -/
def Options.config (o : Options) : Config :=
  { memorySize := o.memorySize, flags := o.flags, maxSteps := o.maxSteps }

structure Compilation where
  program : Program
  report : Report
  image : Option Image
  ty : Option Ty

namespace Program

def report (p : Program) : Report :=
  let resolved := p.resolve
  let checked := resolved.program.check resolved.inheritance
  ({} : Report).addScopeErrors resolved.errors |>.addTypeErrors checked.errors

def compile (options : Options) (p : Program) : Except CodeError Compilation := do
  let resolved := p.resolve
  let checked := resolved.program.check resolved.inheritance
  if p.report.isEmpty then
    let image ← resolved.program.lower options.memorySize
    .ok ⟨resolved.program, p.report, some image, checked.ty⟩
  else .ok ⟨resolved.program, p.report, none, checked.ty⟩

end Program

inductive RunError where
  | rejected (report : Report)
  | code (error : CodeError)
  | fault (fault : Fault)

def RunError.message : RunError → String
  | .rejected report => report.text
  | .code e => e.message
  | .fault f => f.message

namespace Program

def load (options : Options) (p : Program) : Except RunError Machine :=
  match p.compile options with
  | .error error => .error (.code error)
  | .ok compilation =>
    match compilation.image with
    | none => .error (.rejected compilation.report)
    | some image =>
      match Machine.load options.config image with
      | .error fault => .error (.fault fault)
      | .ok machine => .ok machine

end Program

structure Execution where
  machine : Machine
  run : Machine.Run

namespace Execution

def result? (x : Execution) : Option (Except RunError Machine.Outcome) :=
  x.run.result?.map fun
    | .ok outcome => .ok outcome
    | .error fault => .error (.fault fault)

def echo (x : Execution) : String := x.machine.echo x.run.state

end Execution

namespace Program

def execute (options : Options) (budget : Nat) (p : Program) : Except RunError Execution :=
  match p.load options with
  | .error error => .error error
  | .ok m => .ok ⟨m, m.runFor budget m.start⟩

/-- The result of a program; `none` if the budget does not reach the end of its run. -/
def run (options : Options) (budget : Nat) (p : Program) :
    Option (Except RunError Machine.Outcome) :=
  match p.execute options budget with
  | .error error => some (.error error)
  | .ok execution => execution.result?

end Program

/-! Journals of the phases. -/

def Resolved.journal (r : Resolved) : List Record :=
  [.debug s!"resolving program with {r.program.decls.length} top-level declarations"] ++
  r.errors.map (fun e => .debug s!"scope error: {e.message}") ++
  [.debug s!"scope resolution finished with {r.errors.length} errors"]

def Finding.record : Finding → Record
  | .error e => .debug s!"type error: {e.message}"
  | .incomplete => .trace "skipping incomplete node"

def Checked.journal (c : Checked) (decls : Nat) : List Record :=
  [.debug s!"type checking {decls} declarations"] ++
  c.findings.map Finding.record ++
  [.debug s!"type checking finished with {c.errors.length} errors"]

def codeJournal : Except CodeError Image → List Record
  | .ok image => [.debug "generating code", .debug s!"generated {image.size} words"]
  | .error _ => [.debug "generating code"]

namespace Program

def compileJournal (options : Options) (p : Program) : List Record :=
  let resolved := p.resolve
  let checked := resolved.program.check resolved.inheritance
  resolved.journal ++ checked.journal p.decls.length ++
  [.debug s!"{resolved.errors.length} scope errors, {checked.errors.length} type errors"] ++
  if p.report.isEmpty then codeJournal (resolved.program.lower options.memorySize) else []

def runJournal (options : Options) (budget : Nat) (p : Program) : List Record :=
  p.compileJournal options ++
  match p.load options with
  | .error _ => []
  | .ok m => m.runJournal budget

end Program

end ObjectLang
