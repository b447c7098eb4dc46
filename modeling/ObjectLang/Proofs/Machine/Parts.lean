import ObjectLang.Code.Image
import ObjectLang.Machine.Step

/-!
Instructions by their parts. An instruction reads its inputs: it fetches its operand, if it has one,
and pops the words it takes. Then it acts, once. What the act is depends on the opcode and the
inputs alone; so the opcodes are told apart in one table, and what instructions keep, and how
machines compare, is a matter of the acts and of how words are fetched, pushed and popped.
-/
namespace ObjectLang

/-- What an instruction does when it has its inputs. A load pushes the word it loads, and a call
saves the address it returns to. -/
inductive Machine.Act where
  | nothing
  | fails (fault : Fault)
  | pushes (value : State → Word)
  | loads (address : Word)
  | stores (address value : Word)
  | jumps (target : Word)
  | calls (target : Word)
  | setsRa (ra : Word)
  | setsTm (tm : Word)
  | setsFp (value : State → Word)
  | setsHp (hp : Word)
  | prints
  | halts

namespace Opcode

def taken : Opcode → Nat
  | .push | .branch | .loadRa | .loadTm | .loadFp | .loadHp | .copyFp | .print | .halt => 0
  | .pop | .loadW | .js | .storeRa | .storeTm | .storeFp | .storeHp => 1
  | .add | .sub | .mult | .div | .storeW | .branchEq | .branchLessEq => 2

def given : Opcode → Nat
  | .push | .add | .sub | .mult | .div | .loadW | .loadRa | .loadTm | .loadFp | .loadHp => 1
  | _ => 0

/-- The act of an opcode at address `start`. The inputs are the operand and then the words that are
taken, the topmost first. -/
def act (start : Nat) : Opcode → List Word → Machine.Act
  | .push, [w] => .pushes fun _ => w
  | .add, [upper, lower] => .pushes fun _ => lower + upper
  | .sub, [upper, lower] => .pushes fun _ => lower - upper
  | .mult, [upper, lower] => .pushes fun _ => lower * upper
  | .div, [divisor, dividend] =>
    if divisor = 0 then .fails (.divisionByZero start) else .pushes fun _ => dividend / divisor
  | .storeW, [address, value] => .stores address value
  | .loadW, [address] => .loads address
  | .branch, [target] => .jumps target
  | .branchEq, [target, upper, lower] => if lower = upper then .jumps target else .nothing
  | .branchLessEq, [target, upper, lower] => if lower ≤ upper then .jumps target else .nothing
  | .js, [target] => .calls target
  | .storeRa, [w] => .setsRa w
  | .storeTm, [w] => .setsTm w
  | .storeFp, [w] => .setsFp fun _ => w
  | .storeHp, [w] => .setsHp w
  | .loadRa, [] => .pushes (·.ra)
  | .loadTm, [] => .pushes (·.tm)
  | .loadFp, [] => .pushes (·.fp)
  | .loadHp, [] => .pushes (·.hp)
  | .copyFp, [] => .setsFp (·.sp)
  | .print, [] => .prints
  | .halt, [] => .halts
  | _, _ => .nothing

variable {start : Nat}

theorem act_div {divisor dividend : Word} : act start .div [divisor, dividend] =
    if divisor = 0 then .fails (.divisionByZero start) else .pushes fun _ => dividend / divisor :=
  rfl

theorem act_branchEq {target upper lower : Word} : act start .branchEq [target, upper, lower] =
    if lower = upper then .jumps target else .nothing :=
  rfl

theorem act_branchLessEq {target upper lower : Word} :
    act start .branchLessEq [target, upper, lower] =
      if lower ≤ upper then .jumps target else .nothing :=
  rfl

end Opcode

namespace Machine

/-- The actions in which the instructions of two machines may differ. -/
structure Parts where
  fetch : Action Word
  push : Word → Action Unit
  pop : Action Word
  check : Action Unit

def parts (m : Machine) : Parts := ⟨m.fetch, m.push, Machine.pop, m.checkCollision⟩

namespace Parts

variable (p : Parts)

def operand (op : Opcode) : Action (List Word) :=
  if op.hasOperand then do return [← p.fetch] else return []

def pops : Nat → Action (List Word)
  | 0 => return []
  | count + 1 => do
    let w ← p.pop
    return w :: (← pops count)

def inputs (op : Opcode) : Action (List Word) := do
  let operand ← p.operand op
  return operand ++ (← p.pops op.taken)

def run : Act → Action Unit
  | .nothing => return ()
  | .fails fault => throw fault
  | .pushes value => do p.push (value (← get))
  | .loads address => do p.push (← loadWord address)
  | .stores address value => storeWord address value
  | .jumps target => jump target
  | .calls target => do
    setRa (Int32.ofNat (← get).ip)
    jump target
  | .setsRa ra => setRa ra
  | .setsTm tm => setTm tm
  | .setsFp value => do setFp (value (← get))
  | .setsHp hp => do
    setHp hp
    p.check
  | .prints => printTop
  | .halts => modify fun s => { s with halted := true }

def exec (start : Nat) (op : Opcode) : Action Unit := do p.run (op.act start (← p.inputs op))

def execNext : Action Unit := do
  let start := (← get).ip
  let word ← p.fetch
  match Opcode.ofWord? word with
  | none => throw (.invalidOpcode word start)
  | some op => p.exec start op

def step (m : Machine) : Action Unit := fun s =>
  if s.halted then .ok () s
  else match m.exhausted? s with
    | some limit => .error (.stepLimitExceeded limit) s
    | none => p.execNext { s with steps := s.steps + 1 }

theorem run_pushes (value : State → Word) (s : State) :
    p.run (.pushes value) s = p.push (value s) s := rfl

end Parts

section Reading

variable {p : Parts} {start : Nat} {op : Opcode}

theorem Parts.exec_alone (bare : op.hasOperand = false) (none : op.taken = 0) :
    p.exec start op = p.run (op.act start []) := by
  simp [exec, inputs, operand, bare, none, pops]

theorem Parts.exec_one (bare : op.hasOperand = false) (one : op.taken = 1) :
    p.exec start op = (do p.run (op.act start [← p.pop])) := by
  simp [exec, inputs, operand, bare, one, pops]

theorem Parts.exec_two (bare : op.hasOperand = false) (two : op.taken = 2) :
    p.exec start op = (do
      let upper ← p.pop
      let lower ← p.pop
      p.run (op.act start [upper, lower])) := by
  simp [exec, inputs, operand, bare, two, pops]

theorem Parts.exec_operand (takes : op.hasOperand = true) (none : op.taken = 0) :
    p.exec start op = (do p.run (op.act start [← p.fetch])) := by
  simp [exec, inputs, operand, takes, none, pops]

theorem Parts.exec_branch (takes : op.hasOperand = true) (two : op.taken = 2) :
    p.exec start op = (do
      let target ← p.fetch
      let upper ← p.pop
      let lower ← p.pop
      p.run (op.act start [target, upper, lower])) := by
  simp [exec, inputs, operand, takes, two, pops]

end Reading

/-- The table of acts says what instructions do. -/
theorem exec_parts (m : Machine) (start : Nat) (op : Opcode) :
    m.exec start op = m.parts.exec start op := by
  have pushed (w : Word) : m.push w = m.parts.run (.pushes fun _ => w) :=
    funext fun s => (m.parts.run_pushes (fun _ => w) s).symm
  cases op with
  | push =>
    rw [Parts.exec_operand rfl rfl]
    exact bind_congr fun w => pushed w
  | branch =>
    rw [Parts.exec_operand rfl rfl]
    rfl
  | branchEq | branchLessEq =>
    rw [Parts.exec_branch rfl rfl]
    refine bind_congr fun (target : Word) => bind_congr fun upper => bind_congr fun lower => ?_
    simp only [Opcode.act_branchEq, Opcode.act_branchLessEq, beq_iff_eq, decide_eq_true_eq]
    split <;> rfl
  | add | sub | mult =>
    rw [Parts.exec_two rfl rfl]
    exact bind_congr fun upper => bind_congr fun lower => pushed _
  | div =>
    rw [Parts.exec_two rfl rfl]
    refine bind_congr fun divisor => bind_congr fun dividend => ?_
    rw [Opcode.act_div]
    split
    · rfl
    · exact pushed _
  | storeW =>
    rw [Parts.exec_two rfl rfl]
    rfl
  | pop | loadW | js | storeRa | storeTm | storeFp | storeHp =>
    rw [Parts.exec_one rfl rfl]
    rfl
  | loadRa | loadTm | loadFp | loadHp | copyFp | print | halt =>
    rw [Parts.exec_alone rfl rfl]
    rfl

theorem step_parts (m : Machine) : m.step = m.parts.step m := by
  have next : m.execNext = m.parts.execNext := by
    unfold execNext Parts.execNext
    simp only [exec_parts]
    rfl
  funext s
  cases limited : m.exhausted? s with
  | some limit => simp [step, Parts.step, limited]
  | none => simp [step, Parts.step, limited, next]

inductive Shared : {α : Type} → Action α → Prop
  | done {α : Type} (a : α) : Shared (pure a)
  | fails {α : Type} (fault : Fault) : Shared (throw fault : Action α)
  | reads : Shared (get : Action State)
  | loads (address : Word) : Shared (loadWord address)
  | stores (address value : Word) : Shared (storeWord address value)
  | setsFp (w : Word) : Shared (setFp w)
  | setsHp (w : Word) : Shared (setHp w)
  | setsRa (w : Word) : Shared (setRa w)
  | setsTm (w : Word) : Shared (setTm w)
  | jumps (target : Word) : Shared (jump target)
  | prints : Shared printTop
  | halts : Shared (modify fun s => { s with halted := true } : Action Unit)

/-- Relations between actions that hold of the shared ones, and of sequences of related actions. -/
structure Lifts (R : (α : Type) → Action α → Action α → Prop) : Prop where
  shared : ∀ {α : Type} {x : Action α}, Shared x → R α x x
  bind : ∀ {α β : Type} {x y : Action α} {f g : α → Action β}, R α x y →
    (∀ a, R β (f a) (g a)) → R β (x >>= f) (y >>= g)

structure Parts.Related (R : (α : Type) → Action α → Action α → Prop) (p q : Parts) : Prop where
  fetch : R Word p.fetch q.fetch
  push : ∀ w, R Unit (p.push w) (q.push w)
  pop : R Word p.pop q.pop
  check : R Unit p.check q.check

namespace Lifts

variable {R : (α : Type) → Action α → Action α → Prop} {p q : Parts}

theorem operand (lifts : Lifts R) (related : p.Related R q) (op : Opcode) :
    R (List Word) (p.operand op) (q.operand op) := by
  unfold Parts.operand
  split
  · exact lifts.bind related.fetch fun w => lifts.shared (.done [w])
  · exact lifts.shared (.done [])

theorem pops (lifts : Lifts R) (related : p.Related R q) (count : Nat) :
    R (List Word) (p.pops count) (q.pops count) := by
  induction count with
  | zero => exact lifts.shared (.done [])
  | succ count ih =>
    exact lifts.bind related.pop fun w => lifts.bind ih fun ws => lifts.shared (.done (w :: ws))

theorem run (lifts : Lifts R) (related : p.Related R q) (act : Act) :
    R Unit (p.run act) (q.run act) := by
  cases act with
  | nothing => exact lifts.shared (.done ())
  | fails fault => exact lifts.shared (.fails fault)
  | pushes value => exact lifts.bind (lifts.shared .reads) fun s => related.push (value s)
  | loads address => exact lifts.bind (lifts.shared (.loads address)) related.push
  | stores address value => exact lifts.shared (.stores address value)
  | jumps target => exact lifts.shared (.jumps target)
  | calls target =>
    exact lifts.bind (lifts.shared .reads) fun _ =>
      lifts.bind (lifts.shared (.setsRa _)) fun _ => lifts.shared (.jumps target)
  | setsRa ra => exact lifts.shared (.setsRa ra)
  | setsTm tm => exact lifts.shared (.setsTm tm)
  | setsFp value => exact lifts.bind (lifts.shared .reads) fun s => lifts.shared (.setsFp (value s))
  | setsHp hp => exact lifts.bind (lifts.shared (.setsHp hp)) fun _ => related.check
  | prints => exact lifts.shared .prints
  | halts => exact lifts.shared .halts

theorem exec (lifts : Lifts R) (related : p.Related R q) (start : Nat) (op : Opcode) :
    R Unit (p.exec start op) (q.exec start op) := by
  have inputs : R (List Word) (p.inputs op) (q.inputs op) :=
    lifts.bind (lifts.operand related op) fun operand =>
      lifts.bind (lifts.pops related op.taken) fun words => lifts.shared (.done (operand ++ words))
  exact lifts.bind inputs fun words => lifts.run related (op.act start words)

theorem execNext (lifts : Lifts R) (related : p.Related R q) : R Unit p.execNext q.execNext := by
  refine lifts.bind (lifts.shared .reads) fun _ => lifts.bind related.fetch fun word => ?_
  split
  · exact lifts.shared (.fails _)
  · exact lifts.exec related _ _

end Lifts

end Machine

end ObjectLang
