import ObjectLang.Code.Image

/-!
Symbolic code. Branch targets and entry points are labels; a mark gives a label its place between
two instructions. Layout counts words to find the address of each mark, then writes the
instructions with addresses for labels. If a label is marked twice, the first mark counts.
-/
namespace ObjectLang

structure Label where
  id : Nat
  deriving DecidableEq

def Label.text (l : Label) : String := "label" ++ toString l.id

inductive CodeError where
  | unresolved (name : String) (line : Line)
  | notAClass (name : String) (line : Line)
  | unboundLabel (label : Label)
  deriving DecidableEq

def CodeError.message : CodeError → String
  | .unresolved name line => s!"{name} at line {line} has no resolved declaration"
  | .notAClass name line => s!"{name} at line {line} is not a class"
  | .unboundLabel label => s!"label {label.id} was never bound"

structure Labels where
  next : Nat := 0
  addresses : List (Label × Nat) := []

namespace Labels

def fresh (t : Labels) : Label × Labels := (⟨t.next⟩, { t with next := t.next + 1 })

def address? (t : Labels) (l : Label) : Option Nat := t.addresses.lookup l

def bind? (t : Labels) (l : Label) (address : Nat) : Option Labels :=
  match t.address? l with
  | some _ => none
  | none => some { t with addresses := (l, address) :: t.addresses }

/-- Gives a label its address. The first address of a label stays. -/
def bind (t : Labels) (l : Label) (address : Nat) : Labels := (t.bind? l address).getD t

end Labels

inductive Operand where
  | none
  | value (w : Word)
  | label (l : Label)
  deriving DecidableEq

structure Symbolic where
  op : Opcode
  operand : Operand
  deriving DecidableEq

inductive Item where
  | instr (i : Symbolic) (line : Line)
  | mark (l : Label)
  deriving DecidableEq

abbrev Code := List Item

namespace Symbolic

def plain (op : Opcode) : Symbolic := ⟨op, .none⟩

def push (w : Word) : Symbolic := ⟨.push, .value w⟩

def pushLabel (l : Label) : Symbolic := ⟨.push, .label l⟩

def branch (op : Opcode) (l : Label) : Symbolic := ⟨op, .label l⟩

def resolve (labels : Labels) (i : Symbolic) : Except CodeError Instr :=
  match i.operand with
  | .none => .ok ⟨i.op, Option.none⟩
  | .value w => .ok ⟨i.op, some w⟩
  | .label l =>
    match labels.address? l with
    | some address => .ok ⟨i.op, some (Int32.ofNat address)⟩
    | Option.none => .error (.unboundLabel l)

def onLine (line : Line) (code : List Symbolic) : Code := code.map fun i => .instr i line

end Symbolic

namespace Item

def width : Item → Nat
  | .instr i _ => i.op.width
  | .mark _ => 0

end Item

namespace Code

/-- Binds every mark of code that starts at an address. -/
def place (labels : Labels) (address : Nat) : List Item → Labels
  | [] => labels
  | .mark l :: items => place (labels.bind l address) address items
  | .instr i _ :: items => place labels (address + i.op.width) items

def resolve (labels : Labels) : List Item → Except CodeError (List (Instr × Line))
  | [] => .ok []
  | .mark _ :: items => resolve labels items
  | .instr i line :: items => do
    let head ← i.resolve labels
    let tail ← resolve labels items
    .ok ((head, line) :: tail)

def layout (code : Code) : Except CodeError Image := do
  let resolved ← resolve (place {} 0 code) code
  .ok (Image.ofInstrs resolved)

end Code

/-! Instruction sequences of the calling and object conventions. -/
namespace Sequence

open Symbolic

/-- Replaces the address on top of the stack by the word `offset` away from it. -/
def loadOffset (offset : Word) : List Symbolic := [push offset, plain .add, plain .loadW]

def frameWalk (hops : Nat) : List Symbolic := plain .loadFp :: List.replicate hops (plain .loadW)

def swap : List Symbolic := [plain .storeTm, plain .storeRa, plain .loadTm, plain .loadRa]

def heapBump : List Symbolic := [plain .loadHp, push 1, plain .add, plain .storeHp]

def heapStore : List Symbolic := plain .loadHp :: plain .storeW :: heapBump

/-- Before the target of a call is computed: keeps the access link on top of the stack twice. -/
def callStart : List Symbolic := [plain .storeTm, plain .loadTm, plain .loadTm]

/-- Calls the routine whose address `target` computes from the access link. -/
def callThrough (target : List Symbolic) : List Symbolic := callStart ++ target ++ [plain .js]

end Sequence

end ObjectLang
