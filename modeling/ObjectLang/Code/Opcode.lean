import ObjectLang.Word

/-!
Opcodes of the stack machine. Each has a code number, a mnemonic, and either no operand or one
operand word that follows it in the program.
-/
namespace ObjectLang

inductive Opcode where
  | push
  | pop
  | add
  | sub
  | mult
  | div
  | storeW
  | loadW
  | branch
  | branchEq
  | branchLessEq
  | js
  | storeRa
  | loadRa
  | storeTm
  | loadTm
  | loadFp
  | storeFp
  | copyFp
  | storeHp
  | loadHp
  | print
  | halt
  deriving DecidableEq

namespace Opcode

def code : Opcode → Nat
  | .push => 0
  | .pop => 1
  | .add => 2
  | .sub => 3
  | .mult => 4
  | .div => 5
  | .storeW => 6
  | .loadW => 7
  | .branch => 8
  | .branchEq => 9
  | .branchLessEq => 10
  | .js => 11
  | .storeRa => 12
  | .loadRa => 13
  | .storeTm => 14
  | .loadTm => 15
  | .loadFp => 16
  | .storeFp => 17
  | .copyFp => 18
  | .storeHp => 19
  | .loadHp => 20
  | .print => 21
  | .halt => 22

def ofCode? : Nat → Option Opcode
  | 0 => some .push
  | 1 => some .pop
  | 2 => some .add
  | 3 => some .sub
  | 4 => some .mult
  | 5 => some .div
  | 6 => some .storeW
  | 7 => some .loadW
  | 8 => some .branch
  | 9 => some .branchEq
  | 10 => some .branchLessEq
  | 11 => some .js
  | 12 => some .storeRa
  | 13 => some .loadRa
  | 14 => some .storeTm
  | 15 => some .loadTm
  | 16 => some .loadFp
  | 17 => some .storeFp
  | 18 => some .copyFp
  | 19 => some .storeHp
  | 20 => some .loadHp
  | 21 => some .print
  | 22 => some .halt
  | _ => none

def toWord (op : Opcode) : Word := Int32.ofNat op.code

def ofWord? (w : Word) : Option Opcode := (Word.index? w).bind ofCode?

def name : Opcode → String
  | .push => "Push"
  | .pop => "Pop"
  | .add => "Add"
  | .sub => "Sub"
  | .mult => "Mult"
  | .div => "Div"
  | .storeW => "StoreW"
  | .loadW => "LoadW"
  | .branch => "Branch"
  | .branchEq => "BranchEq"
  | .branchLessEq => "BranchLessEq"
  | .js => "Js"
  | .storeRa => "StoreRa"
  | .loadRa => "LoadRa"
  | .storeTm => "StoreTm"
  | .loadTm => "LoadTm"
  | .loadFp => "LoadFp"
  | .storeFp => "StoreFp"
  | .copyFp => "CopyFp"
  | .storeHp => "StoreHp"
  | .loadHp => "LoadHp"
  | .print => "Print"
  | .halt => "Halt"

def mnemonic : Opcode → String
  | .push => "push"
  | .pop => "pop"
  | .add => "add"
  | .sub => "sub"
  | .mult => "mult"
  | .div => "div"
  | .storeW => "storew"
  | .loadW => "loadw"
  | .branch => "branch"
  | .branchEq => "brancheq"
  | .branchLessEq => "branchlesseq"
  | .js => "js"
  | .storeRa => "storera"
  | .loadRa => "loadra"
  | .storeTm => "storetm"
  | .loadTm => "loadtm"
  | .loadFp => "loadfp"
  | .storeFp => "storefp"
  | .copyFp => "copyfp"
  | .storeHp => "storehp"
  | .loadHp => "loadhp"
  | .print => "print"
  | .halt => "halt"

def all : List Opcode := (List.range 23).filterMap ofCode?

def ofMnemonic? (text : String) : Option Opcode := all.find? fun op => op.mnemonic == text

def isBranch : Opcode → Bool
  | .branch | .branchEq | .branchLessEq => true
  | _ => false

def hasOperand (op : Opcode) : Bool := op == .push || op.isBranch

def width (op : Opcode) : Nat := if op.hasOperand then 2 else 1

theorem width_pos (op : Opcode) : 0 < op.width := by
  unfold width
  split <;> decide

theorem ofCode?_code (op : Opcode) : ofCode? op.code = some op := by cases op <;> rfl

end Opcode

end ObjectLang
