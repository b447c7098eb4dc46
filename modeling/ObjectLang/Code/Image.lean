import ObjectLang.Code.Opcode

/-!
Programs as machine words. Every word has the source line it was produced for. Decoding reads
instructions from the front; an instruction is one word, or two if its opcode takes an operand.
-/
namespace ObjectLang

structure Instr where
  op : Opcode
  operand : Option Word := none
  deriving DecidableEq

namespace Instr

def words (i : Instr) : List Word := i.op.toWord :: i.operand.toList

def text (i : Instr) : String :=
  match i.operand with
  | some operand => i.op.mnemonic ++ " " ++ Word.text operand
  | none => i.op.mnemonic

end Instr

inductive DecodeError where
  | outOfBounds (address : Nat)
  | invalidOpcode (word : Word) (address : Nat)
  | missingOperand (op : Opcode) (address : Nat)
  deriving DecidableEq

def DecodeError.message : DecodeError → String
  | .outOfBounds address => s!"address {address} is outside the program"
  | .invalidOpcode word address => s!"invalid opcode {word.toInt} at address {address}"
  | .missingOperand op address => s!"missing operand for {op.name} at address {address}"

structure Image where
  words : List Word := []
  lines : List Line := []
  deriving DecidableEq

namespace Image

def size (p : Image) : Nat := p.words.length

def isEmpty (p : Image) : Bool := p.words.isEmpty

def write (p : Image) (i : Instr) (line : Line) : Image :=
  ⟨p.words ++ i.words, p.lines ++ List.replicate i.words.length line⟩

def ofInstrs (code : List (Instr × Line)) : Image where
  words := code.flatMap fun entry => entry.1.words
  lines := code.flatMap fun entry => List.replicate entry.1.words.length entry.2

def lineAt? (p : Image) (address : Nat) : Option Line := p.lines[address]?

def decodeAt (p : Image) (address : Nat) : Except DecodeError Instr :=
  match p.words[address]? with
  | none => .error (.outOfBounds address)
  | some word =>
    match Opcode.ofWord? word with
    | none => .error (.invalidOpcode word address)
    | some op =>
      if op.hasOperand then
        match p.words[address + 1]? with
        | none => .error (.missingOperand op address)
        | some operand => .ok ⟨op, some operand⟩
      else .ok ⟨op, none⟩

def decodeFrom (address : Nat) : List Word → Except DecodeError (List (Nat × Instr))
  | [] => .ok []
  | word :: rest =>
    match Opcode.ofWord? word with
    | none => .error (.invalidOpcode word address)
    | some op =>
      if op.hasOperand then
        match rest with
        | [] => .error (.missingOperand op address)
        | operand :: rest => do
          let decoded ← decodeFrom (address + 2) rest
          .ok ((address, ⟨op, some operand⟩) :: decoded)
      else do
        let decoded ← decodeFrom (address + 1) rest
        .ok ((address, ⟨op, none⟩) :: decoded)

def instructions (p : Image) : Except DecodeError (List (Nat × Instr)) := decodeFrom 0 p.words

def opcodes (p : Image) : Except DecodeError (List Opcode) := do
  let decoded ← p.instructions
  .ok (decoded.map fun entry => entry.2.op)

def listingLine (address : Nat) (i : Instr) : String :=
  rightAligned 5 (toString address) ++ ": " ++ i.text ++ "\n"

def listing (p : Image) : String :=
  match p.instructions with
  | .ok decoded => String.join (decoded.map fun entry => listingLine entry.1 entry.2)
  | .error error => "<" ++ error.message ++ ">"

end Image

end ObjectLang
