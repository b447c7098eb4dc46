import ObjectLang.Code.Symbolic
import ObjectLang.Table
import ObjectLang.Tree

/-!
From resolved trees to code. An expression leaves one word on the stack, and so does a declaration:
the value of a variable, the entry address of a function, the address of a class's dispatch table.
Bodies of functions and methods are kept apart from the code that declares them.

A frame holds, from the frame pointer down, the access link, the return address and the locals,
and above the frame pointer the arguments and the caller's frame pointer. An object is addressed
from above its fields, at the word that holds the address of its dispatch table.
-/
namespace ObjectLang

open Symbolic

/-- What code generation hands on: the next unused label, and the entry labels of the methods of
every class so far, by offset. -/
structure Supply where
  next : Nat := 0
  dispatch : Table (List Label) := {}

abbrev Lower := StateT Supply (Except CodeError)

namespace Lower

def reserve (count : Nat) : Lower Nat := fun s => .ok (s.next, { s with next := s.next + count })

def dispatchTable (cls : Option String) : Lower (List Label) :=
  fun s => .ok ((cls.bind s.dispatch.find?).getD [], s)

def setDispatchTable (cls : String) (table : List Label) : Lower Unit :=
  fun s => .ok ((), { s with dispatch := s.dispatch.insert cls table })

def fail {α : Type} (error : CodeError) : Lower α := fun _ => .error error

end Lower

def nullWord : Word := -1

def boolWord (b : Bool) : Word := if b then 1 else 0

/-- Pushes the frame that holds the name. Global names are reached from the fixed global frame and
not by access links, because in a method the access link is the receiver. -/
def Use.frame (globalFrame : Word) (u : Use) : List Symbolic :=
  if u.binding.level = 0 then [push globalFrame] else Sequence.frameWalk u.hops

def Ident.code (globalFrame : Word) (line : Line) (i : Ident) : Lower (List Symbolic) :=
  match i.use with
  | none => Lower.fail (.unresolved i.name line)
  | some use => pure (use.frame globalFrame ++ Sequence.loadOffset use.binding.offset)

/-- Pushes `taken` or `otherwise` by a branch on the two top words. -/
def selectCode (line : Line) (op : Opcode) (taken otherwise : Word) : Lower Code := do
  let first ← Lower.reserve 2
  let yes : Label := ⟨first⟩
  let done : Label := ⟨first + 1⟩
  pure (onLine line [branch op yes, push otherwise, branch .branch done] ++ [.mark yes] ++
    onLine line [push taken] ++ [.mark done])

def BinaryOp.code (line : Line) : BinaryOp → Lower Code
  | .add => pure (onLine line [plain .add])
  | .sub => pure (onLine line [plain .sub])
  | .mul => pure (onLine line [plain .mult])
  | .div => pure (onLine line [plain .div])
  | .eq => selectCode line .branchEq 1 0
  | .le => selectCode line .branchLessEq 1 0
  | .ge => do pure (onLine line Sequence.swap ++ (← selectCode line .branchLessEq 1 0))
  | .and | .or => pure []

/-- The operand value that settles a logical operator. -/
def BinaryOp.deciding : BinaryOp → Word
  | .or => 1
  | _ => 0

namespace Expr

/-- The line of the last instruction of an expression. -/
def endLine : Expr → Line
  | .int line _ | .bool line _ | .null line | .id line _ | .call line _ _ | .new line _ _ _
  | .send line _ _ _ _ | .get line _ _ _ => line
  | .binary _ _ _ rhs => endLine rhs
  | .not _ operand => endLine operand
  | .cond _ _ yes _ => endLine yes
  | .print _ operand => endLine operand

mutual

def code (globalFrame : Word) : Expr → Lower Code
  | .int line value => pure (onLine line [push value])
  | .bool line value => pure (onLine line [push (boolWord value)])
  | .null line => pure (onLine line [push nullWord])
  | .id line ident => do pure (onLine line (← ident.code globalFrame line))
  | .call line callee args =>
    match callee.use with
    | none => Lower.fail (.unresolved callee.name line)
    | some use => do
      let args ← argsBackward globalFrame args
      let target := Sequence.loadOffset use.binding.offset
      let target := if use.binding.ty.isMethod then plain .loadW :: target else target
      pure (onLine line [plain .loadFp] ++ args ++
        onLine line (use.frame globalFrame ++ Sequence.callThrough target))
  | .binary _ op lhs rhs =>
    if op.isLogical then do
      let first ← Lower.reserve 2
      let decided : Label := ⟨first⟩
      let done : Label := ⟨first + 1⟩
      let left ← code globalFrame lhs
      let right ← code globalFrame rhs
      pure (left ++ onLine lhs.endLine [push op.deciding, branch .branchEq decided] ++
        right ++ onLine rhs.endLine [push op.deciding, branch .branchEq decided,
          push (1 - op.deciding), branch .branch done] ++
        [.mark decided] ++ onLine rhs.endLine [push op.deciding] ++ [.mark done])
    else do
      let left ← code globalFrame lhs
      let right ← code globalFrame rhs
      pure (left ++ right ++ (← op.code rhs.endLine))
  | .not _ operand => do
    let operandCode ← code globalFrame operand
    pure (operandCode ++ onLine operand.endLine [push 1] ++
      (← selectCode operand.endLine .branchEq 0 1))
  | .cond _ test yes no => do
    let first ← Lower.reserve 2
    let taken : Label := ⟨first⟩
    let done : Label := ⟨first + 1⟩
    let testCode ← code globalFrame test
    let noCode ← code globalFrame no
    let yesCode ← code globalFrame yes
    pure (testCode ++ onLine test.endLine [push 1, branch .branchEq taken] ++
      noCode ++ onLine no.endLine [branch .branch done] ++
      [.mark taken] ++ yesCode ++ [.mark done])
  | .print _ operand => do
    pure ((← code globalFrame operand) ++ onLine operand.endLine [plain .print])
  | .new line cls args binding =>
    match binding with
    | none => Lower.fail (.unresolved cls line)
    | some binding =>
      match binding.ty with
      | .cls _ => do
        let stores := (List.replicate args.length Sequence.heapStore).flatten
        let args ← argsForward globalFrame args
        pure (args ++ onLine line (stores ++ [push (globalFrame + binding.offset), plain .loadW,
          plain .loadHp, plain .storeW, plain .loadHp] ++ Sequence.heapBump))
      | _ => Lower.fail (.notAClass cls line)
  | .send line object method args binding =>
    match binding with
    | none => Lower.fail (.unresolved method line)
    | some binding => do
      let args ← argsBackward globalFrame args
      let object ← object.code globalFrame line
      pure (onLine line [plain .loadFp] ++ args ++ onLine line (object ++
        Sequence.callThrough (plain .loadW :: Sequence.loadOffset binding.offset)))
  | .get line object field binding =>
    match binding with
    | none => Lower.fail (.unresolved field line)
    | some binding => do
      let object ← object.code globalFrame line
      pure (onLine line (object ++ Sequence.loadOffset binding.offset))

def argsForward (globalFrame : Word) : List Expr → Lower Code
  | [] => pure []
  | arg :: args => do
    let head ← code globalFrame arg
    let tail ← argsForward globalFrame args
    pure (head ++ tail)

def argsBackward (globalFrame : Word) : List Expr → Lower Code
  | [] => pure []
  | arg :: args => do
    let tail ← argsBackward globalFrame args
    let head ← code globalFrame arg
    pure (tail ++ head)

end

end Expr

/-- Code that runs in place, and bodies that stand elsewhere, inner ones before outer ones. -/
structure Fragment where
  inline : Code
  bodies : List Code

namespace Routine

def prologue : List Symbolic := [plain .copyFp, plain .loadRa]

/-- What a body does last: keeps the result, drops the frame and the arguments, and returns. -/
def epilogue (params locals : Nat) : List Symbolic :=
  [plain .storeTm] ++ List.replicate locals (plain .pop) ++ [plain .storeRa, plain .pop] ++
    List.replicate params (plain .pop) ++
    [plain .storeFp, plain .loadTm, plain .loadRa, plain .js]

end Routine

/-- Puts a method's entry at its offset; a method with a new offset goes to the end. -/
def fillSlot {α : Type} (table : List α) (offset : Word) (entry : α) : List α :=
  match Word.index? offset with
  | some index => if index < table.length then table.set index entry else table ++ [entry]
  | none => table ++ [entry]

/-- The dispatch table of a class, made from its parent's; `first` is the number of the first of its
own entry labels. -/
def fillTable (table : List Label) (first : Nat) : List Method → List Label
  | [] => table
  | m :: methods => fillTable (fillSlot table m.offset ⟨first⟩) (first + 1) methods

def tableCode (table : List Label) : List Symbolic :=
  plain .loadHp :: table.flatMap fun entry => pushLabel entry :: Sequence.heapStore

namespace Decl

mutual

def code (globalFrame : Word) : Decl → Lower Fragment
  | .var decl => do pure ⟨← decl.init.code globalFrame, []⟩
  | .fn routine => do
    let entry ← Lower.reserve 1
    let bodies ← routineCode globalFrame ⟨entry⟩ routine
    pure ⟨onLine routine.line [pushLabel ⟨entry⟩], bodies⟩
  | .cls ⟨line, name, parent, _, methods, _, _⟩ => do
    let first ← Lower.reserve methods.length
    let table := fillTable (← Lower.dispatchTable parent) first methods
    Lower.setDispatchTable name table
    let bodies ← methodsCode globalFrame first methods
    pure ⟨onLine line (tableCode table), bodies⟩

def routineCode (globalFrame : Word) (entry : Label) : Routine → Lower (List Code)
  | ⟨line, _, _, params, locals, body⟩ => do
    let inner ← allCode globalFrame locals
    let result ← body.code globalFrame
    let own := [.mark entry] ++ onLine line Routine.prologue ++ inner.inline ++ result ++
      onLine body.endLine (Routine.epilogue params.length locals.length)
    pure (inner.bodies ++ [own])

def methodsCode (globalFrame : Word) (first : Nat) : List Method → Lower (List Code)
  | [] => pure []
  | ⟨routine, _⟩ :: methods => do
    let head ← routineCode globalFrame ⟨first⟩ routine
    let tail ← methodsCode globalFrame (first + 1) methods
    pure (head ++ tail)

def allCode (globalFrame : Word) : List Decl → Lower Fragment
  | [] => pure ⟨[], []⟩
  | d :: ds => do
    let head ← code globalFrame d
    let tail ← allCode globalFrame ds
    pure ⟨head.inline ++ tail.inline, head.bodies ++ tail.bodies⟩

end

end Decl

/-- The main code of a program and its bodies. The first word stands where a body would keep its
return address. -/
def Program.code (globalFrame : Word) (p : Program) : Lower Fragment := do
  let decls ← Decl.allCode globalFrame p.decls
  let result ← p.body.code globalFrame
  pure ⟨onLine 0 [push 0] ++ decls.inline ++ result ++ onLine p.body.endLine [plain .halt],
    decls.bodies⟩

def Program.lower (memorySize : Nat) (p : Program) : Except CodeError Image := do
  let (fragment, _) ← (p.code (Word.ofSize memorySize)).run {}
  Code.layout (fragment.inline ++ fragment.bodies.flatten)

end ObjectLang
