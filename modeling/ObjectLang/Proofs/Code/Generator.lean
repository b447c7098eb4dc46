import ObjectLang.Code.Builder
import ObjectLang.Code.Lowering

/-!
Code generation as calls on one builder. A walk over the tree sets the line of every node it comes
to, asks for labels one at a time, and emits a few instructions at a time into whatever body is
open; the bodies of functions and methods are opened and closed as they come. The lowering of a
program has none of this state but the supply of labels: it gives the code of each node and puts it
together. The two produce the same program, or fail with the same error.
-/
namespace ObjectLang

open Symbolic

structure Generator where
  builder : Builder := {}
  dispatch : Table (List Label) := {}

abbrev Generate := StateT Generator (Except CodeError)

namespace Generate

def build (f : Builder → Builder) : Generate Unit := fun g =>
  .ok ((), { g with builder := f g.builder })

def setLine (line : Line) : Generate Unit := build (·.setLine line)

def emit (code : List Symbolic) : Generate Unit := build (·.emit code)

def mark (l : Label) : Generate Unit := build (·.mark l)

def openBody : Generate Unit := build Builder.openBody

def closeBody : Generate Unit := build Builder.closeBody

def fresh : Generate Label := fun g =>
  .ok (g.builder.fresh.1, { g with builder := g.builder.fresh.2 })

def dispatchTable (cls : Option String) : Generate (List Label) := fun g =>
  .ok ((cls.bind g.dispatch.find?).getD [], g)

def setDispatchTable (cls : String) (table : List Label) : Generate Unit := fun g =>
  .ok ((), { g with dispatch := g.dispatch.insert cls table })

def fail {α : Type} (error : CodeError) : Generate α := fun _ => .error error

def inBody (inside : Generate Unit) : Generate Unit := do
  openBody
  inside
  closeBody

def callThrough (target : Generate Unit) : Generate Unit := do
  emit Sequence.callStart
  target
  emit [plain .js]

def select (op : Opcode) (taken otherwise : Word) : Generate Unit := do
  let yes ← fresh
  let done ← fresh
  emit [branch op yes]
  emit [push otherwise]
  emit [branch .branch done]
  mark yes
  emit [push taken]
  mark done

end Generate

open Generate

def Use.generate (globalFrame : Word) (u : Use) : Generate Unit :=
  if u.binding.level = 0 then emit [push globalFrame] else emit (Sequence.frameWalk u.hops)

def Use.generateTarget (u : Use) : Generate Unit := do
  if u.binding.ty.isMethod then emit [plain .loadW]
  emit (Sequence.loadOffset u.binding.offset)

def Ident.generate (globalFrame : Word) (line : Line) (i : Ident) : Generate Unit :=
  match i.use with
  | none => fail (.unresolved i.name line)
  | some use => do
    use.generate globalFrame
    emit (Sequence.loadOffset use.binding.offset)

def BinaryOp.generate : BinaryOp → Generate Unit
  | .add => emit [plain .add]
  | .sub => emit [plain .sub]
  | .mul => emit [plain .mult]
  | .div => emit [plain .div]
  | .eq => select .branchEq 1 0
  | .le => select .branchLessEq 1 0
  | .ge => do
    emit Sequence.swap
    select .branchLessEq 1 0
  | .and | .or => pure ()

namespace Expr

mutual

def generate (globalFrame : Word) : Expr → Generate Unit
  | .int line value => do
    setLine line
    emit [push value]
  | .bool line value => do
    setLine line
    emit [push (boolWord value)]
  | .null line => do
    setLine line
    emit [push nullWord]
  | .id line ident => do
    setLine line
    ident.generate globalFrame line
  | .call line callee args => do
    setLine line
    match callee.use with
    | none => fail (.unresolved callee.name line)
    | some use =>
      emit [plain .loadFp]
      generateBackward globalFrame args
      setLine line
      use.generate globalFrame
      callThrough use.generateTarget
  | .binary line op lhs rhs => do
    setLine line
    if op.isLogical then
      let decided ← fresh
      let done ← fresh
      generate globalFrame lhs
      emit [push op.deciding]
      emit [branch .branchEq decided]
      generate globalFrame rhs
      emit [push op.deciding]
      emit [branch .branchEq decided]
      emit [push (1 - op.deciding)]
      emit [branch .branch done]
      mark decided
      emit [push op.deciding]
      mark done
    else
      generate globalFrame lhs
      generate globalFrame rhs
      op.generate
  | .not line operand => do
    setLine line
    generate globalFrame operand
    emit [push 1]
    select .branchEq 0 1
  | .cond line test yes no => do
    setLine line
    let taken ← fresh
    let done ← fresh
    generate globalFrame test
    emit [push 1]
    emit [branch .branchEq taken]
    generate globalFrame no
    emit [branch .branch done]
    mark taken
    generate globalFrame yes
    mark done
  | .print line operand => do
    setLine line
    generate globalFrame operand
    emit [plain .print]
  | .new line cls args binding => do
    setLine line
    match binding with
    | none => fail (.unresolved cls line)
    | some binding =>
      match binding.ty with
      | .cls _ =>
        generateForward globalFrame args
        setLine line
        args.forM fun _ => emit Sequence.heapStore
        emit [push (globalFrame + binding.offset)]
        emit [plain .loadW]
        emit [plain .loadHp]
        emit [plain .storeW]
        emit [plain .loadHp]
        emit Sequence.heapBump
      | _ => fail (.notAClass cls line)
  | .send line object method args binding => do
    setLine line
    match binding with
    | none => fail (.unresolved method line)
    | some binding =>
      emit [plain .loadFp]
      generateBackward globalFrame args
      setLine line
      object.generate globalFrame line
      callThrough do
        emit [plain .loadW]
        emit (Sequence.loadOffset binding.offset)
  | .get line object field binding => do
    setLine line
    match binding with
    | none => fail (.unresolved field line)
    | some binding =>
      object.generate globalFrame line
      emit (Sequence.loadOffset binding.offset)

def generateForward (globalFrame : Word) : List Expr → Generate Unit
  | [] => pure ()
  | arg :: args => do
    generate globalFrame arg
    generateForward globalFrame args

def generateBackward (globalFrame : Word) : List Expr → Generate Unit
  | [] => pure ()
  | arg :: args => do
    generateBackward globalFrame args
    generate globalFrame arg

end

end Expr

namespace Decl

def generateEpilogue (params : List Param) (locals : List Decl) : Generate Unit := do
  emit [plain .storeTm]
  locals.forM fun _ => emit [plain .pop]
  emit [plain .storeRa]
  emit [plain .pop]
  params.forM fun _ => emit [plain .pop]
  emit [plain .storeFp]
  emit [plain .loadTm]
  emit [plain .loadRa]
  emit [plain .js]

def generateEntries (table : List Label) : List Method → Generate (List Label × List Label)
  | [] => pure ([], table)
  | m :: methods => do
    let entry ← fresh
    let (entries, table) ← generateEntries (fillSlot table m.offset entry) methods
    return (entry :: entries, table)

def generateTable (table : List Label) : Generate Unit := do
  emit [plain .loadHp]
  table.forM fun entry => do
    emit [pushLabel entry]
    emit Sequence.heapStore

mutual

def generate (globalFrame : Word) : Decl → Generate Unit
  | .var decl => do
    setLine decl.line
    decl.init.generate globalFrame
  | .fn routine => do
    setLine routine.line
    let entry ← fresh
    emit [pushLabel entry]
    generateBody globalFrame entry routine
  | .cls ⟨line, name, parent, _, methods, _, _⟩ => do
    setLine line
    let (entries, table) ← generateEntries (← dispatchTable parent) methods
    generateTable table
    setDispatchTable name table
    generateMethods globalFrame entries methods

def generateBody (globalFrame : Word) (entry : Label) : Routine → Generate Unit
  | ⟨_, _, _, params, locals, body⟩ => inBody do
    mark entry
    emit [plain .copyFp]
    emit [plain .loadRa]
    generateAll globalFrame locals
    body.generate globalFrame
    generateEpilogue params locals

def generateMethods (globalFrame : Word) : List Label → List Method → Generate Unit
  | entry :: entries, ⟨routine, _⟩ :: methods => do
    setLine routine.line
    generateBody globalFrame entry routine
    generateMethods globalFrame entries methods
  | _, _ => pure ()

def generateAll (globalFrame : Word) : List Decl → Generate Unit
  | [] => pure ()
  | d :: ds => do
    generate globalFrame d
    generateAll globalFrame ds

end

end Decl

def Program.generator (globalFrame : Word) (p : Program) : Generate Unit := do
  emit [push 0]
  Decl.generateAll globalFrame p.decls
  p.body.generate globalFrame
  emit [plain .halt]

def Program.generate (memorySize : Nat) (p : Program) : Except CodeError Image := do
  let (_, last) ← p.generator (Word.ofSize memorySize) {}
  last.builder.finish

/-! A generator and the supply it stands for. -/

/-- The generator at a line that has made a builder's code with the labels of a supply. -/
def Generator.of (b : Builder) (line : Line) (s : Supply) : Generator :=
  ⟨{ b with line, nextLabel := s.next }, s.dispatch⟩

/-- Between two lines, the generator adds to its builder what the lowering gives. -/
def Emits {α : Type} (grow : Builder → α → Builder) (l l' : Line) (x : Generate Unit)
    (y : Lower α) : Prop :=
  ∀ b s, x (.of b l s) = (y s).map fun r => ((), .of (grow b r.1) l' r.2)

def Lower.seq (y y' : Lower Code) : Lower Code := do
  let first ← y
  let second ← y'
  pure (first ++ second)

section Emits

variable {α β γ : Type} {grow : Builder → α → Builder} {l l' m : Line} {x x' : Generate Unit}
  {y : Lower α}

theorem Emits.bind {grow' : Builder → β → Builder} {grow'' : Builder → γ → Builder} {y' : Lower β}
    {f : α → β → γ} (first : Emits grow l m x y) (second : Emits grow' m l' x' y')
    (joins : ∀ b a c, grow' (grow b a) c = grow'' b (f a c)) :
    Emits grow'' l l' (x >>= fun _ => x') (do
      let a ← y
      let c ← y'
      pure (f a c)) := by
  intro b s
  have begun := first b s
  simp only [Bind.bind, StateT.bind, begun]
  cases y s with
  | error e => rfl
  | ok r =>
    have rest := second (grow b r.1) r.2
    simp only [Except.map, Except.bind, rest]
    cases y' r.2 with
    | error e => rfl
    | ok r' => simp only [joins]; rfl

theorem Emits.of_eq {y' : Lower α} (emits : Emits grow l l' x y) (same : y = y') :
    Emits grow l l' x y' :=
  same ▸ emits

theorem Emits.nothing {a : α} (same : ∀ b, grow b a = b) : Emits grow l l (pure ()) (pure a) := by
  intro b s
  show Except.ok ((), Generator.of b l s) = .ok ((), .of (grow b a) l s)
  rw [same]

theorem Builder.append_nil (b : Builder) : b.append [] = b := by
  obtain ⟨_, _, opened, _, _⟩ := b
  cases opened <;> simp [Builder.append]

theorem Builder.append_append (b : Builder) (c d : Code) :
    (b.append c).append d = b.append (c ++ d) := by
  obtain ⟨_, _, opened, _, _⟩ := b
  cases opened <;> simp [Builder.append]

theorem Emits.seq {y y' : Lower Code} (first : Emits Builder.append l m x y)
    (second : Emits Builder.append m l' x' y') :
    Emits Builder.append l l' (x >>= fun _ => x') (y.seq y') :=
  first.bind second Builder.append_append

theorem Emits.atLine (rest : Emits grow m l' x y) (l : Line) :
    Emits grow l l' (setLine m >>= fun _ => x) y :=
  rest

theorem emits_emit (l : Line) (code : List Symbolic) :
    Emits Builder.append l l (emit code) (pure (onLine l code)) := by
  intro b s
  obtain ⟨_, _, opened, _, _⟩ := b
  cases opened <;> rfl

theorem emits_mark (l : Line) (label : Label) :
    Emits Builder.append l l (mark label) (pure [.mark label]) := by
  intro b s
  obtain ⟨_, _, opened, _, _⟩ := b
  cases opened <;> rfl

theorem emits_pure (l : Line) : Emits Builder.append l l (pure ()) (pure []) :=
  .nothing Builder.append_nil

theorem emits_fail (grow : Builder → α → Builder) (l l' : Line) (e : CodeError) :
    Emits grow l l' (fail e) (Lower.fail e) :=
  fun _ _ => rfl

theorem Emits.reserve {x : Label → Label → Generate Unit} {y : Nat → Lower α}
    (rest : ∀ n, Emits grow l l' (x ⟨n⟩ ⟨n + 1⟩) (y n)) :
    Emits grow l l' (do
      let first ← fresh
      let second ← fresh
      x first second) (Lower.reserve 2 >>= y) :=
  fun b s => rest s.next b { s with next := s.next + 2 }

theorem emits_forM {f : β → Generate Unit} {code : β → List Symbolic}
    (each : ∀ a, Emits Builder.append l l (f a) (pure (onLine l (code a)))) (as : List β) :
    Emits Builder.append l l (as.forM f) (pure (onLine l (as.flatMap code))) := by
  induction as with
  | nil => exact emits_pure l
  | cons a as ih =>
    exact ((each a).seq ih).of_eq (by simp [Lower.seq, onLine])

theorem emits_repeat (l : Line) (code : List Symbolic) (as : List β) :
    Emits Builder.append l l (as.forM fun _ => emit code)
      (pure (onLine l (List.replicate as.length code).flatten)) :=
  (emits_forM (fun _ => emits_emit l code) as).of_eq
    (by simp [List.flatMap_def, List.map_const'])

end Emits

/-! Expressions. -/

theorem emits_select (l : Line) (op : Opcode) (taken otherwise : Word) :
    Emits Builder.append l l (select op taken otherwise) (selectCode l op taken otherwise) := by
  refine Emits.reserve fun n => ?_
  have parts := (emits_emit l [branch op ⟨n⟩]).seq <| (emits_emit l [push otherwise]).seq <|
    (emits_emit l [branch .branch ⟨n + 1⟩]).seq <| (emits_mark l ⟨n⟩).seq <|
    (emits_emit l [push taken]).seq (emits_mark l ⟨n + 1⟩)
  exact parts.of_eq (by simp [Lower.seq, onLine])

theorem emits_callThrough {l : Line} {target : Generate Unit} {code : List Symbolic}
    (emits : Emits Builder.append l l target (pure (onLine l code))) :
    Emits Builder.append l l (callThrough target) (pure (onLine l (Sequence.callThrough code))) :=
  ((emits_emit l Sequence.callStart).seq (emits.seq (emits_emit l [plain .js]))).of_eq
    (by simp [Lower.seq, onLine, Sequence.callThrough])

theorem Use.emits (g : Word) (l : Line) (u : Use) :
    Emits Builder.append l l (u.generate g) (pure (onLine l (u.frame g))) := by
  unfold Use.generate Use.frame
  split
  · exact emits_emit l _
  · exact emits_emit l _

theorem Use.emits_target (l : Line) (u : Use) :
    Emits Builder.append l l u.generateTarget (pure (onLine l
      (if u.binding.ty.isMethod then plain .loadW :: Sequence.loadOffset u.binding.offset
        else Sequence.loadOffset u.binding.offset))) := by
  unfold Use.generateTarget
  split
  · exact ((emits_emit l [plain .loadW]).seq (emits_emit l _)).of_eq (by simp [Lower.seq, onLine])
  · exact emits_emit l _

theorem Ident.emits (g : Word) (l line : Line) (i : Ident) :
    Emits Builder.append l l (i.generate g line) (do pure (onLine l (← i.code g line))) := by
  unfold Ident.generate Ident.code
  cases i.use with
  | none => exact emits_fail _ l l _
  | some use =>
    exact ((use.emits g l).seq (emits_emit l _)).of_eq (by simp [Lower.seq, onLine])

theorem BinaryOp.emits (l : Line) (op : BinaryOp) :
    Emits Builder.append l l op.generate (op.code l) := by
  cases op with
  | add | sub | mul | div => exact emits_emit l _
  | eq | le => exact emits_select l _ 1 0
  | ge =>
    exact ((emits_emit l Sequence.swap).seq (emits_select l .branchLessEq 1 0)).of_eq
      (by simp [Lower.seq, BinaryOp.code])
  | and | or => exact emits_pure l

namespace Expr

variable (g : Word)

mutual

theorem emits : (e : Expr) → ∀ l, Emits Builder.append l e.endLine (e.generate g) (e.code g)
  | .int line value => fun l => (emits_emit line _).atLine l
  | .bool line value => fun l => (emits_emit line _).atLine l
  | .null line => fun l => (emits_emit line _).atLine l
  | .id line ident => fun l => (ident.emits g line line).atLine l
  | .call line callee args => by
    intro l
    apply Emits.atLine
    unfold code
    cases callee.use with
    | none => exact emits_fail _ line line _
    | some use =>
      have parts := (emits_emit line [plain .loadFp]).seq <| (emitsBackward args line).seq <|
        ((use.emits g line).seq (emits_callThrough (use.emits_target line))).atLine _
      exact parts.of_eq (by simp [Lower.seq, onLine])
  | .binary line op lhs rhs => by
    intro l
    apply Emits.atLine
    unfold code
    cases op.isLogical with
    | true =>
      simp only [if_true]
      refine Emits.reserve fun n => ?_
      have parts := (emits lhs line).seq <| (emits_emit lhs.endLine [push op.deciding]).seq <|
        (emits_emit lhs.endLine [branch .branchEq ⟨n⟩]).seq <| (emits rhs lhs.endLine).seq <|
        (emits_emit rhs.endLine [push op.deciding]).seq <|
        (emits_emit rhs.endLine [branch .branchEq ⟨n⟩]).seq <|
        (emits_emit rhs.endLine [push (1 - op.deciding)]).seq <|
        (emits_emit rhs.endLine [branch .branch ⟨n + 1⟩]).seq <|
        (emits_mark rhs.endLine ⟨n⟩).seq <| (emits_emit rhs.endLine [push op.deciding]).seq <|
        emits_mark rhs.endLine ⟨n + 1⟩
      exact parts.of_eq (by simp [Lower.seq, onLine])
    | false =>
      have parts := (emits lhs line).seq <| (emits rhs lhs.endLine).seq <| op.emits rhs.endLine
      exact parts.of_eq (by simp [Lower.seq])
  | .not line operand => by
    intro l
    have parts := (emits operand line).seq <| (emits_emit operand.endLine [push 1]).seq <|
      emits_select operand.endLine .branchEq 0 1
    exact (parts.of_eq (by simp [Lower.seq, code])).atLine l
  | .cond line test yes no => by
    intro l
    apply Emits.atLine
    refine Emits.reserve fun n => ?_
    have parts := (emits test line).seq <| (emits_emit test.endLine [push 1]).seq <|
      (emits_emit test.endLine [branch .branchEq ⟨n⟩]).seq <| (emits no test.endLine).seq <|
      (emits_emit no.endLine [branch .branch ⟨n + 1⟩]).seq <| (emits_mark no.endLine ⟨n⟩).seq <|
      (emits yes no.endLine).seq <| emits_mark yes.endLine ⟨n + 1⟩
    exact parts.of_eq (by simp [Lower.seq, onLine])
  | .print line operand => by
    intro l
    have parts := (emits operand line).seq (emits_emit operand.endLine [plain .print])
    exact (parts.of_eq (by simp [Lower.seq, code])).atLine l
  | .new line cls args binding => by
    intro l
    apply Emits.atLine
    unfold code
    cases binding with
    | none => exact emits_fail _ line line _
    | some binding =>
      obtain ⟨_, ty, offset⟩ := binding
      cases ty with
      | cls =>
        have parts := (emitsForward args line).seq <|
          ((emits_repeat line Sequence.heapStore args).seq <|
          (emits_emit line [push (g + offset)]).seq <| (emits_emit line [plain .loadW]).seq <|
          (emits_emit line [plain .loadHp]).seq <| (emits_emit line [plain .storeW]).seq <|
          (emits_emit line [plain .loadHp]).seq <| emits_emit line Sequence.heapBump).atLine _
        exact parts.of_eq (by simp [Lower.seq, onLine])
      | _ => exact emits_fail _ line line _
  | .send line object method args binding => by
    intro l
    apply Emits.atLine
    unfold code
    cases binding with
    | none => exact emits_fail _ line line _
    | some binding =>
      have target := (emits_emit line [plain .loadW]).seq <|
        emits_emit line (Sequence.loadOffset binding.offset)
      have joined : Lower.seq (pure (onLine line [plain .loadW]))
          (pure (onLine line (Sequence.loadOffset binding.offset))) =
          pure (onLine line (plain .loadW :: Sequence.loadOffset binding.offset)) := by
        simp [Lower.seq, onLine]
      have called := emits_callThrough (target.of_eq joined)
      have parts := (emits_emit line [plain .loadFp]).seq <| (emitsBackward args line).seq <|
        ((object.emits g line line).seq called).atLine _
      exact parts.of_eq (by simp [Lower.seq, onLine])
  | .get line object field binding => by
    intro l
    apply Emits.atLine
    unfold code
    cases binding with
    | none => exact emits_fail _ line line _
    | some binding =>
      have parts := (object.emits g line line).seq <|
        emits_emit line (Sequence.loadOffset binding.offset)
      exact parts.of_eq (by simp [Lower.seq, onLine])

theorem emitsForward : (args : List Expr) → ∀ l,
    Emits Builder.append l (args.foldl (fun _ e => e.endLine) l) (generateForward g args)
      (argsForward g args)
  | [] => fun l => emits_pure l
  | arg :: args => fun l => (emits arg l).seq (emitsForward args _)

theorem emitsBackward : (args : List Expr) → ∀ l,
    Emits Builder.append l (args.foldr (fun e _ => e.endLine) l) (generateBackward g args)
      (argsBackward g args)
  | [] => fun l => emits_pure l
  | arg :: args => fun l => (emitsBackward args l).seq (emits arg _)

end

end Expr

/-! Declarations. -/

namespace Builder

def addBodies (b : Builder) (bodies : List Code) : Builder :=
  { b with closed := b.closed ++ bodies }

def add (b : Builder) (f : Fragment) : Builder := (b.append f.inline).addBodies f.bodies

theorem append_add (b : Builder) (f : Fragment) (code : Code) :
    (b.add f).append code = b.add ⟨f.inline ++ code, f.bodies⟩ := by
  obtain ⟨_, _, opened, _, _⟩ := b
  cases opened <;> simp [add, addBodies, append]

theorem add_append (b : Builder) (code : Code) (f : Fragment) :
    (b.append code).add f = b.add ⟨code ++ f.inline, f.bodies⟩ := by
  rw [add, append_append]
  rfl

theorem add_add (b : Builder) (f f' : Fragment) :
    (b.add f).add f' = b.add ⟨f.inline ++ f'.inline, f.bodies ++ f'.bodies⟩ := by
  rw [add, append_add]
  simp [add, addBodies]

theorem addBodies_nil (b : Builder) : b.addBodies [] = b := by
  simp [addBodies]

theorem addBodies_addBodies (b : Builder) (first second : List Code) :
    (b.addBodies first).addBodies second = b.addBodies (first ++ second) := by
  simp [addBodies]

end Builder

section Fragments

variable {α : Type} {grow : Builder → α → Builder} {l l' m : Line} {x x' : Generate Unit}

theorem Emits.inline {y : Lower Code} (emits : Emits Builder.append l l' x y) :
    Emits Builder.add l l' x (do pure ⟨← y, []⟩) := by
  intro b s
  rw [emits b s]
  simp only [Bind.bind, StateT.bind]
  cases y s with
  | error e => rfl
  | ok r =>
    show Except.ok ((), Generator.of (b.append r.1) l' r.2) = .ok ((), .of (b.add ⟨r.1, []⟩) l' r.2)
    rw [Builder.add, Builder.addBodies_nil]

theorem Emits.before {y : Lower Code} {y' : Lower Fragment} (first : Emits Builder.append l m x y)
    (second : Emits Builder.add m l' x' y') :
    Emits Builder.add l l' (x >>= fun _ => x') (do
      let code ← y
      let f ← y'
      pure ⟨code ++ f.inline, f.bodies⟩) :=
  first.bind second Builder.add_append

theorem Emits.after {y : Lower Fragment} {y' : Lower Code} (first : Emits Builder.add l m x y)
    (second : Emits Builder.append m l' x' y') :
    Emits Builder.add l l' (x >>= fun _ => x') (do
      let f ← y
      let code ← y'
      pure ⟨f.inline ++ code, f.bodies⟩) :=
  first.bind second Builder.append_add

theorem Emits.withBodies {y : Lower Code} {y' : Lower (List Code)}
    (first : Emits Builder.append l m x y) (second : Emits Builder.addBodies m l' x' y') :
    Emits Builder.add l l' (x >>= fun _ => x') (do
      let inline ← y
      let bodies ← y'
      pure ⟨inline, bodies⟩) :=
  first.bind second fun _ _ _ => rfl

theorem Emits.inBody {y : Lower Fragment} (inside : Emits Builder.add l l' x y) :
    Emits Builder.addBodies l l' (Generate.inBody x) (do
      let f ← y
      pure (f.bodies ++ [f.inline])) := by
  intro b s
  have run := inside b.openBody s
  have opens : openBody (.of b l s) = .ok ((), .of b.openBody l s) := rfl
  have closes (f : Fragment) (t : Supply) : closeBody (.of (b.openBody.add f) l' t) =
      .ok ((), .of (b.addBodies (f.bodies ++ [f.inline])) l' t) := by
    simp [closeBody, build, Generator.of, Builder.openBody, Builder.add, Builder.append,
      Builder.addBodies, Builder.closeBody]
  simp only [Generate.inBody, Bind.bind, StateT.bind, opens, Except.bind, run]
  cases y s with
  | error e => rfl
  | ok r => exact closes r.1 r.2

theorem Emits.reserveOne {x : Label → Generate Unit} {y : Nat → Lower α}
    (rest : ∀ n, Emits grow l l' (x ⟨n⟩) (y n)) :
    Emits grow l l' (fresh >>= x) (Lower.reserve 1 >>= y) :=
  fun b s => rest s.next b { s with next := s.next + 1 }

theorem Emits.record {y : Lower α} (rest : Emits grow l l' x y) (cls : String)
    (table : List Label) :
    Emits grow l l' (setDispatchTable cls table >>= fun _ => x)
      (Lower.setDispatchTable cls table >>= fun _ => y) :=
  fun b s => rest b { s with dispatch := s.dispatch.insert cls table }

end Fragments

def labelsFrom (first count : Nat) : List Label := (List.range' first count).map Label.mk

namespace Decl

theorem generateEntries_eq (b : Builder) (l : Line) (s : Supply) (table : List Label)
    (methods : List Method) :
    generateEntries table methods (.of b l s) =
      .ok ((labelsFrom s.next methods.length, fillTable table s.next methods),
        .of b l { s with next := s.next + methods.length }) := by
  induction methods generalizing table s with
  | nil => rfl
  | cons m methods ih =>
    have labeled : fresh (.of b l s) = .ok (⟨s.next⟩, .of b l { s with next := s.next + 1 }) := rfl
    have rest := ih { s with next := s.next + 1 } (fillSlot table m.offset ⟨s.next⟩)
    have count : s.next + 1 + methods.length = s.next + (methods.length + 1) := by omega
    simp only [generateEntries, Bind.bind, StateT.bind, labeled, Except.bind, rest, count]
    rfl

theorem emits_entries {α : Type} {grow : Builder → α → Builder} {l l' : Line}
    {x : List Label × List Label → Generate Unit} {y : List Label → Nat → Lower α}
    (parent : Option String) (methods : List Method)
    (rest : ∀ table first, Emits grow l l'
      (x (labelsFrom first methods.length, fillTable table first methods)) (y table first)) :
    Emits grow l l' (do x (← generateEntries (← dispatchTable parent) methods))
      (do
        let first ← Lower.reserve methods.length
        let table ← Lower.dispatchTable parent
        y table first) := by
  intro b s
  have known : dispatchTable parent (.of b l s) =
      .ok ((parent.bind s.dispatch.find?).getD [], .of b l s) := rfl
  simp only [Bind.bind, StateT.bind, known, Except.bind, generateEntries_eq]
  exact rest _ _ b { s with next := s.next + methods.length }

def endLine : Decl → Line
  | .var decl => decl.init.endLine
  | .fn routine => routine.body.endLine
  | .cls decl => decl.methods.foldl (fun _ m => m.routine.body.endLine) decl.line

theorem emits_epilogue (l : Line) (params : List Param) (locals : List Decl) :
    Emits Builder.append l l (generateEpilogue params locals)
      (pure (onLine l (Routine.epilogue params.length locals.length))) := by
  have parts := (emits_emit l [plain .storeTm]).seq <| (emits_repeat l [plain .pop] locals).seq <|
    (emits_emit l [plain .storeRa]).seq <| (emits_emit l [plain .pop]).seq <|
    (emits_repeat l [plain .pop] params).seq <| (emits_emit l [plain .storeFp]).seq <|
    (emits_emit l [plain .loadTm]).seq <| (emits_emit l [plain .loadRa]).seq <|
    emits_emit l [plain .js]
  exact parts.of_eq (by simp [Lower.seq, onLine, Routine.epilogue])

theorem emits_table (l : Line) (table : List Label) :
    Emits Builder.append l l (generateTable table) (pure (onLine l (tableCode table))) := by
  have each (entry : Label) : Emits Builder.append l l (do
        emit [pushLabel entry]
        emit Sequence.heapStore)
      (pure (onLine l (pushLabel entry :: Sequence.heapStore))) :=
    ((emits_emit l _).seq (emits_emit l _)).of_eq (by simp [Lower.seq, onLine])
  exact ((emits_emit l [plain .loadHp]).seq (emits_forM each table)).of_eq
    (by simp [Lower.seq, onLine, tableCode])

variable (g : Word)

mutual

theorem emits : (d : Decl) → ∀ l, Emits Builder.add l d.endLine (d.generate g) (d.code g)
  | .var decl => fun l => (decl.init.emits g decl.line).inline.atLine l
  | .fn routine => by
    intro l
    apply Emits.atLine
    refine Emits.reserveOne fun entry => ?_
    have parts := (emits_emit routine.line [pushLabel ⟨entry⟩]).withBodies
      (emitsBody ⟨entry⟩ routine)
    exact parts.of_eq (by simp)
  | .cls ⟨line, name, parent, _, methods, _, _⟩ => by
    intro l
    apply Emits.atLine
    unfold code
    refine emits_entries parent methods fun table first => ?_
    have parts := (emits_table line (fillTable table first methods)).withBodies
      ((emitsMethods first methods line).record name (fillTable table first methods))
    exact parts.of_eq (by simp)

theorem emitsBody (entry : Label) : (r : Routine) →
    Emits Builder.addBodies r.line r.body.endLine (generateBody g entry r) (routineCode g entry r)
  | ⟨line, _, _, params, locals, body⟩ => by
    have inside := (emitsAll locals line).after <|
      (body.emits g _).seq <| emits_epilogue body.endLine params locals
    have parts := (emits_mark line entry).before <| (emits_emit line [plain .copyFp]).before <|
      (emits_emit line [plain .loadRa]).before inside
    exact parts.inBody.of_eq (by simp [Lower.seq, routineCode, onLine, Routine.prologue])

theorem emitsMethods (first : Nat) : (methods : List Method) → ∀ l,
    Emits Builder.addBodies l (methods.foldl (fun _ m => m.routine.body.endLine) l)
      (generateMethods g (labelsFrom first methods.length) methods) (methodsCode g first methods)
  | [] => fun _ => .nothing Builder.addBodies_nil
  | ⟨routine, offset⟩ :: methods => by
    intro l
    have parts := ((emitsBody ⟨first⟩ routine).atLine l).bind (emitsMethods (first + 1) methods _)
      Builder.addBodies_addBodies
    exact parts

theorem emitsAll : (ds : List Decl) → ∀ l,
    Emits Builder.add l (ds.foldl (fun _ d => d.endLine) l) (generateAll g ds) (allCode g ds)
  | [] => fun l => (emits_pure l).inline
  | d :: ds => fun l => (emits d l).bind (emitsAll ds _) Builder.add_add

end

end Decl

theorem Program.emits (g : Word) (p : Program) :
    Emits Builder.add 0 p.body.endLine (p.generator g) (p.code g) := by
  have parts := (emits_emit 0 [push 0]).before <| (Decl.emitsAll g p.decls 0).after <|
    (p.body.emits g _).seq <| emits_emit p.body.endLine [plain .halt]
  exact parts.of_eq (by simp [Lower.seq, Program.code])

/-- The calls on the builder give the lowering of the program. -/
theorem Program.generate_eq_lower (memorySize : Nat) (p : Program) :
    p.generate memorySize = p.lower memorySize := by
  have run := p.emits (Word.ofSize memorySize) {} {}
  have start : Generator.of {} 0 {} = {} := rfl
  rw [start] at run
  unfold Program.generate Program.lower
  rw [run]
  cases lowered : p.code (Word.ofSize memorySize) {} with
  | error e =>
    simp only [StateT.run, lowered]
    rfl
  | ok r =>
    simp only [StateT.run, lowered]
    show (Generator.of (Builder.add {} r.1) p.body.endLine r.2).builder.finish =
      Code.layout (r.1.inline ++ r.1.bodies.flatten)
    simp [Generator.of, Builder.add, Builder.append, Builder.addBodies, Builder.finish,
      Builder.code]

end ObjectLang
