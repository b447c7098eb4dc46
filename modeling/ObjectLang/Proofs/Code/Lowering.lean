import ObjectLang.Code.Lowering

/-!
What each form of tree is turned into. A lowering that succeeds yields a value and a supply; for
every form of expression and declaration one equivalence says which parts were lowered on the way,
in which order, and how their code was put together. Proofs about code start from these and not
from the definitions.
-/
namespace ObjectLang

open Symbolic

namespace Lower

variable {α β : Type}

/-- The lowering succeeds from supply `s` with value `a` and leaves supply `t`. -/
def Yields (x : Lower α) (s : Supply) (a : α) (t : Supply) : Prop := x.run s = .ok (a, t)

@[simp] theorem yields_pure {a b : α} {s t : Supply} :
    Yields (pure a) s b t ↔ b = a ∧ t = s := by
  constructor
  · intro done
    cases done
    exact ⟨rfl, rfl⟩
  · rintro ⟨rfl, rfl⟩
    rfl

@[simp] theorem yields_bind {x : Lower α} {f : α → Lower β} {s t : Supply} {b : β} :
    Yields (x >>= f) s b t ↔ ∃ a u, Yields x s a u ∧ Yields (f a) u b t := by
  have unfolded : (x >>= f).run s = x.run s >>= fun p => (f p.1).run p.2 := rfl
  simp only [Yields, unfolded]
  cases x.run s with
  | error error => simp [bind, Except.bind]
  | ok p => simp [bind, Except.bind, Prod.ext_iff, and_assoc]

@[simp] theorem yields_fail {error : CodeError} {s t : Supply} {a : α} :
    ¬ Yields (Lower.fail error) s a t := by
  intro done
  cases done

@[simp] theorem yields_reserve {count first : Nat} {s t : Supply} :
    Yields (reserve count) s first t ↔ first = s.next ∧ t = { s with next := s.next + count } := by
  constructor
  · intro done
    cases done
    exact ⟨rfl, rfl⟩
  · rintro ⟨rfl, rfl⟩
    rfl

@[simp] theorem yields_dispatchTable {cls : Option String} {table : List Label} {s t : Supply} :
    Yields (dispatchTable cls) s table t ↔
      table = (cls.bind s.dispatch.find?).getD [] ∧ t = s := by
  constructor
  · intro done
    cases done
    exact ⟨rfl, rfl⟩
  · rintro ⟨rfl, rfl⟩
    rfl

@[simp] theorem yields_setDispatchTable {cls : String} {table : List Label} {s t : Supply}
    {done : Unit} :
    Yields (setDispatchTable cls table) s done t ↔
      t = { s with dispatch := s.dispatch.insert cls table } := by
  constructor
  · intro set
    cases set
    rfl
  · rintro rfl
    rfl

end Lower

open Lower

def selectItems (line : Line) (op : Opcode) (taken otherwise : Word) (yes done : Label) : Code :=
  onLine line [branch op yes, push otherwise, branch .branch done] ++ [.mark yes] ++
    onLine line [push taken] ++ [.mark done]

@[simp] theorem yields_selectCode {line : Line} {op : Opcode} {taken otherwise : Word} {c : Code}
    {s t : Supply} :
    Yields (selectCode line op taken otherwise) s c t ↔
      c = selectItems line op taken otherwise ⟨s.next⟩ ⟨s.next + 1⟩ ∧
        t = { s with next := s.next + 2 } := by
  simp only [selectCode, selectItems, yields_bind, yields_pure, yields_reserve]
  constructor
  · rintro ⟨_, _, ⟨rfl, rfl⟩, rfl, rfl⟩
    exact ⟨rfl, rfl⟩
  · rintro ⟨rfl, rfl⟩
    exact ⟨_, _, ⟨rfl, rfl⟩, rfl, rfl⟩

theorem yields_ident {g : Word} {line : Line} {i : Ident} {code : List Symbolic} {s t : Supply} :
    Yields (i.code g line) s code t ↔
      ∃ use, i.use = some use ∧
        code = use.frame g ++ Sequence.loadOffset use.binding.offset ∧ t = s := by
  unfold Ident.code
  cases i.use with
  | none => simp
  | some use => simp

namespace Expr

variable {g : Word} {line : Line} {s t : Supply} {c : Code}

@[simp] theorem yields_int {value : Word} :
    Yields ((Expr.int line value).code g) s c t ↔ c = onLine line [push value] ∧ t = s := by
  simp [code]

@[simp] theorem yields_bool {value : Bool} :
    Yields ((Expr.bool line value).code g) s c t ↔
      c = onLine line [push (boolWord value)] ∧ t = s := by
  simp [code]

@[simp] theorem yields_null :
    Yields ((Expr.null line).code g) s c t ↔ c = onLine line [push nullWord] ∧ t = s := by
  simp [code]

theorem yields_id {ident : Ident} :
    Yields ((Expr.id line ident).code g) s c t ↔
      ∃ use, ident.use = some use ∧
        c = onLine line (use.frame g ++ Sequence.loadOffset use.binding.offset) ∧ t = s := by
  simp only [code, yields_bind, yields_pure, yields_ident]
  constructor
  · rintro ⟨_, _, ⟨use, found, rfl, rfl⟩, rfl, rfl⟩
    exact ⟨use, found, rfl, rfl⟩
  · rintro ⟨use, found, rfl, rfl⟩
    exact ⟨_, _, ⟨use, found, rfl, rfl⟩, rfl, rfl⟩

def callTarget (b : Binding) : List Symbolic :=
  if b.ty.isMethod then plain .loadW :: Sequence.loadOffset b.offset
  else Sequence.loadOffset b.offset

theorem yields_call {callee : Ident} {args : List Expr} :
    Yields ((Expr.call line callee args).code g) s c t ↔
      ∃ use argCode, callee.use = some use ∧ Yields (argsBackward g args) s argCode t ∧
        c = onLine line [plain .loadFp] ++ argCode ++
          onLine line (use.frame g ++ Sequence.callThrough (callTarget use.binding)) := by
  rw [code]
  cases callee.use with
  | none => simp
  | some use =>
    simp only [yields_bind, yields_pure, Option.some.injEq, callTarget]
    constructor
    · rintro ⟨argCode, u, lowered, rfl, rfl⟩
      exact ⟨use, argCode, rfl, lowered, rfl⟩
    · rintro ⟨_, argCode, rfl, lowered, rfl⟩
      exact ⟨argCode, t, lowered, rfl, rfl⟩

def logicalItems (op : BinaryOp) (leftLine rightLine : Line) (left right : Code)
    (decided done : Label) : Code :=
  left ++ onLine leftLine [push op.deciding, branch .branchEq decided] ++
    right ++ onLine rightLine [push op.deciding, branch .branchEq decided,
      push (1 - op.deciding), branch .branch done] ++
    [.mark decided] ++ onLine rightLine [push op.deciding] ++ [.mark done]

theorem yields_logical {op : BinaryOp} {lhs rhs : Expr} (logical : op.isLogical = true) :
    Yields ((Expr.binary line op lhs rhs).code g) s c t ↔
      ∃ left right u, Yields (lhs.code g) { s with next := s.next + 2 } left u ∧
        Yields (rhs.code g) u right t ∧
        c = logicalItems op lhs.endLine rhs.endLine left right ⟨s.next⟩ ⟨s.next + 1⟩ := by
  rw [code, if_pos logical]
  simp only [yields_bind, yields_pure, yields_reserve, logicalItems]
  constructor
  · rintro ⟨_, _, ⟨rfl, rfl⟩, left, u, first, right, v, second, rfl, rfl⟩
    exact ⟨left, right, u, first, second, rfl⟩
  · rintro ⟨left, right, u, first, second, rfl⟩
    exact ⟨_, _, ⟨rfl, rfl⟩, left, u, first, right, t, second, rfl, rfl⟩

theorem yields_binary {op : BinaryOp} {lhs rhs : Expr} (strict : op.isLogical = false) :
    Yields ((Expr.binary line op lhs rhs).code g) s c t ↔
      ∃ left right tail u v, Yields (lhs.code g) s left u ∧ Yields (rhs.code g) u right v ∧
        Yields (op.code rhs.endLine) v tail t ∧ c = left ++ right ++ tail := by
  rw [code, if_neg (by simp [strict])]
  simp only [yields_bind, yields_pure]
  constructor
  · rintro ⟨left, u, first, right, v, second, tail, _, third, rfl, rfl⟩
    exact ⟨left, right, tail, u, v, first, second, third, rfl⟩
  · rintro ⟨left, right, tail, u, v, first, second, third, rfl⟩
    exact ⟨left, u, first, right, v, second, tail, t, third, rfl, rfl⟩

theorem yields_not {operand : Expr} :
    Yields ((Expr.not line operand).code g) s c t ↔
      ∃ operandCode u, Yields (operand.code g) s operandCode u ∧
        c = operandCode ++ onLine operand.endLine [push 1] ++
          selectItems operand.endLine .branchEq 0 1 ⟨u.next⟩ ⟨u.next + 1⟩ ∧
        t = { u with next := u.next + 2 } := by
  simp only [code, yields_bind, yields_pure, yields_selectCode]
  constructor
  · rintro ⟨operandCode, u, lowered, _, _, ⟨rfl, rfl⟩, rfl, rfl⟩
    exact ⟨operandCode, u, lowered, rfl, rfl⟩
  · rintro ⟨operandCode, u, lowered, rfl, rfl⟩
    exact ⟨operandCode, u, lowered, _, _, ⟨rfl, rfl⟩, rfl, rfl⟩

def condItems (test no : Expr) (testCode noCode yesCode : Code) (taken done : Label) : Code :=
  testCode ++ onLine test.endLine [push 1, branch .branchEq taken] ++
    noCode ++ onLine no.endLine [branch .branch done] ++
    [.mark taken] ++ yesCode ++ [.mark done]

theorem yields_cond {test yes no : Expr} :
    Yields ((Expr.cond line test yes no).code g) s c t ↔
      ∃ testCode noCode yesCode u v,
        Yields (test.code g) { s with next := s.next + 2 } testCode u ∧
        Yields (no.code g) u noCode v ∧ Yields (yes.code g) v yesCode t ∧
        c = condItems test no testCode noCode yesCode ⟨s.next⟩ ⟨s.next + 1⟩ := by
  simp only [code, yields_bind, yields_pure, yields_reserve, condItems]
  constructor
  · rintro ⟨_, _, ⟨rfl, rfl⟩, testCode, u, first, noCode, v, second, yesCode, _, third, rfl, rfl⟩
    exact ⟨testCode, noCode, yesCode, u, v, first, second, third, rfl⟩
  · rintro ⟨testCode, noCode, yesCode, u, v, first, second, third, rfl⟩
    exact ⟨_, _, ⟨rfl, rfl⟩, testCode, u, first, noCode, v, second, yesCode, t, third, rfl, rfl⟩

theorem yields_print {operand : Expr} :
    Yields ((Expr.print line operand).code g) s c t ↔
      ∃ operandCode, Yields (operand.code g) s operandCode t ∧
        c = operandCode ++ onLine operand.endLine [plain .print] := by
  simp only [code, yields_bind, yields_pure]
  constructor
  · rintro ⟨operandCode, u, lowered, rfl, rfl⟩
    exact ⟨operandCode, lowered, rfl⟩
  · rintro ⟨operandCode, lowered, rfl⟩
    exact ⟨operandCode, t, lowered, rfl, rfl⟩

def newTail (g : Word) (fields : Nat) (b : Binding) : List Symbolic :=
  (List.replicate fields Sequence.heapStore).flatten ++ [push (g + b.offset), plain .loadW,
    plain .loadHp, plain .storeW, plain .loadHp] ++ Sequence.heapBump

theorem yields_new {cls : String} {args : List Expr} {binding : Option Binding} :
    Yields ((Expr.new line cls args binding).code g) s c t ↔
      ∃ b layout argCode, binding = some b ∧ b.ty = .cls layout ∧
        Yields (argsForward g args) s argCode t ∧
        c = argCode ++ onLine line (newTail g args.length b) := by
  cases binding with
  | none => simp [code]
  | some b =>
    cases shape : b.ty with
    | cls layout =>
      simp only [code, shape, yields_bind, yields_pure, Option.some.injEq, newTail]
      constructor
      · rintro ⟨argCode, u, lowered, rfl, rfl⟩
        exact ⟨b, layout, argCode, rfl, shape, lowered, rfl⟩
      · rintro ⟨_, _, argCode, rfl, _, lowered, rfl⟩
        exact ⟨argCode, t, lowered, rfl, rfl⟩
    | _ =>
      simp only [code, shape, yields_fail, Option.some.injEq, false_iff, not_exists]
      rintro b' layout argCode ⟨rfl, shape', _⟩
      rw [shape] at shape'
      cases shape'

theorem yields_send {object : Ident} {method : String} {args : List Expr}
    {binding : Option Binding} :
    Yields ((Expr.send line object method args binding).code g) s c t ↔
      ∃ b use argCode, binding = some b ∧ object.use = some use ∧
        Yields (argsBackward g args) s argCode t ∧
        c = onLine line [plain .loadFp] ++ argCode ++ onLine line
          (use.frame g ++ Sequence.loadOffset use.binding.offset ++
            Sequence.callThrough (plain .loadW :: Sequence.loadOffset b.offset)) := by
  cases binding with
  | none => simp [code]
  | some b =>
    simp only [code, yields_bind, yields_pure, yields_ident, Option.some.injEq]
    constructor
    · rintro ⟨argCode, u, lowered, _, _, ⟨use, found, rfl, rfl⟩, rfl, rfl⟩
      exact ⟨b, use, argCode, rfl, found, lowered, rfl⟩
    · rintro ⟨_, use, argCode, rfl, found, lowered, rfl⟩
      exact ⟨argCode, t, lowered, _, _, ⟨use, found, rfl, rfl⟩, rfl, rfl⟩

theorem yields_get {object : Ident} {field : String} {binding : Option Binding} :
    Yields ((Expr.get line object field binding).code g) s c t ↔
      ∃ b use, binding = some b ∧ object.use = some use ∧
        c = onLine line (use.frame g ++ Sequence.loadOffset use.binding.offset ++
          Sequence.loadOffset b.offset) ∧ t = s := by
  cases binding with
  | none => simp [code]
  | some b =>
    simp only [code, yields_bind, yields_pure, yields_ident, Option.some.injEq]
    constructor
    · rintro ⟨_, _, ⟨use, found, rfl, rfl⟩, rfl, rfl⟩
      exact ⟨b, use, rfl, found, rfl, rfl⟩
    · rintro ⟨_, use, rfl, found, rfl, rfl⟩
      exact ⟨_, _, ⟨use, found, rfl, rfl⟩, rfl, rfl⟩

@[simp] theorem yields_argsForward_nil :
    Yields (argsForward g []) s c t ↔ c = [] ∧ t = s := by
  simp [argsForward]

theorem yields_argsForward_cons {arg : Expr} {args : List Expr} :
    Yields (argsForward g (arg :: args)) s c t ↔
      ∃ head tail u, Yields (arg.code g) s head u ∧ Yields (argsForward g args) u tail t ∧
        c = head ++ tail := by
  simp only [argsForward, yields_bind, yields_pure]
  constructor
  · rintro ⟨head, u, first, tail, _, second, rfl, rfl⟩
    exact ⟨head, tail, u, first, second, rfl⟩
  · rintro ⟨head, tail, u, first, second, rfl⟩
    exact ⟨head, u, first, tail, t, second, rfl, rfl⟩

@[simp] theorem yields_argsBackward_nil :
    Yields (argsBackward g []) s c t ↔ c = [] ∧ t = s := by
  simp [argsBackward]

theorem yields_argsBackward_cons {arg : Expr} {args : List Expr} :
    Yields (argsBackward g (arg :: args)) s c t ↔
      ∃ head tail u, Yields (argsBackward g args) s tail u ∧ Yields (arg.code g) u head t ∧
        c = tail ++ head := by
  simp only [argsBackward, yields_bind, yields_pure]
  constructor
  · rintro ⟨tail, u, first, head, _, second, rfl, rfl⟩
    exact ⟨head, tail, u, first, second, rfl⟩
  · rintro ⟨head, tail, u, first, second, rfl⟩
    exact ⟨tail, u, first, head, t, second, rfl, rfl⟩

end Expr

namespace Decl

variable {g : Word} {s t : Supply} {f : Fragment} {bodies : List Code}

@[simp] theorem yields_var {d : VarDecl} :
    Yields ((Decl.var d).code g) s f t ↔
      ∃ c, Yields (d.init.code g) s c t ∧ f = ⟨c, []⟩ := by
  simp only [code, yields_bind, yields_pure]
  constructor
  · rintro ⟨c, u, lowered, rfl, rfl⟩
    exact ⟨c, lowered, rfl⟩
  · rintro ⟨c, lowered, rfl⟩
    exact ⟨c, t, lowered, rfl, rfl⟩

theorem yields_fn {r : Routine} :
    Yields ((Decl.fn r).code g) s f t ↔
      ∃ bodies, Yields (routineCode g ⟨s.next⟩ r) { s with next := s.next + 1 } bodies t ∧
        f = ⟨onLine r.line [pushLabel ⟨s.next⟩], bodies⟩ := by
  simp only [code, yields_bind, yields_pure, yields_reserve]
  constructor
  · rintro ⟨_, _, ⟨rfl, rfl⟩, bodies, u, lowered, rfl, rfl⟩
    exact ⟨bodies, lowered, rfl⟩
  · rintro ⟨bodies, lowered, rfl⟩
    exact ⟨_, _, ⟨rfl, rfl⟩, bodies, t, lowered, rfl, rfl⟩

def tableOf (s : Supply) (c : ClassDecl) : List Label :=
  fillTable ((c.parent.bind s.dispatch.find?).getD []) s.next c.methods

def methodSupply (s : Supply) (c : ClassDecl) : Supply :=
  ⟨s.next + c.methods.length, s.dispatch.insert c.name (tableOf s c)⟩

theorem yields_cls {c : ClassDecl} :
    Yields ((Decl.cls c).code g) s f t ↔
      ∃ bodies, Yields (methodsCode g s.next c.methods) (methodSupply s c) bodies t ∧
        f = ⟨onLine c.line (tableCode (tableOf s c)), bodies⟩ := by
  obtain ⟨line, name, parent, fields, methods, binding, parentBinding⟩ := c
  simp only [code, yields_bind, yields_pure, yields_reserve, yields_dispatchTable,
    yields_setDispatchTable]
  constructor
  · rintro ⟨_, _, ⟨rfl, rfl⟩, _, _, ⟨rfl, rfl⟩, _, _, rfl, bodies, u, lowered, rfl, rfl⟩
    exact ⟨bodies, lowered, rfl⟩
  · rintro ⟨bodies, lowered, rfl⟩
    exact ⟨_, _, ⟨rfl, rfl⟩, _, _, ⟨rfl, rfl⟩, (), _, rfl, bodies, t, lowered, rfl, rfl⟩

def routineItems (entry : Label) (r : Routine) (locals result : Code) : Code :=
  [.mark entry] ++ onLine r.line Routine.prologue ++ locals ++ result ++
    onLine r.body.endLine (Routine.epilogue r.params.length r.locals.length)

theorem yields_routineCode {entry : Label} {r : Routine} :
    Yields (routineCode g entry r) s bodies t ↔
      ∃ inner result u, Yields (allCode g r.locals) s inner u ∧
        Yields (r.body.code g) u result t ∧
        bodies = inner.bodies ++ [routineItems entry r inner.inline result] := by
  obtain ⟨line, name, ret, params, locals, body⟩ := r
  simp only [routineCode, yields_bind, yields_pure]
  constructor
  · rintro ⟨inner, u, first, result, _, second, rfl, rfl⟩
    exact ⟨inner, result, u, first, second, rfl⟩
  · rintro ⟨inner, result, u, first, second, rfl⟩
    exact ⟨inner, u, first, result, t, second, rfl, rfl⟩

@[simp] theorem yields_methodsCode_nil {first : Nat} :
    Yields (methodsCode g first []) s bodies t ↔ bodies = [] ∧ t = s := by
  simp [methodsCode]

theorem yields_methodsCode_cons {first : Nat} {m : Method} {methods : List Method} :
    Yields (methodsCode g first (m :: methods)) s bodies t ↔
      ∃ head tail u, Yields (routineCode g ⟨first⟩ m.routine) s head u ∧
        Yields (methodsCode g (first + 1) methods) u tail t ∧ bodies = head ++ tail := by
  obtain ⟨routine, offset⟩ := m
  simp only [methodsCode, yields_bind, yields_pure]
  constructor
  · rintro ⟨head, u, one, tail, _, others, rfl, rfl⟩
    exact ⟨head, tail, u, one, others, rfl⟩
  · rintro ⟨head, tail, u, one, others, rfl⟩
    exact ⟨head, u, one, tail, t, others, rfl, rfl⟩

@[simp] theorem yields_allCode_nil :
    Yields (allCode g []) s f t ↔ f = ⟨[], []⟩ ∧ t = s := by
  simp [allCode]

theorem yields_allCode_cons {d : Decl} {ds : List Decl} :
    Yields (allCode g (d :: ds)) s f t ↔
      ∃ head tail u, Yields (d.code g) s head u ∧ Yields (allCode g ds) u tail t ∧
        f = ⟨head.inline ++ tail.inline, head.bodies ++ tail.bodies⟩ := by
  simp only [allCode, yields_bind, yields_pure]
  constructor
  · rintro ⟨head, u, one, tail, _, others, rfl, rfl⟩
    exact ⟨head, tail, u, one, others, rfl⟩
  · rintro ⟨head, tail, u, one, others, rfl⟩
    exact ⟨head, u, one, tail, t, others, rfl, rfl⟩

end Decl

theorem Program.yields_code {g : Word} {p : Program} {s t : Supply} {f : Fragment} :
    Yields (p.code g) s f t ↔
      ∃ decls result u, Yields (Decl.allCode g p.decls) s decls u ∧
        Yields (p.body.code g) u result t ∧
        f = ⟨onLine 0 [push 0] ++ decls.inline ++ result ++ onLine p.body.endLine [plain .halt],
          decls.bodies⟩ := by
  simp only [Program.code, yields_bind, yields_pure]
  constructor
  · rintro ⟨decls, u, first, result, _, second, rfl, rfl⟩
    exact ⟨decls, result, u, first, second, rfl⟩
  · rintro ⟨decls, result, u, first, second, rfl⟩
    exact ⟨decls, u, first, result, t, second, rfl, rfl⟩

end ObjectLang
