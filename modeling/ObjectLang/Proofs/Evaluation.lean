import ObjectLang.Tree

/-!
Meaning of programs without classes, on the trees as they are written. Values are words: 1 and 0
for the booleans, -1 for `null`. Functions are nested, recursive and lexically scoped: what a name
means is looked up in a list of declarations, the innermost first, and the part of the list from a
function's own declaration on is what its body sees.

Evaluation is bounded by a depth of nested calls, so that it is a total function; it is unfinished
if calls go deeper. It collects what is printed.
-/
namespace ObjectLang

inductive Failure where
  | divisionByZero
  /-- A name of function type that stands for `null` is called. -/
  | nullCall
  /-- The tree has no meaning: an unknown name, a call of a number, an object. -/
  | stuck
  deriving DecidableEq

/-- Evaluations that print words, may fail, and may be unfinished. -/
abbrev Eval := StateT (List Word) (ExceptT Failure Option)

namespace Eval

variable {α : Type}

def fail (f : Failure) : Eval α := fun _ => some (.error f)

def unfinished : Eval α := fun _ => none

def emit (w : Word) : Eval Unit := fun printed => some (.ok ((), printed ++ [w]))

end Eval

inductive Entry where
  | value (name : String) (value : Word)
  | routine (routine : Routine)

def Entry.name : Entry → String
  | .value name _ => name
  | .routine r => r.name

abbrev Env := List Entry

inductive Denotation where
  | word (value : Word)
  /-- A function, with the declarations that its body sees. -/
  | closure (routine : Routine) (outer : Env)

def Env.lookup (name : String) : Env → Option Denotation
  | [] => none
  | entry :: env =>
    if entry.name = name then
      match entry with
      | .value _ value => some (.word value)
      | .routine routine => some (.closure routine (entry :: env))
    else Env.lookup name env

/-- The operators that take both operands; `none` for a zero divisor, and for the operators that may
skip one. -/
def BinaryOp.apply (op : BinaryOp) (left right : Word) : Option Word :=
  match op with
  | .add => some (left + right)
  | .sub => some (left - right)
  | .mul => some (left * right)
  | .div => if right = 0 then none else some (left / right)
  | .eq => some (if left = right then 1 else 0)
  | .le => some (if left ≤ right then 1 else 0)
  | .ge => some (if left ≥ right then 1 else 0)
  | .and | .or => none

abbrev Call := Env → Routine → List Word → Eval Word

namespace Expr

mutual

def evalWith (call : Call) (env : Env) : Expr → Eval Word
  | .int _ value => pure value
  | .bool _ value => pure (if value then 1 else 0)
  | .null _ => pure (-1)
  | .id _ ident =>
    match env.lookup ident.name with
    | some (.word value) => pure value
    | _ => .fail .stuck
  | .call _ callee args => do
    let values ← evalArgs call env args
    match env.lookup callee.name with
    | some (.closure routine outer) => call outer routine values
    | some (.word value) => if value = -1 then .fail .nullCall else .fail .stuck
    | none => .fail .stuck
  | .binary _ .and lhs rhs => do
    if (← evalWith call env lhs) = 0 then pure 0
    else if (← evalWith call env rhs) = 0 then pure 0
    else pure 1
  | .binary _ .or lhs rhs => do
    if (← evalWith call env lhs) = 1 then pure 1
    else if (← evalWith call env rhs) = 1 then pure 1
    else pure 0
  | .binary _ op lhs rhs => do
    let left ← evalWith call env lhs
    let right ← evalWith call env rhs
    match op.apply left right with
    | some value => pure value
    | none => .fail .divisionByZero
  | .not _ operand => do
    if (← evalWith call env operand) = 1 then pure 0 else pure 1
  | .cond _ test yes no => do
    if (← evalWith call env test) = 1 then evalWith call env yes else evalWith call env no
  | .print _ operand => do
    let value ← evalWith call env operand
    .emit value
    pure value
  | .new _ _ _ _ | .send _ _ _ _ _ | .get _ _ _ _ => .fail .stuck

def evalArgs (call : Call) (env : Env) : List Expr → Eval (List Word)
  | [] => pure []
  | arg :: args => do
    let values ← evalArgs call env args
    let value ← evalWith call env arg
    pure (value :: values)

end

end Expr

def Decl.evalAll (call : Call) (env : Env) : List Decl → Eval Env
  | [] => pure env
  | .var decl :: ds => do
    let value ← decl.init.evalWith call env
    evalAll call (.value decl.name value :: env) ds
  | .fn routine :: ds => evalAll call (.routine routine :: env) ds
  | .cls _ :: _ => .fail .stuck

def Env.bindParams (env : Env) : List Param → List Word → Env
  | p :: params, value :: values => bindParams (.value p.name value :: env) params values
  | _, _ => env

def Routine.invoke : (depth : Nat) → Call
  | 0, _, _, _ => .unfinished
  | depth + 1, env, routine, values =>
    if values.length = routine.params.length then do
      let inner ← Decl.evalAll (invoke depth) (env.bindParams routine.params values) routine.locals
      routine.body.evalWith (invoke depth) inner
    else .fail .stuck

def Program.eval (depth : Nat) (p : Program) : Option (Except Failure (Word × List Word)) :=
  let program : Eval Word := do
    let env ← Decl.evalAll (Routine.invoke depth) [] p.decls
    p.body.evalWith (Routine.invoke depth) env
  program.run []

/-- The outcome of a program, if calls may be nested as deep as it needs. -/
def Program.Evaluates (p : Program) (outcome : Except Failure (Word × List Word)) : Prop :=
  ∃ depth, p.eval depth = some outcome

/-! A depth that is enough for an outcome is as good as any greater one, so a program has at most
one outcome. -/

namespace Eval

variable {α β : Type}

def Below (x y : Eval α) : Prop :=
  ∀ printed outcome, x printed = some outcome → y printed = some outcome

theorem Below.refl (x : Eval α) : Below x x := fun _ _ ends => ends

theorem bind_eq (x : Eval α) (f : α → Eval β) (printed : List Word) :
    (x >>= f) printed = match x printed with
      | none => none
      | some (.error failure) => some (.error failure)
      | some (.ok (a, printed)) => f a printed := by
  simp only [Bind.bind, StateT.bind, ExceptT.bind, ExceptT.mk, Option.bind]
  cases x printed with
  | none => rfl
  | some result => cases result <;> rfl

theorem Below.bind {x y : Eval α} {f g : α → Eval β} (first : Below x y)
    (next : ∀ a, Below (f a) (g a)) : Below (x >>= f) (y >>= g) := by
  intro printed outcome ends
  rw [bind_eq] at ends ⊢
  match result : x printed with
  | none => simp [result] at ends
  | some (.error failure) =>
    rw [first printed _ result]
    simpa [result] using ends
  | some (.ok (a, printed')) =>
    rw [first printed _ result]
    simp only [result] at ends
    exact next a printed' outcome ends

end Eval

def Call.Below (f g : Call) : Prop :=
  ∀ env routine values, Eval.Below (f env routine values) (g env routine values)

namespace Expr

theorem evalWith_strict {call : Call} {env : Env} {line : Line} {op : BinaryOp} {lhs rhs : Expr}
    (strict : op.isLogical = false) :
    evalWith call env (.binary line op lhs rhs) = (do
      let left ← evalWith call env lhs
      let right ← evalWith call env rhs
      match op.apply left right with
      | some value => pure value
      | none => Eval.fail .divisionByZero) := by
  cases op with
  | and | or => cases strict
  | _ => simp only [evalWith]

open Eval

mutual

theorem evalWith_below {f g : Call} (calls : f.Below g) :
    (e : Expr) → ∀ env : Env, Eval.Below (e.evalWith f env) (e.evalWith g env)
  | .int _ _, _ | .bool _ _, _ | .null _, _ | .id _ _, _ => .refl _
  | .new _ _ _ _, _ | .send _ _ _ _ _, _ | .get _ _ _ _, _ => .refl _
  | .call _ callee args, env => by
    refine .bind (evalArgs_below calls args env) fun values => ?_
    cases env.lookup callee.name with
    | none => exact .refl _
    | some meaning =>
      cases meaning with
      | word => exact .refl _
      | closure routine outer => exact calls outer routine values
  | .binary _ op lhs rhs, env => by
    have left := evalWith_below calls lhs env
    have right := evalWith_below calls rhs env
    cases op with
    | and | or =>
      refine left.bind fun value => ?_
      split
      · exact .refl _
      · exact right.bind fun _ => .refl _
    | _ => exact left.bind fun _ => right.bind fun _ => .refl _
  | .not _ operand, env => (evalWith_below calls operand env).bind fun _ => .refl _
  | .cond _ test yes no, env => by
    refine (evalWith_below calls test env).bind fun value => ?_
    split
    · exact evalWith_below calls yes env
    · exact evalWith_below calls no env
  | .print _ operand, env => (evalWith_below calls operand env).bind fun _ => .refl _

theorem evalArgs_below {f g : Call} (calls : f.Below g) :
    (args : List Expr) → ∀ env : Env, Eval.Below (evalArgs f env args) (evalArgs g env args)
  | [], _ => .refl _
  | arg :: args, env =>
    (evalArgs_below calls args env).bind fun _ =>
      (evalWith_below calls arg env).bind fun _ => .refl _

end

end Expr

theorem Decl.evalAll_below {f g : Call} (calls : f.Below g) (ds : List Decl) (env : Env) :
    Eval.Below (evalAll f env ds) (evalAll g env ds) := by
  induction ds generalizing env with
  | nil => exact .refl _
  | cons d ds ih =>
    cases d with
    | var decl => exact (decl.init.evalWith_below calls env).bind fun _ => ih _
    | fn routine => exact ih _
    | cls => exact .refl _

theorem Routine.invoke_below {depth more : Nat} (le : depth ≤ more) :
    Call.Below (invoke depth) (invoke more) := by
  induction depth generalizing more with
  | zero =>
    intro env routine values printed outcome ends
    cases ends
  | succ depth ih =>
    obtain ⟨more, rfl⟩ : ∃ n, more = n + 1 := ⟨more - 1, by omega⟩
    have inner := ih (Nat.le_of_succ_le_succ le)
    intro env routine values
    unfold invoke
    split
    · exact (Decl.evalAll_below inner _ _).bind fun env => Expr.evalWith_below inner _ env
    · exact .refl _

theorem Program.Evaluates.unique {p : Program} {a b : Except Failure (Word × List Word)}
    (first : p.Evaluates a) (second : p.Evaluates b) : a = b := by
  obtain ⟨n, first⟩ := first
  obtain ⟨k, second⟩ := second
  have mono {depth : Nat} {outcome : Except Failure (Word × List Word)} (le : depth ≤ max n k)
      (ends : p.eval depth = some outcome) : p.eval (max n k) = some outcome := by
    have calls := Routine.invoke_below le
    exact (Decl.evalAll_below calls p.decls []).bind
      (fun env => Expr.evalWith_below calls p.body env) [] outcome ends
  have same := (mono (Nat.le_max_left n k) first).symm.trans (mono (Nat.le_max_right n k) second)
  exact Option.some.inj same

end ObjectLang
