import ObjectLang.Binding

/-!
Program trees. Every node that mentions a name has room for what the name was resolved to, and
every member declaration for its offset; both are filled in by scope resolution.
-/
namespace ObjectLang

inductive BinaryOp where
  | add
  | sub
  | mul
  | div
  | and
  | or
  | eq
  | le
  | ge
  deriving DecidableEq

namespace BinaryOp

def text : BinaryOp → String
  | .add => "+"
  | .sub => "-"
  | .mul => "*"
  | .div => "/"
  | .and => "&&"
  | .or => "||"
  | .eq => "=="
  | .le => "<="
  | .ge => ">="

def isArithmetic : BinaryOp → Bool
  | .add | .sub | .mul | .div => true
  | _ => false

def isLogical : BinaryOp → Bool
  | .and | .or => true
  | _ => false

def isComparison : BinaryOp → Bool
  | .eq | .le | .ge => true
  | _ => false

end BinaryOp

structure Ident where
  name : String
  use : Option Use := none
  deriving DecidableEq

inductive Expr where
  | int (line : Line) (value : Word)
  | bool (line : Line) (value : Bool)
  | null (line : Line)
  | id (line : Line) (ident : Ident)
  | call (line : Line) (callee : Ident) (args : List Expr)
  | binary (line : Line) (op : BinaryOp) (lhs rhs : Expr)
  | not (line : Line) (operand : Expr)
  | cond (line : Line) (test yes no : Expr)
  | print (line : Line) (operand : Expr)
  | new (line : Line) (cls : String) (args : List Expr) (binding : Option Binding)
  | send (line : Line) (object : Ident) (method : String) (args : List Expr)
      (binding : Option Binding)
  | get (line : Line) (object : Ident) (field : String) (binding : Option Binding)

def Expr.line : Expr → Line
  | .int line _ | .bool line _ | .null line | .id line _ | .call line _ _ | .binary line _ _ _
  | .not line _ | .cond line _ _ _ | .print line _ | .new line _ _ _ | .send line _ _ _ _
  | .get line _ _ _ => line

structure Param where
  line : Line
  name : String
  ty : Ty

structure Field where
  line : Line
  name : String
  ty : Ty
  offset : Word := 0

structure VarDecl where
  line : Line
  name : String
  ty : Ty
  init : Expr

mutual

inductive Decl where
  | var (decl : VarDecl)
  | fn (routine : Routine)
  | cls (decl : ClassDecl)

/-- A function, or the body of a method. -/
structure Routine where
  line : Line
  name : String
  ret : Ty
  params : List Param
  locals : List Decl
  body : Expr

structure Method where
  routine : Routine
  offset : Word

structure ClassDecl where
  line : Line
  name : String
  parent : Option String
  fields : List Field
  methods : List Method
  binding : Option Binding
  parentBinding : Option Binding

end

def Decl.line : Decl → Line
  | .var decl => decl.line
  | .fn routine => routine.line
  | .cls decl => decl.line

def Routine.signature (r : Routine) : Signature := ⟨r.params.map Param.ty, r.ret⟩

def Method.name (m : Method) : String := m.routine.name

structure Program where
  decls : List Decl
  body : Expr

end ObjectLang
