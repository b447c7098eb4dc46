import ObjectLang.Tree
import ObjectLang.Ty.Order
import ObjectLang.Typing.Error

/-!
Types of resolved expressions. The check of an expression stops at its first finding.
-/
namespace ObjectLang

def Ty.settled (ty : Ty) : Except Finding Ty :=
  if ty.isIncomplete then .error .incomplete else .ok ty

/-- Only variables can stand alone; functions, methods and classes cannot. -/
def Ident.typeOf (line : Line) (i : Ident) : Except Finding Ty :=
  match i.use with
  | none => .error .incomplete
  | some use =>
    match use.binding.ty with
    | .arrow _ => .error (.error (.illegalUse "function identifier" i.name line))
    | .method _ => .error (.error (.illegalUse "method identifier" i.name line))
    | .cls _ => .error (.error (.illegalUse "class identifier" i.name line))
    | ty => .ok ty

namespace BinaryOp

def complaint : BinaryOp → String
  | .add => "Non integers in sum"
  | .sub => "Non integers in subtraction"
  | .mul => "Non integers in multiplication"
  | .div => "Non integers in division"
  | .and => "Non booleans in and"
  | .or => "Non booleans in or"
  | .eq => "Incompatible types in equal"
  | .le => "Incompatible types in less or equal"
  | .ge => "Incompatible types in greater or equal"

def accepts (h : Inheritance) (op : BinaryOp) (lhs rhs : Ty) : Bool :=
  if op.isComparison then lhs.subtype h rhs || rhs.subtype h lhs
  else if op.isArithmetic then lhs.subtype h .int && rhs.subtype h .int
  else lhs.subtype h .bool && rhs.subtype h .bool

def result (op : BinaryOp) : Ty := if op.isArithmetic then .int else .bool

end BinaryOp

def checkArity (callee : String) (line : Line) (expected found : Nat) : Except Finding Unit :=
  if expected = found then .ok () else .error (.error (.wrongArity callee expected found line))

namespace Expr

mutual

def typeOf (h : Inheritance) : Expr → Except Finding Ty
  | .int _ _ => .ok .int
  | .bool _ _ => .ok .bool
  | .null _ => .ok .null
  | .id line ident => do (← ident.typeOf line).settled
  | .call line callee args =>
    match callee.use with
    | none => .error .incomplete
    | some use =>
      match use.binding.ty.signature? with
      | none => .error (.error (.notCallable callee.name line))
      | some sig => do
        checkArity callee.name line sig.params.length args.length
        checkArgs h callee.name line 1 sig.params args
        sig.ret.settled
  | .binary line op lhs rhs => do
    let left ← typeOf h lhs
    let right ← typeOf h rhs
    if op.accepts h left right then .ok op.result
    else .error (.error (.mismatch op.complaint line))
  | .not line operand => do
    let ty ← typeOf h operand
    if ty.subtype h .bool then .ok .bool
    else .error (.error (.mismatch "Non boolean in not" line))
  | .cond line test yes no => do
    let ty ← typeOf h test
    if ty.subtype h .bool then
      let left ← typeOf h yes
      let right ← typeOf h no
      match left.join h right with
      | some ty => .ok ty
      | none => .error (.error (.incompatibleBranches line))
    else .error (.error (.mismatch "Non boolean condition in if" line))
  | .print _ operand => typeOf h operand
  | .new line cls args binding =>
    match binding with
    | none => .error .incomplete
    | some binding =>
      match binding.ty with
      | .cls layout => do
        checkArity cls line layout.fields.length args.length
        checkArgs h cls line 1 layout.fields args
        .ok (.ref cls)
      | _ => .error (.error (.notAClass cls line))
  | .send line _ method args binding =>
    match binding with
    | none => .error .incomplete
    | some binding =>
      match binding.ty with
      | .method sig => do
        checkArity method line sig.params.length args.length
        checkArgs h method line 1 sig.params args
        sig.ret.settled
      | _ => .error (.error (.notCallable method line))
  | .get line _ field binding =>
    match binding with
    | none => .error .incomplete
    | some binding =>
      if binding.ty.isMethod then .error (.error (.illegalUse "method identifier" field line))
      else binding.ty.settled

/-- Checks arguments against formals in order; the first of them has number `index`. -/
def checkArgs (h : Inheritance) (callee : String) (line : Line) (index : Nat) :
    List Ty → List Expr → Except Finding Unit
  | formal :: formals, arg :: args => do
    let ty ← typeOf h arg
    if ty.subtype h formal then checkArgs h callee line (index + 1) formals args
    else .error (.error (.wrongArgument callee index line))
  | _, _ => .ok ()

end

end Expr

end ObjectLang
