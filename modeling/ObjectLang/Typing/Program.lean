import ObjectLang.Typing.Expr

/-!
Type findings of declarations and programs. A finding in one declaration does not stop the check
of its neighbours, so the findings of a program are those of its parts in order.
-/
namespace ObjectLang

/-- The finding of a check that has nothing to deliver. -/
def Finding.ofCheck : Except Finding Unit → List Finding
  | .ok _ => []
  | .error finding => [finding]

def VarDecl.check (h : Inheritance) (decl : VarDecl) : Except Finding Unit := do
  let ty ← decl.init.typeOf h
  if decl.ty.containsIncomplete then .error .incomplete
  else if ty.subtype h decl.ty then .ok ()
  else .error (.error (.incompatibleValue decl.name decl.line))

def Routine.checkResult (h : Inheritance) (r : Routine) : Except Finding Unit := do
  let ty ← r.body.typeOf h
  if ty.subtype h r.ret then .ok ()
  else .error (.error (.wrongReturnType r.name r.line))

namespace ClassDecl

def parentLayout? (c : ClassDecl) : Option Layout :=
  c.parentBinding.bind fun binding =>
    match binding.ty with
    | .cls layout => some layout
    | _ => none

def fieldFindings (h : Inheritance) (c : ClassDecl) (inherited : Layout) (f : Field) :
    List Finding :=
  match inherited.fieldAt? f.offset with
  | none => []
  | some ty => if f.ty.subtype h ty then [] else [.error (.badOverride c.name f.name f.line)]

def methodFindings (h : Inheritance) (c : ClassDecl) (inherited : Layout) (m : Method) :
    List Finding :=
  match inherited.methodAt? m.offset with
  | none => []
  | some sig =>
    if (Ty.method m.routine.signature).subtype h (.method sig) then []
    else [.error (.badOverride c.name m.name m.routine.line)]

def overrideFindings (h : Inheritance) (c : ClassDecl) : List Finding :=
  match c.parentLayout? with
  | none => []
  | some inherited =>
    c.fields.flatMap (c.fieldFindings h inherited) ++
      c.methods.flatMap (c.methodFindings h inherited)

end ClassDecl

namespace Decl

mutual

def findings (h : Inheritance) : Decl → List Finding
  | .var decl => Finding.ofCheck (decl.check h)
  | .fn routine => routineFindings h routine
  | .cls ⟨line, name, parent, fields, methods, binding, parentBinding⟩ =>
    methodsFindings h methods ++
      ClassDecl.overrideFindings h ⟨line, name, parent, fields, methods, binding, parentBinding⟩

def routineFindings (h : Inheritance) : Routine → List Finding
  | ⟨line, name, ret, params, locals, body⟩ =>
    allFindings h locals ++
      Finding.ofCheck (Routine.checkResult h ⟨line, name, ret, params, locals, body⟩)

def methodsFindings (h : Inheritance) : List Method → List Finding
  | [] => []
  | ⟨routine, _⟩ :: methods => routineFindings h routine ++ methodsFindings h methods

def allFindings (h : Inheritance) : List Decl → List Finding
  | [] => []
  | d :: ds => findings h d ++ allFindings h ds

end

end Decl

structure Checked where
  ty : Option Ty
  findings : List Finding

def Checked.errors (c : Checked) : List TypeError := c.findings.filterMap Finding.error?

def Program.check (h : Inheritance) (p : Program) : Checked :=
  let found := Decl.allFindings h p.decls
  match p.body.typeOf h with
  | .ok ty => ⟨some ty, found⟩
  | .error finding => ⟨none, found ++ [finding]⟩

end ObjectLang
