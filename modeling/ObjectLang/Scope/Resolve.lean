import ObjectLang.Scope.Context

/-!
Scope resolution. Resolving a tree fills in what its names mean and leaves everything else as it
is; a name without a declaration keeps what it had. The scope errors of a tree are a second
function on it. Both read the context and pass it on: an expression leaves it as it is, and a
declaration hands `Context.after` to the next one.
-/
namespace ObjectLang

def Ident.resolve (s : Scopes) (i : Ident) : Ident := { i with use := (s.use? i.name).or i.use }

def Ident.scopeErrors (s : Scopes) (kind : NameKind) (line : Line) (i : Ident) : List ScopeError :=
  match s.lookup i.name with
  | some _ => []
  | none => [.undeclared kind i.name line]

inductive MemberLookup where
  | unknown
  | notAnObject
  | missing (cls : String)
  | found (binding : Binding)

namespace MemberLookup

def binding? : MemberLookup → Option Binding
  | .found binding => some binding
  | _ => none

def errors (object member : String) (line : Line) : MemberLookup → List ScopeError
  | .unknown | .found _ => []
  | .notAnObject => [.notAnObject object line]
  | .missing cls => [.undeclaredMember cls member line]

end MemberLookup

def Context.member (ctx : Context) (object : Ident) (member : String) : MemberLookup :=
  match object.use with
  | none => .unknown
  | some use =>
    match use.binding.ty with
    | .ref cls =>
      match (ctx.classes.find? cls).bind fun table => table.find? member with
      | some binding => .found binding
      | none => .missing cls
    | _ => .notAnObject

namespace Expr

mutual

def resolve (ctx : Context) : Expr → Expr
  | .id line ident => .id line (ident.resolve ctx.scopes)
  | .call line callee args => .call line (callee.resolve ctx.scopes) (resolveAll ctx args)
  | .binary line op lhs rhs => .binary line op (resolve ctx lhs) (resolve ctx rhs)
  | .not line operand => .not line (resolve ctx operand)
  | .cond line test yes no => .cond line (resolve ctx test) (resolve ctx yes) (resolve ctx no)
  | .print line operand => .print line (resolve ctx operand)
  | .new line cls args binding =>
    .new line cls (resolveAll ctx args) ((ctx.scopes.lookupGlobal cls).or binding)
  | .send line object method args _ =>
    let object := object.resolve ctx.scopes
    .send line object method (resolveAll ctx args) (ctx.member object method).binding?
  | .get line object field _ =>
    let object := object.resolve ctx.scopes
    .get line object field (ctx.member object field).binding?
  | .int line value => .int line value
  | .bool line value => .bool line value
  | .null line => .null line

def resolveAll (ctx : Context) : List Expr → List Expr
  | [] => []
  | e :: es => resolve ctx e :: resolveAll ctx es

end

mutual

def scopeErrors (ctx : Context) : Expr → List ScopeError
  | .id line ident => ident.scopeErrors ctx.scopes .var line
  | .call line callee args => callee.scopeErrors ctx.scopes .fn line ++ allScopeErrors ctx args
  | .binary _ _ lhs rhs => scopeErrors ctx lhs ++ scopeErrors ctx rhs
  | .not _ operand => scopeErrors ctx operand
  | .cond _ test yes no => scopeErrors ctx test ++ scopeErrors ctx yes ++ scopeErrors ctx no
  | .print _ operand => scopeErrors ctx operand
  | .new line cls args _ =>
    (match ctx.scopes.lookupGlobal cls with
      | some _ => []
      | none => [.undeclaredClass cls line]) ++ allScopeErrors ctx args
  | .send line object method args _ =>
    object.scopeErrors ctx.scopes .var line ++
      (ctx.member (object.resolve ctx.scopes) method).errors object.name method line ++
        allScopeErrors ctx args
  | .get line object field _ =>
    object.scopeErrors ctx.scopes .var line ++
      (ctx.member (object.resolve ctx.scopes) field).errors object.name field line
  | .int _ _ | .bool _ _ | .null _ => []

def allScopeErrors (ctx : Context) : List Expr → List ScopeError
  | [] => []
  | e :: es => scopeErrors ctx e ++ allScopeErrors ctx es

end

end Expr

/-- Faults of a class header, in this order: an unknown parent, faulty fields, faulty methods, a
name that the global scope has already. -/
def ClassDecl.headerErrors (ctx : Context) (c : ClassDecl) : List ScopeError :=
  let inheritance := ctx.inheritanceWith c
  let inherited := ctx.inherited c
  (match c.parent, ctx.parent? c with
    | some name, none => [.undeclaredClass name c.line]
    | _, _ => []) ++
  inherited.fieldsErrors inheritance c.name c.fields ++
  (inherited.addFields c.fields).methodsErrors inheritance c.name c.methods ++
  (if ctx.scopes.declaresHere c.name then [.duplicate .cls c.name c.line] else [])

namespace Decl

mutual

def resolve (ctx : Context) : Decl → Decl
  | .var ⟨line, name, ty, init⟩ => .var ⟨line, name, ty, init.resolve ctx⟩
  | .fn routine => .fn (resolveRoutine (ctx.after (.fn routine)) routine)
  | .cls ⟨line, name, parent, fields, methods, binding, parentBinding⟩ =>
    let c : ClassDecl := ⟨line, name, parent, fields, methods, binding, parentBinding⟩
    if ctx.isGlobal then
      .cls ⟨line, name, parent, (ctx.inherited c).placeFields fields,
        resolveMethods (ctx.inClass c) ((ctx.inherited c).addFields fields) methods,
        some (ctx.classBinding c), ((ctx.parent? c).map Parent.binding).or parentBinding⟩
    else .cls c

/-- Here `ctx` is the context outside the routine, which knows the routine's own name. -/
def resolveRoutine (ctx : Context) : Routine → Routine
  | ⟨line, name, ret, params, locals, body⟩ =>
    let inside := ctx.inRoutine params
    ⟨line, name, ret, params, resolveAll inside locals,
      body.resolve (locals.foldl Context.after inside)⟩

def resolveMethods (ctx : Context) (m : Members) : List Method → List Method
  | [] => []
  | ⟨routine, _⟩ :: methods =>
    ⟨resolveRoutine ctx routine, (m.methodPlacement routine.name).offset⟩ ::
      resolveMethods ctx (m.addMethod routine.name routine.signature) methods

def resolveAll (ctx : Context) : List Decl → List Decl
  | [] => []
  | d :: ds => resolve ctx d :: resolveAll (ctx.after d) ds

end

mutual

def scopeErrors (ctx : Context) : Decl → List ScopeError
  | .var ⟨line, name, ty, init⟩ =>
    init.scopeErrors ctx ++ ty.scopeErrors ctx.inheritance line ++
      (if ctx.scopes.declaresHere name then [.duplicate .var name line] else [])
  | .fn routine =>
    (Ty.arrow routine.signature).scopeErrors ctx.inheritance routine.line ++
      (if ctx.scopes.declaresHere routine.name then [.duplicate .fn routine.name routine.line]
        else []) ++
      routineScopeErrors (ctx.after (.fn routine)) routine
  | .cls ⟨line, name, parent, fields, methods, binding, parentBinding⟩ =>
    let c : ClassDecl := ⟨line, name, parent, fields, methods, binding, parentBinding⟩
    if ctx.isGlobal then c.headerErrors ctx ++ methodsScopeErrors (ctx.inClass c) methods
    else [.nestedClass name line]

def routineScopeErrors (ctx : Context) : Routine → List ScopeError
  | ⟨_, _, _, params, locals, body⟩ =>
    let inside := ctx.inRoutine params
    (ctx.scopes.enter {}).paramErrors 1 params ++ allScopeErrors inside locals ++
      body.scopeErrors (locals.foldl Context.after inside)

def methodsScopeErrors (ctx : Context) : List Method → List ScopeError
  | [] => []
  | ⟨routine, _⟩ :: methods => routineScopeErrors ctx routine ++ methodsScopeErrors ctx methods

def allScopeErrors (ctx : Context) : List Decl → List ScopeError
  | [] => []
  | d :: ds => scopeErrors ctx d ++ allScopeErrors (ctx.after d) ds

end

end Decl

structure Resolved where
  program : Program
  inheritance : Inheritance
  classes : Table (Table Binding)
  errors : List ScopeError

def Program.context (p : Program) : Context := p.decls.foldl Context.after Context.initial

def Program.resolve (p : Program) : Resolved where
  program := ⟨Decl.resolveAll Context.initial p.decls, p.body.resolve p.context⟩
  inheritance := p.context.inheritance
  classes := p.context.classes
  errors := Decl.allScopeErrors Context.initial p.decls ++ p.body.scopeErrors p.context

end ObjectLang
