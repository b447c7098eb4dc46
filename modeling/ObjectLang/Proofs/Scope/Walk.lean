import ObjectLang.Scope.Resolve

/-!
Resolution as a walk over the tree. A walk has one context, which it changes as it goes: it opens
and closes scopes around bodies, adds declarations to the innermost scope, and puts the offset
counter aside while it is inside a routine. It notes the context at every point where it changed
something. Expressions change nothing.
-/
namespace ObjectLang

/-- What a visit to a part of the tree comes to: the part as it is now, the context afterwards, the
errors that were reported, and the context at each point on the way. -/
structure Visited (α : Type) where
  value : α
  context : Context
  errors : List ScopeError := []
  points : List Context := []

def Visit (α : Type) : Type := Context → Visited α

namespace Visit

instance : Monad Visit where
  pure value := fun ctx => { value, context := ctx }
  bind first next := fun ctx =>
    let before := first ctx
    let rest := next before.value before.context
    ⟨rest.value, rest.context, before.errors ++ rest.errors, before.points ++ rest.points⟩

def here : Visit Context := fun ctx => { value := ctx, context := ctx }

def report (errors : List ScopeError) : Visit Unit :=
  fun ctx => { value := (), context := ctx, errors }

def move (next : Context) : Visit Unit := fun _ => ⟨(), next, [], [next]⟩

def enter (table : Table Binding) : Visit Unit := do
  let ctx ← here
  move { ctx with scopes := ctx.scopes.enter table }

def leave : Visit Unit := do
  let ctx ← here
  match ctx.scopes.leave? with
  | some (_, outer) => move { ctx with scopes := outer }
  | none => pure ()

def setOffset (offset : Word) : Visit Unit := do
  let ctx ← here
  move { ctx with nextOffset := offset }

def takeOffset : Visit Word := do
  let ctx ← here
  setOffset (ctx.nextOffset - 1)
  return ctx.nextOffset

def declare (kind : NameKind) (name : String) (ty : Ty) (offset : Word) (line : Line) :
    Visit Unit := do
  let ctx ← here
  match ctx.scopes.declare? name ⟨ctx.scopes.level, ty, offset⟩ with
  | .ok scopes => move { ctx with scopes }
  | .error _ => report [.duplicate kind name line]

def declareNext (kind : NameKind) (name : String) (ty : Ty) (line : Line) : Visit Unit := do
  let offset ← takeOffset
  declare kind name ty offset line

def declareParams (offset : Word) : List Param → Visit Unit
  | [] => pure ()
  | p :: params => do
    declare .param p.name p.ty offset p.line
    declareParams (offset + 1) params

def checkType (ty : Ty) (line : Line) : Visit Unit := do
  let ctx ← here
  report (ty.scopeErrors ctx.inheritance line)

def recordClass (name : String) (table : Table Binding) : Visit Unit := do
  let ctx ← here
  move { ctx with classes := ctx.classes.insert name table }

def classBinding (line : Line) (cls : String) (old : Option Binding) : Visit (Option Binding) := do
  let ctx ← here
  match ctx.scopes.lookupGlobal cls with
  | some binding => return some binding
  | none =>
    report [.undeclaredClass cls line]
    return old

def member (line : Line) (object : Ident) (name : String) : Visit (Option Binding) := do
  let ctx ← here
  let found := ctx.member object name
  report (found.errors object.name name line)
  return found.binding?

end Visit

open Visit

def Ident.visit (kind : NameKind) (line : Line) (i : Ident) : Visit Ident := do
  let ctx ← here
  match ctx.scopes.lookup i.name with
  | some binding => return { i with use := some ⟨binding, ctx.scopes.level⟩ }
  | none =>
    report [.undeclared kind i.name line]
    return i

namespace Expr

mutual

def visit : Expr → Visit Expr
  | .id line ident => do
    let ident ← ident.visit .var line
    return .id line ident
  | .call line callee args => do
    let callee ← callee.visit .fn line
    let args ← visitAll args
    return .call line callee args
  | .binary line op lhs rhs => do
    let lhs ← visit lhs
    let rhs ← visit rhs
    return .binary line op lhs rhs
  | .not line operand => do
    let operand ← visit operand
    return .not line operand
  | .cond line test yes no => do
    let test ← visit test
    let yes ← visit yes
    let no ← visit no
    return .cond line test yes no
  | .print line operand => do
    let operand ← visit operand
    return .print line operand
  | .new line cls args binding => do
    let binding ← classBinding line cls binding
    let args ← visitAll args
    return .new line cls args binding
  | .send line object method args _ => do
    let object ← object.visit .var line
    let binding ← member line object method
    let args ← visitAll args
    return .send line object method args binding
  | .get line object field _ => do
    let object ← object.visit .var line
    let binding ← member line object field
    return .get line object field binding
  | .int line value => return .int line value
  | .bool line value => return .bool line value
  | .null line => return .null line

def visitAll : List Expr → Visit (List Expr)
  | [] => return []
  | e :: es => do
    let e ← visit e
    let es ← visitAll es
    return e :: es

end

end Expr

def ClassDecl.visitHeader (c : ClassDecl) : Visit Unit := do
  let ctx ← here
  report (match c.parent, ctx.parent? c with
    | some name, none => [.undeclaredClass name c.line]
    | _, _ => [])
  move { ctx with inheritance := ctx.inheritanceWith c }
  let offset ← takeOffset
  report ((ctx.inherited c).fieldsErrors (ctx.inheritanceWith c) c.name c.fields)
  report (((ctx.inherited c).addFields c.fields).methodsErrors (ctx.inheritanceWith c) c.name
    c.methods)
  declare .cls c.name (.cls (ctx.members c).layout) offset c.line
  if ctx.inheritance.contains c.name then pure ()
  else recordClass c.name (ctx.members c).table

def ClassDecl.visit (c : ClassDecl) (methods : Members → Visit (List Method)) :
    Visit ClassDecl := do
  let ctx ← here
  c.visitHeader
  enter (ctx.members c).table
  let methods ← methods ((ctx.inherited c).addFields c.fields)
  leave
  return { c with
    fields := (ctx.inherited c).placeFields c.fields
    methods
    binding := some (ctx.classBinding c)
    parentBinding := ((ctx.parent? c).map Parent.binding).or c.parentBinding }

namespace Decl

mutual

def visit : Decl → Visit Decl
  | .var ⟨line, name, ty, init⟩ => do
    -- The initial value comes first, so it cannot use the variable.
    let init ← init.visit
    checkType ty line
    declareNext .var name ty line
    return .var ⟨line, name, ty, init⟩
  | .fn routine => do
    checkType (.arrow routine.signature) routine.line
    declareNext .fn routine.name (.arrow routine.signature) routine.line
    -- Now the function can call itself.
    let routine ← visitRoutine routine
    return .fn routine
  | .cls ⟨line, name, parent, fields, methods, binding, parentBinding⟩ => do
    let c : ClassDecl := ⟨line, name, parent, fields, methods, binding, parentBinding⟩
    let ctx ← here
    if ctx.isGlobal then
      let c ← c.visit fun m => visitMethods m methods
      return .cls c
    else
      report [.nestedClass name line]
      return .cls c

def visitRoutine : Routine → Visit Routine
  | ⟨line, name, ret, params, locals, body⟩ => do
    enter {}
    let ctx ← here
    setOffset Context.firstOffset
    declareParams 1 params
    let locals ← visitAll locals
    let body ← body.visit
    leave
    -- The scope around the routine goes on with its own count.
    setOffset ctx.nextOffset
    return ⟨line, name, ret, params, locals, body⟩

def visitMethods (m : Members) : List Method → Visit (List Method)
  | [] => return []
  | ⟨routine, _⟩ :: methods => do
    let visited ← visitRoutine routine
    let methods ← visitMethods (m.addMethod routine.name routine.signature) methods
    return ⟨visited, (m.methodPlacement routine.name).offset⟩ :: methods

def visitAll : List Decl → Visit (List Decl)
  | [] => return []
  | d :: ds => do
    let d ← visit d
    let ds ← visitAll ds
    return d :: ds

end

end Decl

def Context.outside : Context := ⟨{}, {}, {}, firstOffset⟩

namespace Program

def visit (p : Program) : Visit Program := do
  enter {}
  let decls ← Decl.visitAll p.decls
  let body ← p.body.visit
  leave
  return ⟨decls, body⟩

def walk (p : Program) : Visited Program := p.visit Context.outside

def points (p : Program) : List Context := Context.outside :: p.walk.points

end Program

def Visited.resolved (v : Visited Program) : Resolved where
  program := v.value
  inheritance := v.context.inheritance
  classes := v.context.classes
  errors := v.errors

/-! Visits that stay at the point where the walk is. -/

namespace Visit

variable {α β : Type}

@[simp] theorem pure_apply (value : α) (ctx : Context) :
    (pure value : Visit α) ctx = ⟨value, ctx, [], []⟩ := rfl

@[simp] theorem here_apply (ctx : Context) : here ctx = ⟨ctx, ctx, [], []⟩ := rfl

@[simp] theorem report_apply (errors : List ScopeError) (ctx : Context) :
    report errors ctx = ⟨(), ctx, errors, []⟩ := rfl

@[simp] theorem bind_apply (first : Visit α) (next : α → Visit β) (ctx : Context) :
    (first >>= next) ctx =
      ⟨(next (first ctx).value (first ctx).context).value,
        (next (first ctx).value (first ctx).context).context,
        (first ctx).errors ++ (next (first ctx).value (first ctx).context).errors,
        (first ctx).points ++ (next (first ctx).value (first ctx).context).points⟩ := rfl

@[simp] theorem classBinding_apply (line : Line) (cls : String) (old : Option Binding)
    (ctx : Context) :
    classBinding line cls old ctx =
      ⟨(ctx.scopes.lookupGlobal cls).or old, ctx,
        match ctx.scopes.lookupGlobal cls with
        | some _ => []
        | none => [.undeclaredClass cls line], []⟩ := by
  cases known : ctx.scopes.lookupGlobal cls <;> simp [classBinding, known]

@[simp] theorem member_apply (line : Line) (object : Ident) (name : String) (ctx : Context) :
    member line object name ctx =
      ⟨(ctx.member object name).binding?, ctx,
        (ctx.member object name).errors object.name name line, []⟩ := by
  simp [member]

end Visit

@[simp] theorem Ident.visit_apply (kind : NameKind) (line : Line) (i : Ident) (ctx : Context) :
    i.visit kind line ctx =
      ⟨i.resolve ctx.scopes, ctx, i.scopeErrors ctx.scopes kind line, []⟩ := by
  cases known : ctx.scopes.lookup i.name <;>
    simp [Ident.visit, Ident.resolve, Ident.scopeErrors, Scopes.use?, known]

namespace Expr

mutual

theorem visit_apply (ctx : Context) : (e : Expr) →
    e.visit ctx = ⟨e.resolve ctx, ctx, e.scopeErrors ctx, []⟩
  | .int _ _ | .bool _ _ | .null _ => rfl
  | .id line ident => by simp [visit, resolve, scopeErrors]
  | .call line callee args => by
    simp [visit, resolve, scopeErrors, visitAll_apply ctx args]
  | .binary line op lhs rhs => by
    simp [visit, resolve, scopeErrors, visit_apply ctx lhs, visit_apply ctx rhs]
  | .not line operand => by simp [visit, resolve, scopeErrors, visit_apply ctx operand]
  | .cond line test yes no => by
    simp [visit, resolve, scopeErrors, visit_apply ctx test, visit_apply ctx yes,
      visit_apply ctx no]
  | .print line operand => by simp [visit, resolve, scopeErrors, visit_apply ctx operand]
  | .new line cls args binding => by
    cases known : ctx.scopes.lookupGlobal cls <;>
      simp [visit, resolve, scopeErrors, visitAll_apply ctx args, known]
  | .send line object method args binding => by
    simp [visit, resolve, scopeErrors, visitAll_apply ctx args, Ident.resolve]
  | .get line object field binding => by
    simp [visit, resolve, scopeErrors, Ident.resolve]

theorem visitAll_apply (ctx : Context) : (es : List Expr) →
    visitAll es ctx = ⟨resolveAll ctx es, ctx, allScopeErrors ctx es, []⟩
  | [] => rfl
  | e :: es => by
    simp [visitAll, resolveAll, allScopeErrors, visit_apply ctx e, visitAll_apply ctx es]

end

end Expr

end ObjectLang
