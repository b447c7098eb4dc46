import ObjectLang.Scope.Members

/-!
What is known at a point of a program: the open scopes, the member table of every class so far,
the inheritance between them, and the next free offset in the innermost frame. A declaration
changes the context by its header alone, whatever its body holds.
-/
namespace ObjectLang

structure Context where
  scopes : Scopes
  classes : Table (Table Binding)
  inheritance : Inheritance
  nextOffset : Word

structure Parent where
  name : String
  binding : Binding
  layout : Layout
  table : Table Binding

namespace Context

/-- Offsets of declarations in a frame start below the saved return address. -/
def firstOffset : Word := -2

def initial : Context := ⟨Scopes.enter {} {}, {}, {}, firstOffset⟩

/-- Declares a name in the innermost scope and takes the next offset. The offset is taken even if
the scope has the name already. -/
def declare (ctx : Context) (name : String) (ty : Ty) : Context :=
  { ctx with
    scopes := ctx.scopes.declare name ⟨ctx.scopes.level, ty, ctx.nextOffset⟩
    nextOffset := ctx.nextOffset - 1 }

def parent? (ctx : Context) (c : ClassDecl) : Option Parent :=
  c.parent.bind fun name =>
    match ctx.scopes.lookupGlobal name, ctx.classes.find? name with
    | some binding, some table =>
      match binding.ty with
      | .cls layout => some ⟨name, binding, layout, table⟩
      | _ => none
    | _, _ => none

def inherited (ctx : Context) (c : ClassDecl) : Members :=
  match ctx.parent? c with
  | some parent => { layout := parent.layout, table := parent.table }
  | none => {}

def inheritanceWith (ctx : Context) (c : ClassDecl) : Inheritance :=
  ctx.inheritance.declare c.name ((ctx.parent? c).map Parent.name)

def members (ctx : Context) (c : ClassDecl) : Members :=
  ((ctx.inherited c).addFields c.fields).addMethods c.methods

def classBinding (ctx : Context) (c : ClassDecl) : Binding :=
  ⟨ctx.scopes.level, .cls (ctx.members c).layout, ctx.nextOffset⟩

/-- Of two classes of one name, the member table of the first stays. -/
def declareClass (ctx : Context) (c : ClassDecl) : Context where
  scopes := ctx.scopes.declare c.name (ctx.classBinding c)
  classes :=
    if ctx.inheritance.contains c.name then ctx.classes
    else ctx.classes.insert c.name (ctx.members c).table
  inheritance := ctx.inheritanceWith c
  nextOffset := ctx.nextOffset - 1

def isGlobal (ctx : Context) : Bool := ctx.scopes.level == 0

/-- The context after a declaration. A class that is not global declares nothing. -/
def after (ctx : Context) : Decl → Context
  | .var decl => ctx.declare decl.name decl.ty
  | .fn routine => ctx.declare routine.name (.arrow routine.signature)
  | .cls decl => if ctx.isGlobal then ctx.declareClass decl else ctx

/-- The context in which the methods of a class are read: its members form a scope. -/
def inClass (ctx : Context) (c : ClassDecl) : Context :=
  { ctx.declareClass c with
    scopes := (ctx.declareClass c).scopes.enter (ctx.members c).table }

end Context

namespace Scopes

def declareParams (s : Scopes) (offset : Word) : List Param → Scopes
  | [] => s
  | p :: params => (s.declare p.name ⟨s.level, p.ty, offset⟩).declareParams (offset + 1) params

def paramErrors (s : Scopes) (offset : Word) : List Param → List ScopeError
  | [] => []
  | p :: params =>
    (if s.declaresHere p.name then [.duplicate .param p.name p.line] else []) ++
      (s.declare p.name ⟨s.level, p.ty, offset⟩).paramErrors (offset + 1) params

end Scopes

def Context.inRoutine (ctx : Context) (params : List Param) : Context :=
  { ctx with
    scopes := (ctx.scopes.enter {}).declareParams 1 params
    nextOffset := Context.firstOffset }

end ObjectLang
