import ObjectLang.Proofs.DeclaredTypes
import ObjectLang.Proofs.Sites

/-!
Scope rules, stated on programs as they are written. What a name means to these rules is its role;
every expression stands in surroundings that give the roles of the names in scope. The members of a
class are read off the declarations that are in scope.
-/
namespace ObjectLang

inductive Role where
  | object (cls : String)
  | method
  | other
  deriving DecidableEq

abbrev Roles := List (String × Role)

def Roles.Distinct (names : Roles) : Prop := (names.map Prod.fst).Nodup

namespace Ty

def role : Ty → Role
  | .ref name => .object name
  | .method _ => .method
  | _ => .other

mutual

def classNames : Ty → List String
  | .ref name => [name]
  | .arrow ⟨ps, r⟩ => allClassNames ps ++ classNames r
  | .method ⟨ps, r⟩ => allClassNames ps ++ classNames r
  | _ => []

def allClassNames : List Ty → List String
  | [] => []
  | a :: as => classNames a ++ allClassNames as

end

end Ty

def Param.named (p : Param) : String × Role := (p.name, p.ty.role)

def Field.named (f : Field) : String × Role := (f.name, f.ty.role)

def Method.named (m : Method) : String × Role := (m.name, .method)

def ClassDecl.own (c : ClassDecl) : Roles := c.fields.map Field.named ++ c.methods.map Method.named

namespace Decl

def named : Decl → String × Role
  | .var decl => (decl.name, decl.ty.role)
  | .fn routine => (routine.name, .other)
  | .cls c => (c.name, .other)

def HasClass (name : String) (ds : List Decl) : Prop := ∃ c, .cls c ∈ ds ∧ c.name = name

/-- The members of a class among these declarations, the latest of which comes first. A class finds
its parent among the declarations before it, and its own members hide inherited ones. -/
def membersOf (name : String) : List Decl → Roles
  | [] => []
  | .cls c :: earlier =>
    if c.name = name then c.own ++ c.parent.elim [] fun parent => membersOf parent earlier
    else membersOf name earlier
  | .var _ :: earlier | .fn _ :: earlier => membersOf name earlier

end Decl

def ClassDecl.inherited (earlier : List Decl) (c : ClassDecl) : Roles :=
  c.parent.elim [] fun parent => Decl.membersOf parent earlier

structure Surroundings where
  /-- The global declarations in scope, the latest first. -/
  globals : List Decl
  /-- The scopes inside the global one, the innermost first. -/
  inner : List Roles := []

namespace Surroundings

def scopes (s : Surroundings) : List Roles := s.inner ++ [s.globals.map Decl.named]

def lookup (s : Surroundings) (name : String) : Option Role := s.scopes.flatten.lookup name

def enter (s : Surroundings) (names : Roles) : Surroundings := { s with inner := names :: s.inner }

def after (s : Surroundings) (d : Decl) : Surroundings :=
  match s.inner with
  | [] => { s with globals := d :: s.globals }
  | names :: outer => { s with inner := (d.named :: names) :: outer }

def inClass (s : Surroundings) (c : ClassDecl) : Surroundings :=
  (s.after (.cls c)).enter (Decl.membersOf c.name (s.after (.cls c)).globals)

def inRoutine (s : Surroundings) (r : Routine) : Surroundings := s.enter (r.params.map Param.named)

end Surroundings

namespace Expr

mutual

def nodes : Expr → List Expr
  | .int line value => [.int line value]
  | .bool line value => [.bool line value]
  | .null line => [.null line]
  | .id line ident => [.id line ident]
  | .call line callee args => .call line callee args :: allNodes args
  | .binary line op lhs rhs => .binary line op lhs rhs :: (nodes lhs ++ nodes rhs)
  | .not line operand => .not line operand :: nodes operand
  | .cond line test yes no => .cond line test yes no :: (nodes test ++ nodes yes ++ nodes no)
  | .print line operand => .print line operand :: nodes operand
  | .new line cls args binding => .new line cls args binding :: allNodes args
  | .send line object method args binding =>
    .send line object method args binding :: allNodes args
  | .get line object field binding => [.get line object field binding]

def allNodes : List Expr → List Expr
  | [] => []
  | e :: es => nodes e ++ allNodes es

end

def created? : Expr → Option String
  | .new _ cls _ _ => some cls
  | _ => none

def access? : Expr → Option (String × String)
  | .send _ object method _ _ => some (object.name, method)
  | .get _ object field _ => some (object.name, field)
  | _ => none

structure InScope (s : Surroundings) (e : Expr) : Prop where
  /-- A name that is mentioned, as a variable, a function or a receiver, is in scope. -/
  mentioned : ∀ kind ident, e.mention? = some (kind, ident) →
    ∃ role, s.lookup ident.name = some role
  /-- What objects are made of is declared globally. -/
  created : ∀ cls, e.created? = some cls → ∃ d ∈ s.globals, d.named.1 = cls
  /-- A receiver is an object of a class that has the member. -/
  accessed : ∀ object member, e.access? = some (object, member) →
    ∃ cls, s.lookup object = some (.object cls) ∧
      ∃ role, (Decl.membersOf cls s.globals).lookup member = some role

end Expr

namespace Decl

mutual

def places (s : Surroundings) : Decl → List (Surroundings × Expr)
  | .var ⟨_, _, _, init⟩ => init.nodes.map fun e => (s, e)
  | .fn routine => routinePlaces (s.after (.fn routine)) routine
  | .cls ⟨line, name, parent, fields, methods, binding, parentBinding⟩ =>
    methodPlaces (s.inClass ⟨line, name, parent, fields, methods, binding, parentBinding⟩) methods

def routinePlaces (s : Surroundings) : Routine → List (Surroundings × Expr)
  | ⟨line, name, ret, params, locals, body⟩ =>
    let inside := s.inRoutine ⟨line, name, ret, params, locals, body⟩
    allPlaces inside locals ++
      body.nodes.map fun e => (locals.foldl Surroundings.after inside, e)

def methodPlaces (s : Surroundings) : List Method → List (Surroundings × Expr)
  | [] => []
  | ⟨routine, _⟩ :: methods => routinePlaces s routine ++ methodPlaces s methods

def allPlaces (s : Surroundings) : List Decl → List (Surroundings × Expr)
  | [] => []
  | d :: ds => places s d ++ allPlaces (s.after d) ds

end

end Decl

structure Routine.WellScoped (r : Routine) : Prop where
  distinct : Roles.Distinct (r.params.map Param.named ++ r.locals.map Decl.named)
  noClass : ∀ c, .cls c ∉ r.locals

structure ClassDecl.WellScoped (earlier : List Decl) (c : ClassDecl) : Prop where
  distinct : c.own.Distinct
  /-- The parent is a class declared earlier. -/
  parent : ∀ name, c.parent = some name → Decl.HasClass name earlier
  /-- A member with an inherited name is a method if and only if the inherited one is. -/
  kinds : ∀ member ∈ c.own, ∀ inherited, (c.inherited earlier).lookup member.1 = some inherited →
    (member.2 = .method ↔ inherited = .method)

/-- What is asked of some functions and methods, of some declared types and of some expressions. The
types name classes among the given declarations only. -/
structure Decl.Orderly (ds : List Decl) (routines : List Routine) (types : List Ty)
    (places : List (Surroundings × Expr)) : Prop where
  routines : ∀ r ∈ routines, r.WellScoped
  types : ∀ ty ∈ types, ∀ name ∈ ty.classNames, Decl.HasClass name ds
  places : ∀ place ∈ places, place.2.InScope place.1

/-- What is asked of a global declaration, when the declarations before it are these, the latest
first. The types in it name classes that are declared earlier, or the class that it declares. -/
structure Decl.WellScoped (earlier : List Decl) (d : Decl) : Prop where
  inside : Orderly (d :: earlier) d.routines d.declaredTypes (d.places ⟨earlier, []⟩)
  header : ∀ c, d = .cls c → c.WellScoped earlier

structure Program.WellScoped (p : Program) : Prop where
  distinct : Roles.Distinct (p.decls.map Decl.named)
  decls : ∀ before d after, p.decls = before ++ d :: after → d.WellScoped before.reverse
  body : ∀ e ∈ p.body.nodes, e.InScope ⟨p.decls.reverse, []⟩

end ObjectLang
