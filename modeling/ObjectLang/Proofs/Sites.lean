import ObjectLang.Tree

/-!
Places in a program. An expression is reached through the declarations around it and then through
the expressions around it, each by position; a program and the program that scope resolution makes
of it have the same places. The functions and methods of a program are listed across all depths.
-/
namespace ObjectLang

namespace Expr

def parts : Expr → List Expr
  | .call _ _ args | .new _ _ args _ | .send _ _ _ args _ => args
  | .binary _ _ lhs rhs => [lhs, rhs]
  | .not _ operand | .print _ operand => [operand]
  | .cond _ test yes no => [test, yes, no]
  | .int _ _ | .bool _ _ | .null _ | .id _ _ | .get _ _ _ _ => []

def at? (e : Expr) : List Nat → Option Expr
  | [] => some e
  | i :: path => e.parts[i]?.bind fun part => part.at? path

def mention? : Expr → Option (NameKind × Ident)
  | .id _ ident => some (.var, ident)
  | .call _ callee _ => some (.fn, callee)
  | .send _ object _ _ _ => some (.var, object)
  | .get _ object _ _ => some (.var, object)
  | _ => none

end Expr

inductive Spot where
  | body (path : List Nat)
  | init (index : Nat) (path : List Nat)
  | inside (index : Nat) (spot : Spot)

def Spot.expr? : Spot → List Decl → Expr → Option Expr
  | .body path, _, result => result.at? path
  | .init index path, ds, _ =>
    match ds[index]? with
    | some (.var decl) => decl.init.at? path
    | _ => none
  | .inside index spot, ds, _ =>
    match ds[index]? with
    | some (.fn routine) => spot.expr? routine.locals routine.body
    | _ => none

/-- A place in a program outside the classes that are declared inside functions or methods. -/
inductive Site where
  | main (spot : Spot)
  | method (cls index : Nat) (spot : Spot)

def Program.expr? (p : Program) : Site → Option Expr
  | .main spot => spot.expr? p.decls p.body
  | .method cls index spot =>
    match p.decls[cls]? with
    | some (.cls c) => c.methods[index]?.bind fun m => spot.expr? m.routine.locals m.routine.body
    | _ => none

namespace Decl

mutual

def routines : Decl → List Routine
  | .var _ => []
  | .fn routine => nestedRoutines routine
  | .cls ⟨_, _, _, _, methods, _, _⟩ => methodRoutines methods

def nestedRoutines : Routine → List Routine
  | ⟨line, name, ret, params, locals, body⟩ =>
    allRoutines locals ++ [⟨line, name, ret, params, locals, body⟩]

def methodRoutines : List Method → List Routine
  | [] => []
  | ⟨routine, _⟩ :: methods => nestedRoutines routine ++ methodRoutines methods

def allRoutines : List Decl → List Routine
  | [] => []
  | d :: ds => routines d ++ allRoutines ds

end

end Decl

def Program.routines (p : Program) : List Routine := Decl.allRoutines p.decls

end ObjectLang
