import ObjectLang.Binding
import ObjectLang.Table

/-!
Stacks of scopes. The innermost scope comes first and the global scope last; a name means its
declaration in the first scope that has one.
-/
namespace ObjectLang

structure Scopes where
  tables : List (Table Binding) := []

namespace Scopes

def enter (s : Scopes) (table : Table Binding) : Scopes := ⟨table :: s.tables⟩

def leave? (s : Scopes) : Option (Table Binding × Scopes) :=
  match s.tables with
  | [] => none
  | table :: rest => some (table, ⟨rest⟩)

/-- Nesting level of the innermost scope; the global scope has level 0. -/
def level (s : Scopes) : Nat := s.tables.length - 1

/-- Declares a name in the innermost scope. A name declared there before keeps its binding, which
is the error; with no open scope the error is the new binding. -/
def declare? (s : Scopes) (name : String) (binding : Binding) : Except Binding Scopes :=
  match s.tables with
  | [] => .error binding
  | table :: rest =>
    match table.find? name with
    | some existing => .error existing
    | none => .ok ⟨table.insert name binding :: rest⟩

def declare (s : Scopes) (name : String) (binding : Binding) : Scopes :=
  match s.declare? name binding with
  | .ok declared => declared
  | .error _ => s

def lookup (s : Scopes) (name : String) : Option Binding :=
  s.tables.findSome? fun table => table.find? name

def lookupGlobal (s : Scopes) (name : String) : Option Binding :=
  s.tables.getLast?.bind fun table => table.find? name

def declaresHere (s : Scopes) (name : String) : Bool :=
  s.tables.head?.any fun table => table.contains name

def use? (s : Scopes) (name : String) : Option Use :=
  (s.lookup name).map fun binding => ⟨binding, s.level⟩

end Scopes

end ObjectLang
