import ObjectLang.Table

/-!
Single inheritance between classes. Each declared class has at most one recorded parent. The
parent need not be declared, and parents may form a cycle: a walk up the chain visits at most one
class more than are declared, which is enough to meet every class it can reach.
-/
namespace ObjectLang

structure Inheritance where
  parents : Table (Option String) := {}

namespace Inheritance

def contains (h : Inheritance) (name : String) : Bool := h.parents.contains name

def declare? (h : Inheritance) (name : String) (parent : Option String) : Option Inheritance :=
  if h.contains name then none else some ⟨h.parents.insert name parent⟩

/-- Records a class and its parent. The first record of a class stays. -/
def declare (h : Inheritance) (name : String) (parent : Option String) : Inheritance :=
  (h.declare? name parent).getD h

def parent? (h : Inheritance) (name : String) : Option String := (h.parents.find? name).join

/-- The first `steps` classes on the way up from `name`, which comes first. -/
def climb (h : Inheritance) : (steps : Nat) → (name : String) → List String
  | 0, _ => []
  | steps + 1, name =>
    name :: match h.parent? name with
      | none => []
      | some parent => h.climb steps parent

/-- The class itself, then its ancestors, nearest first. -/
def ancestors (h : Inheritance) (name : String) : List String := h.climb (h.parents.size + 1) name

def isAncestor (h : Inheritance) (ancestor name : String) : Bool :=
  (h.ancestors name).contains ancestor

end Inheritance

end ObjectLang
