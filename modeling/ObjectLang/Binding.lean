import ObjectLang.Ty.Basic

/-!
What a name stands for. A binding records the nesting level of the scope that declares the name,
the declared type, and the offset of the name's word in its frame or object. A use pairs a binding
with the nesting level of the place that mentions the name.
-/
namespace ObjectLang

structure Binding where
  level : Nat
  ty : Ty
  offset : Word
  deriving DecidableEq

structure Use where
  binding : Binding
  level : Nat
  deriving DecidableEq

/-- How many scopes out from the use the name is declared. -/
def Use.hops (u : Use) : Nat := u.level - u.binding.level

inductive NameKind where
  | var
  | fn
  | param
  | cls
  | field
  | method
  deriving DecidableEq

def NameKind.text : NameKind → String
  | .var => "Var"
  | .fn => "Fun"
  | .param => "Par"
  | .cls => "Class"
  | .field => "Field"
  | .method => "Method"

end ObjectLang
