import ObjectLang.Binding

/-!
Faults of naming: names declared twice or not at all, members that do not exist or change kind,
classes in the wrong place.
-/
namespace ObjectLang

inductive ScopeError where
  | duplicate (kind : NameKind) (name : String) (line : Line)
  | undeclared (kind : NameKind) (name : String) (line : Line)
  | undeclaredClass (name : String) (line : Line)
  | undeclaredMember (cls member : String) (line : Line)
  | notAnObject (name : String) (line : Line)
  | invalidOverride (cls member : String) (inherited kind : NameKind) (line : Line)
  | nestedClass (name : String) (line : Line)
  deriving DecidableEq

namespace ScopeError

def line : ScopeError → Line
  | .duplicate _ _ line | .undeclared _ _ line | .undeclaredClass _ line
  | .undeclaredMember _ _ line | .notAnObject _ line | .invalidOverride _ _ _ _ line
  | .nestedClass _ line => line

def message : ScopeError → String
  | .duplicate kind name line => s!"{kind.text} id {name} at line {line} already declared"
  | .undeclared kind name line => s!"{kind.text} id {name} at line {line} not declared"
  | .undeclaredClass name line => s!"Class {name} at line {line} not declared"
  | .undeclaredMember cls member line => s!"Class {cls} has no member {member} at line {line}"
  | .notAnObject name line => s!"Id {name} at line {line} is not an object"
  | .invalidOverride cls member inherited kind line =>
    s!"Cannot override {inherited.text} {member} of class {cls} with a {kind.text} at line {line}"
  | .nestedClass name line => s!"Class {name} at line {line} must be declared at global scope"

end ScopeError

end ObjectLang
