import ObjectLang.Word

/-!
Faults of typing, and the other way a check can end without a type: a tree with a part that scope
resolution could not settle.
-/
namespace ObjectLang

inductive TypeError where
  | mismatch (what : String) (line : Line)
  | wrongArity (callee : String) (expected found : Nat) (line : Line)
  | wrongArgument (callee : String) (index : Nat) (line : Line)
  | notCallable (name : String) (line : Line)
  | wrongReturnType (name : String) (line : Line)
  | incompatibleValue (name : String) (line : Line)
  | incompatibleBranches (line : Line)
  | badOverride (cls member : String) (line : Line)
  | illegalUse (what name : String) (line : Line)
  | notAClass (name : String) (line : Line)
  deriving DecidableEq

namespace TypeError

def line : TypeError → Line
  | .mismatch _ line | .wrongArity _ _ _ line | .wrongArgument _ _ line | .notCallable _ line
  | .wrongReturnType _ line | .incompatibleValue _ line | .incompatibleBranches line
  | .badOverride _ _ line | .illegalUse _ _ line | .notAClass _ line => line

def message : TypeError → String
  | .mismatch what line => s!"{what} at line {line}"
  | .wrongArity callee expected found line =>
    s!"Wrong number of parameters in the invocation of {callee} at line {line}: " ++
      s!"expected {expected}, found {found}"
  | .wrongArgument callee index line =>
    s!"Wrong type for {index}-th parameter in the invocation of {callee} at line {line}"
  | .notCallable name line => s!"Invocation of a non-function/method {name} at line {line}"
  | .wrongReturnType name line => s!"Wrong return type for {name} at line {line}"
  | .incompatibleValue name line => s!"Incompatible value for variable {name} at line {line}"
  | .incompatibleBranches line => s!"Incompatible types in then-else branches at line {line}"
  | .badOverride cls member line =>
    s!"Wrong type for overriding {member} in class {cls} at line {line}"
  | .illegalUse what name line => s!"Wrong usage of {what} {name} at line {line}"
  | .notAClass name line => s!"Inconsistent type {name} at line {line}"

end TypeError

/-- Why a part of a tree has no type. -/
inductive Finding where
  | error (error : TypeError)
  /-- The part was not settled by scope resolution; its fault is reported there. -/
  | incomplete
  deriving DecidableEq

def Finding.error? : Finding → Option TypeError
  | .error e => some e
  | .incomplete => none

end ObjectLang
