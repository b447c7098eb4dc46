import ObjectLang.Scope.Error
import ObjectLang.Typing.Error

/-!
Reports of faults found in a program, in the order in which they were found.
-/
namespace ObjectLang

inductive Phase where
  | scope
  | type
  deriving DecidableEq

def Phase.text : Phase → String
  | .scope => "scope"
  | .type => "type"

structure ReportItem where
  phase : Phase
  message : String
  line : Line

namespace ReportItem

def ofScopeError (e : ScopeError) : ReportItem := ⟨.scope, e.message, e.line⟩

def ofTypeError (e : TypeError) : ReportItem := ⟨.type, e.message, e.line⟩

def text (i : ReportItem) : String := i.phase.text ++ " error: " ++ i.message

end ReportItem

structure Report where
  items : List ReportItem := []

namespace Report

def addScopeErrors (r : Report) (errors : List ScopeError) : Report :=
  ⟨r.items ++ errors.map ReportItem.ofScopeError⟩

def addTypeErrors (r : Report) (errors : List TypeError) : Report :=
  ⟨r.items ++ errors.map ReportItem.ofTypeError⟩

def isEmpty (r : Report) : Bool := r.items.isEmpty

def size (r : Report) : Nat := r.items.length

def of (r : Report) (phase : Phase) : List ReportItem := r.items.filter fun i => i.phase = phase

def count (r : Report) (phase : Phase) : Nat := (r.of phase).length

def lines (r : Report) (phase : Phase) : List Line := (r.of phase).map ReportItem.line

def text (r : Report) : String :=
  String.join (r.items.map fun i => i.text ++ "\n") ++
    s!"You had {r.count .scope} symbol table errors and {r.count .type} type checking errors."

end Report

end ObjectLang
