import ObjectLang.Inheritance
import ObjectLang.Scope.Error
import ObjectLang.Scope.Stack
import ObjectLang.Tree

/-!
Member tables of classes. A class starts from the members it inherits and adds its own, fields
first. Fields take the offsets -1, -2, … and methods the offsets 0, 1, …; a member that
redeclares an inherited one takes over its offset, so a member keeps its place in all subclasses.
-/
namespace ObjectLang

structure Members where
  layout : Layout := Layout.empty
  table : Table Binding := {}
  /-- Names that the class itself has declared so far. -/
  own : List String := []

inductive Placement where
  | duplicate (offset : Word)
  /-- The name is inherited with the other kind. The member takes a slot of its own, and the name
  keeps its inherited meaning. -/
  | clash (offset : Word)
  | override (offset : Word)
  | fresh (offset : Word)

def Placement.offset : Placement → Word
  | .duplicate offset | .clash offset | .override offset | .fresh offset => offset

namespace Members

def level : Nat := 1

def knownOffset (m : Members) (name : String) : Word :=
  ((m.table.find? name).map Binding.offset).getD 0

def fieldPlacement (m : Members) (name : String) : Placement :=
  let next := Layout.fieldOffset m.layout.fields.length
  if m.own.contains name then .duplicate (m.knownOffset name)
  else match m.table.find? name with
    | none => .fresh next
    | some inherited => if inherited.ty.isMethod then .clash next else .override inherited.offset

def methodPlacement (m : Members) (name : String) : Placement :=
  let next := Int32.ofNat m.layout.methods.length
  if m.own.contains name then .duplicate (m.knownOffset name)
  else match m.table.find? name with
    | none => .fresh next
    | some inherited => if inherited.ty.isMethod then .override inherited.offset else .clash next

def appendField (m : Members) (ty : Ty) : Layout :=
  { m.layout with fields := m.layout.fields ++ [ty] }

def replaceField (m : Members) (offset : Word) (ty : Ty) : Layout :=
  { m.layout with fields := m.layout.fields.set (Layout.fieldIndex offset) ty }

def appendMethod (m : Members) (sig : Signature) : Layout :=
  { m.layout with methods := m.layout.methods ++ [sig] }

/-- Nothing changes when no method has the offset. -/
def replaceMethod (m : Members) (offset : Word) (sig : Signature) : Layout :=
  match Word.index? offset with
  | some index => { m.layout with methods := m.layout.methods.set index sig }
  | none => m.layout

def named (m : Members) (name : String) (ty : Ty) (offset : Word) : Table Binding :=
  m.table.insert name ⟨level, ty, offset⟩

def addField (m : Members) (f : Field) : Members :=
  match m.fieldPlacement f.name with
  | .duplicate _ => m
  | .clash _ => ⟨m.appendField f.ty, m.table, f.name :: m.own⟩
  | .override offset =>
    ⟨m.replaceField offset f.ty, m.named f.name f.ty offset, f.name :: m.own⟩
  | .fresh offset => ⟨m.appendField f.ty, m.named f.name f.ty offset, f.name :: m.own⟩

def addMethod (m : Members) (name : String) (sig : Signature) : Members :=
  match m.methodPlacement name with
  | .duplicate _ => m
  | .clash _ => ⟨m.appendMethod sig, m.table, name :: m.own⟩
  | .override offset =>
    ⟨m.replaceMethod offset sig, m.named name (.method sig) offset, name :: m.own⟩
  | .fresh offset => ⟨m.appendMethod sig, m.named name (.method sig) offset, name :: m.own⟩

def addFields (m : Members) (fields : List Field) : Members := fields.foldl addField m

def addMethods (m : Members) (methods : List Method) : Members :=
  methods.foldl (fun m method => m.addMethod method.name method.routine.signature) m

def placeFields (m : Members) : List Field → List Field
  | [] => []
  | f :: fields =>
    { f with offset := (m.fieldPlacement f.name).offset } :: (m.addField f).placeFields fields

end Members

namespace Ty

mutual

/-- Class names in a declared type that are not recorded, in order of appearance. -/
def undeclaredClasses (h : Inheritance) : Ty → List String
  | .ref name => if h.contains name then [] else [name]
  | .arrow ⟨ps, r⟩ => undeclaredInAll h ps ++ undeclaredClasses h r
  | .method ⟨ps, r⟩ => undeclaredInAll h ps ++ undeclaredClasses h r
  | _ => []

def undeclaredInAll (h : Inheritance) : List Ty → List String
  | [] => []
  | a :: as => undeclaredClasses h a ++ undeclaredInAll h as

end

def scopeErrors (h : Inheritance) (line : Line) (ty : Ty) : List ScopeError :=
  (ty.undeclaredClasses h).map fun name => .undeclaredClass name line

end Ty

namespace Members

def fieldErrors (h : Inheritance) (cls : String) (m : Members) (f : Field) : List ScopeError :=
  f.ty.scopeErrors h f.line ++
    match m.fieldPlacement f.name with
    | .duplicate _ => [.duplicate .field f.name f.line]
    | .clash _ => [.invalidOverride cls f.name .method .field f.line]
    | .override _ | .fresh _ => []

def methodErrors (h : Inheritance) (cls : String) (m : Members) (method : Method) :
    List ScopeError :=
  (Ty.arrow method.routine.signature).scopeErrors h method.routine.line ++
    match m.methodPlacement method.name with
    | .duplicate _ => [.duplicate .method method.name method.routine.line]
    | .clash _ => [.invalidOverride cls method.name .field .method method.routine.line]
    | .override _ | .fresh _ => []

def fieldsErrors (h : Inheritance) (cls : String) (m : Members) : List Field → List ScopeError
  | [] => []
  | f :: fields => m.fieldErrors h cls f ++ (m.addField f).fieldsErrors h cls fields

def methodsErrors (h : Inheritance) (cls : String) (m : Members) : List Method → List ScopeError
  | [] => []
  | method :: methods =>
    m.methodErrors h cls method ++
      (m.addMethod method.name method.routine.signature).methodsErrors h cls methods

end Members

end ObjectLang
