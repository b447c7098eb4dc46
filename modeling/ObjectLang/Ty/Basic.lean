import ObjectLang.Word

/-!
Types of the language. Besides the types a program can write there are the type of a class, which
is the layout of its objects and of its dispatch table, the type of `null`, and a marker for a type
that could not be computed.
-/
namespace ObjectLang

mutual

inductive Ty where
  | int
  | bool
  | null
  | incomplete
  | ref (name : String)
  | arrow (sig : Signature)
  | method (sig : Signature)
  | cls (layout : Layout)

structure Signature where
  params : List Ty
  ret : Ty

/-- Every field type and every method signature of a class, inherited ones first. -/
structure Layout where
  fields : List Ty
  methods : List Signature

end

namespace Ty

mutual

def same : Ty → Ty → Bool
  | .int, .int => true
  | .bool, .bool => true
  | .null, .null => true
  | .incomplete, .incomplete => true
  | .ref a, .ref b => a == b
  | .arrow ⟨ps, r⟩, .arrow ⟨qs, s⟩ => sameAll ps qs && same r s
  | .method ⟨ps, r⟩, .method ⟨qs, s⟩ => sameAll ps qs && same r s
  | .cls ⟨fs, ms⟩, .cls ⟨gs, ns⟩ => sameAll fs gs && sameSignatures ms ns
  | _, _ => false

def sameAll : List Ty → List Ty → Bool
  | [], [] => true
  | a :: as, b :: bs => same a b && sameAll as bs
  | _, _ => false

def sameSignatures : List Signature → List Signature → Bool
  | [], [] => true
  | ⟨ps, r⟩ :: as, ⟨qs, s⟩ :: bs => sameAll ps qs && same r s && sameSignatures as bs
  | _, _ => false

end

mutual

theorem same_iff : (a b : Ty) → (same a b = true ↔ a = b)
  | .int, b => by cases b <;> simp [same]
  | .bool, b => by cases b <;> simp [same]
  | .null, b => by cases b <;> simp [same]
  | .incomplete, b => by cases b <;> simp [same]
  | .ref a, b => by cases b <;> simp [same]
  | .arrow ⟨ps, r⟩, b => by
    have params := sameAll_iff ps
    have ret := same_iff r
    cases b with
    | arrow sig => cases sig; simp [same, params, ret]
    | _ => simp [same]
  | .method ⟨ps, r⟩, b => by
    have params := sameAll_iff ps
    have ret := same_iff r
    cases b with
    | method sig => cases sig; simp [same, params, ret]
    | _ => simp [same]
  | .cls ⟨fs, ms⟩, b => by
    have fields := sameAll_iff fs
    have methods := sameSignatures_iff ms
    cases b with
    | cls layout => cases layout; simp [same, fields, methods]
    | _ => simp [same]

theorem sameAll_iff : (as bs : List Ty) → (sameAll as bs = true ↔ as = bs)
  | [], bs => by cases bs <;> simp [sameAll]
  | a :: as, bs => by
    have head := same_iff a
    have tail := sameAll_iff as
    cases bs with
    | nil => simp [sameAll]
    | cons b bs => simp [sameAll, head, tail]

theorem sameSignatures_iff : (as bs : List Signature) → (sameSignatures as bs = true ↔ as = bs)
  | [], bs => by cases bs <;> simp [sameSignatures]
  | ⟨ps, r⟩ :: as, bs => by
    have params := sameAll_iff ps
    have ret := same_iff r
    have tail := sameSignatures_iff as
    cases bs with
    | nil => simp [sameSignatures]
    | cons b bs => cases b; simp [sameSignatures, params, ret, tail]

end

instance : DecidableEq Ty := fun a b => decidable_of_iff (same a b = true) (same_iff a b)

def isIncomplete : Ty → Bool
  | .incomplete => true
  | _ => false

def isMethod : Ty → Bool
  | .method _ => true
  | _ => false

def signature? : Ty → Option Signature
  | .arrow sig => some sig
  | .method sig => some sig
  | _ => none

mutual

def containsIncomplete : Ty → Bool
  | .incomplete => true
  | .arrow ⟨ps, r⟩ => anyIncomplete ps || containsIncomplete r
  | .method ⟨ps, r⟩ => anyIncomplete ps || containsIncomplete r
  | .cls ⟨fs, ms⟩ => anyIncomplete fs || anySignatureIncomplete ms
  | _ => false

def anyIncomplete : List Ty → Bool
  | [] => false
  | a :: as => containsIncomplete a || anyIncomplete as

def anySignatureIncomplete : List Signature → Bool
  | [] => false
  | ⟨ps, r⟩ :: sigs => anyIncomplete ps || containsIncomplete r || anySignatureIncomplete sigs

end

mutual

def text : Ty → String
  | .int => "int"
  | .bool => "bool"
  | .null => "null"
  | .incomplete => "<incomplete>"
  | .ref name => name
  | .arrow ⟨ps, r⟩ => "(" ++ ", ".intercalate (texts ps) ++ ") -> " ++ text r
  | .method ⟨ps, r⟩ => "method (" ++ ", ".intercalate (texts ps) ++ ") -> " ++ text r
  | .cls ⟨fs, ms⟩ =>
    "class \x7b" ++ toString fs.length ++ " fields, " ++ toString ms.length ++ " methods\x7d"

def texts : List Ty → List String
  | [] => []
  | a :: as => text a :: texts as

end

end Ty

def Signature.text (sig : Signature) : String := (Ty.arrow sig).text

namespace Layout

def empty : Layout := ⟨[], []⟩

/-- The position of the field at an offset: offsets -1, -2, … name positions 0, 1, …. A position
has 64 bits, so the offsets from 0 upward name positions past the end of any layout. -/
def fieldIndex (offset : Word) : Nat := ((-offset - 1).toInt % 18446744073709551616).toNat

def fieldOffset (index : Nat) : Word := -(Int32.ofNat index) - 1

def fieldAt? (l : Layout) (offset : Word) : Option Ty :=
  if 0 ≤ offset then none else l.fields[fieldIndex offset]?

def methodAt? (l : Layout) (offset : Word) : Option Signature :=
  (Word.index? offset).bind fun index => l.methods[index]?

end Layout

end ObjectLang
