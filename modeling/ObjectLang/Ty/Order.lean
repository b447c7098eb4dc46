import ObjectLang.Inheritance
import ObjectLang.Ty.Basic

/-!
Subtyping and least upper bounds under an inheritance relation.

`null` is below every type and `bool` below `int`; a class reference is below the references to its
ancestors; function and method types are contravariant in the parameters and covariant in the
result. All class types are below each other. The marker for an unknown type is below nothing.
-/
namespace ObjectLang.Ty

mutual

/-- A value of the first type can stand where the second is asked for. -/
def subtype (h : Inheritance) : Ty → Ty → Bool
  | .null, _ => true
  | .int, .int => true
  | .bool, .int => true
  | .bool, .bool => true
  | .ref a, .ref b => h.isAncestor b a
  | .arrow ⟨ps, r⟩, .arrow ⟨qs, s⟩ =>
    ps.length == qs.length && subtype h r s && supertypes h ps qs
  | .method ⟨ps, r⟩, .method ⟨qs, s⟩ =>
    ps.length == qs.length && subtype h r s && supertypes h ps qs
  | .cls _, .cls _ => true
  | _, _ => false

def supertype (h : Inheritance) : Ty → Ty → Bool
  | _, .null => true
  | .int, .int => true
  | .int, .bool => true
  | .bool, .bool => true
  | .ref a, .ref b => h.isAncestor a b
  | .arrow ⟨ps, r⟩, .arrow ⟨qs, s⟩ =>
    ps.length == qs.length && supertype h r s && subtypes h ps qs
  | .method ⟨ps, r⟩, .method ⟨qs, s⟩ =>
    ps.length == qs.length && supertype h r s && subtypes h ps qs
  | .cls _, .cls _ => true
  | _, _ => false

/-- Pairwise `subtype`, as far as both lists go. -/
def subtypes (h : Inheritance) : List Ty → List Ty → Bool
  | a :: as, b :: bs => subtype h a b && subtypes h as bs
  | _, _ => true

def supertypes (h : Inheritance) : List Ty → List Ty → Bool
  | a :: as, b :: bs => supertype h a b && supertypes h as bs
  | _, _ => true

end

/-- The least type above both, if there is one. Of two class references it is the nearest ancestor
of the first that is above the second. -/
def join (h : Inheritance) (a b : Ty) : Option Ty :=
  if a.isIncomplete || b.isIncomplete then none
  else if a = b then some a
  else match a, b with
    | .null, other => some other
    | other, .null => some other
    | .ref left, .ref _ => ((h.ancestors left).map Ty.ref).find? fun above => b.subtype h above
    | .int, .bool => some .int
    | .bool, .int => some .int
    | _, _ => none

mutual

/-- Both readings agree: each is the other with the sides exchanged. -/
theorem readings_agree (h : Inheritance) :
    (a b : Ty) → supertype h a b = subtype h b a ∧ subtype h a b = supertype h b a
  | .int, b => by cases b <;> simp [supertype, subtype]
  | .bool, b => by cases b <;> simp [supertype, subtype]
  | .null, b => by cases b <;> simp [supertype, subtype]
  | .incomplete, b => by cases b <;> simp [supertype, subtype]
  | .ref _, b => by cases b <;> simp [supertype, subtype]
  | .arrow ⟨ps, r⟩, b => by
    have params := list_readings_agree h ps
    have ret := readings_agree h r
    cases b with
    | arrow sig =>
      obtain ⟨qs, s⟩ := sig
      simp [supertype, subtype, params qs, ret s, BEq.comm (a := ps.length)]
    | _ => simp [supertype, subtype]
  | .method ⟨ps, r⟩, b => by
    have params := list_readings_agree h ps
    have ret := readings_agree h r
    cases b with
    | method sig =>
      obtain ⟨qs, s⟩ := sig
      simp [supertype, subtype, params qs, ret s, BEq.comm (a := ps.length)]
    | _ => simp [supertype, subtype]
  | .cls _, b => by cases b <;> simp [supertype, subtype]

theorem list_readings_agree (h : Inheritance) :
    (as bs : List Ty) →
      supertypes h as bs = subtypes h bs as ∧ subtypes h as bs = supertypes h bs as
  | [], bs => by cases bs <;> simp [supertypes, subtypes]
  | a :: as, bs => by
    have head := readings_agree h a
    have tail := list_readings_agree h as
    cases bs with
    | nil => simp [supertypes, subtypes]
    | cons b bs => simp [supertypes, subtypes, head b, tail bs]

end

theorem supertype_eq (h : Inheritance) (a b : Ty) : supertype h a b = subtype h b a :=
  (readings_agree h a b).1

end ObjectLang.Ty
