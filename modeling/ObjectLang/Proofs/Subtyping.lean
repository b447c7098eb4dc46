import ObjectLang.Proofs.Inheritance
import ObjectLang.Ty.Order

/-!
Laws of subtyping under any inheritance relation. Every type without the marker for an unknown type
is below itself, and the relation is transitive on all types. Where no class is its own proper
ancestor, types that are below each other are the same, up to class types.
-/
namespace ObjectLang

/-- The order of function types and of method types: parameters go against it, the result with
it. -/
def Signature.subtype (h : Inheritance) (s t : Signature) : Bool :=
  s.params.length == t.params.length && s.ret.subtype h t.ret && Ty.supertypes h s.params t.params

theorem Signature.subtype_ret {h : Inheritance} {s t : Signature} (sub : s.subtype h t = true) :
    s.ret.subtype h t.ret = true := by
  simp only [subtype, Bool.and_eq_true] at sub
  exact sub.1.2

namespace Ty

@[simp] theorem subtype_arrow (h : Inheritance) (s t : Signature) :
    (Ty.arrow s).subtype h (.arrow t) = s.subtype h t := by
  cases s; cases t; simp [subtype, Signature.subtype]

@[simp] theorem subtype_method (h : Inheritance) (s t : Signature) :
    (Ty.method s).subtype h (.method t) = s.subtype h t := by
  cases s; cases t; simp [subtype, Signature.subtype]

mutual

theorem subtype_refl (h : Inheritance) :
    (a : Ty) → a.containsIncomplete = false → a.subtype h a = true
  | .int, _ => by simp [subtype]
  | .bool, _ => by simp [subtype]
  | .null, _ => by simp [subtype]
  | .incomplete, complete => by simp [containsIncomplete] at complete
  | .ref name, _ => by simp [subtype, h.isAncestor_self name]
  | .arrow ⟨ps, r⟩, complete => by
    simp only [containsIncomplete, Bool.or_eq_false_iff] at complete
    simp [Signature.subtype, supertypes_refl h ps complete.1, subtype_refl h r complete.2]
  | .method ⟨ps, r⟩, complete => by
    simp only [containsIncomplete, Bool.or_eq_false_iff] at complete
    simp [Signature.subtype, supertypes_refl h ps complete.1, subtype_refl h r complete.2]
  | .cls _, _ => by simp [subtype]

theorem supertypes_refl (h : Inheritance) :
    (as : List Ty) → anyIncomplete as = false → supertypes h as as = true
  | [], _ => by simp [supertypes]
  | a :: as, complete => by
    simp only [anyIncomplete, Bool.or_eq_false_iff] at complete
    simp [supertypes, supertype_eq, subtype_refl h a complete.1, supertypes_refl h as complete.2]

end

mutual

/-- The recursion is on the type in the middle: below function types it is the only one of the three
that keeps its place, since parameters exchange the other two. -/
theorem subtype_trans (h : Inheritance) :
    (b a c : Ty) → a.subtype h b = true → b.subtype h c = true → a.subtype h c = true
  | .int, a, c => by
    intro below above
    cases c with
    | int => exact below
    | _ => simp [subtype] at above
  | .bool, a, c => by
    intro below above
    cases a with
    | null => simp [subtype]
    | bool => exact above
    | _ => simp [subtype] at below
  | .null, a, c => by
    intro below _
    cases a with
    | null => simp [subtype]
    | _ => simp [subtype] at below
  | .incomplete, a, c => by
    intro _ above
    simp [subtype] at above
  | .ref b, a, c => by
    intro below above
    cases a with
    | null => simp [subtype]
    | ref a =>
      cases c with
      | ref c =>
        simp only [subtype] at *
        exact Inheritance.isAncestor_trans above below
      | _ => simp [subtype] at above
    | _ => simp [subtype] at below
  | .arrow s, a, c => by
    have trans := signature_trans h s
    intro below above
    cases a with
    | null => simp [subtype]
    | arrow r =>
      cases c with
      | arrow t =>
        rw [subtype_arrow] at *
        exact trans r t below above
      | _ => simp [subtype] at above
    | _ => simp [subtype] at below
  | .method s, a, c => by
    have trans := signature_trans h s
    intro below above
    cases a with
    | null => simp [subtype]
    | method r =>
      cases c with
      | method t =>
        rw [subtype_method] at *
        exact trans r t below above
      | _ => simp [subtype] at above
    | _ => simp [subtype] at below
  | .cls layout, a, c => by
    intro below above
    cases a with
    | null => simp [subtype]
    | cls other =>
      cases c with
      | cls _ => simp [subtype]
      | _ => simp [subtype] at above
    | _ => simp [subtype] at below

theorem signature_trans (h : Inheritance) :
    (s r t : Signature) → r.subtype h s = true → s.subtype h t = true → r.subtype h t = true
  | ⟨qs, s⟩, ⟨ps, r⟩, ⟨us, t⟩ => by
    have params := supertypes_trans h qs ps us
    have ret := subtype_trans h s r t
    simp only [Signature.subtype, Bool.and_eq_true, beq_iff_eq]
    rintro ⟨⟨first, below⟩, contra⟩ ⟨⟨second, above⟩, contra'⟩
    exact ⟨⟨first.trans second, ret below above⟩, params first second contra contra'⟩

/-- Pairwise comparison stops at the shorter list, so the lengths have to agree. -/
theorem supertypes_trans (h : Inheritance) :
    (bs as cs : List Ty) → as.length = bs.length → bs.length = cs.length →
      supertypes h as bs = true → supertypes h bs cs = true → supertypes h as cs = true
  | [], as, cs => by
    intro first second _ _
    cases as with
    | nil => cases cs <;> simp [supertypes]
    | cons a as => simp at first
  | b :: bs, as, cs => by
    have head := subtype_trans h b
    have tail := supertypes_trans h bs
    cases as with
    | nil => simp
    | cons a as =>
      cases cs with
      | nil => simp
      | cons c cs =>
        simp only [List.length_cons, Nat.add_right_cancel_iff, supertypes, supertype_eq,
          Bool.and_eq_true]
        rintro first second ⟨below, contra⟩ ⟨above, contra'⟩
        exact ⟨head c a above below, tail as cs first second contra contra'⟩

end

mutual

def containsClass : Ty → Bool
  | .cls _ => true
  | .arrow ⟨ps, r⟩ => anyClass ps || containsClass r
  | .method ⟨ps, r⟩ => anyClass ps || containsClass r
  | _ => false

def anyClass : List Ty → Bool
  | [] => false
  | a :: as => containsClass a || anyClass as

end

theorem containsClass_arrow (s : Signature) :
    (Ty.arrow s).containsClass = (anyClass s.params || s.ret.containsClass) := by
  cases s; rfl

theorem containsClass_method (s : Signature) :
    (Ty.method s).containsClass = (anyClass s.params || s.ret.containsClass) := by
  cases s; rfl

mutual

/-- Two types below each other are the same, since classes below each other are. Class types are
all below each other, so they must not occur. -/
theorem subtype_antisymm {h : Inheritance} (acyclic : h.Acyclic) :
    (a b : Ty) → a.containsClass = false → a.subtype h b = true → b.subtype h a = true → a = b
  | .int, b => by cases b <;> simp [subtype]
  | .bool, b => by cases b <;> simp [subtype]
  | .null, b => by cases b <;> simp [subtype]
  | .incomplete, b => by simp [subtype]
  | .ref a, b => by
    intro _ below above
    cases b with
    | ref b =>
      simp only [subtype] at below above
      rw [acyclic.antisymm above below]
    | _ => simp [subtype] at below
  | .arrow s, b => by
    intro plain below above
    cases b with
    | arrow t =>
      rw [containsClass_arrow] at plain
      rw [subtype_arrow] at below above
      rw [signature_antisymm acyclic s t plain below above]
    | _ => simp [subtype] at below
  | .method s, b => by
    intro plain below above
    cases b with
    | method t =>
      rw [containsClass_method] at plain
      rw [subtype_method] at below above
      rw [signature_antisymm acyclic s t plain below above]
    | _ => simp [subtype] at below
  | .cls _, b => by simp [containsClass]

theorem signature_antisymm {h : Inheritance} (acyclic : h.Acyclic) :
    (s t : Signature) → (anyClass s.params || s.ret.containsClass) = false →
      s.subtype h t = true → t.subtype h s = true → s = t
  | ⟨ps, r⟩, ⟨qs, u⟩ => by
    intro plain below above
    simp only [Bool.or_eq_false_iff] at plain
    simp only [Signature.subtype, Bool.and_eq_true, beq_iff_eq] at below above
    obtain ⟨⟨arity, ret⟩, params⟩ := below
    obtain ⟨⟨_, ret'⟩, params'⟩ := above
    rw [subtype_antisymm acyclic r u plain.2 ret ret',
      supertypes_antisymm acyclic ps qs plain.1 arity params params']

theorem supertypes_antisymm {h : Inheritance} (acyclic : h.Acyclic) :
    (as bs : List Ty) → anyClass as = false → as.length = bs.length →
      supertypes h as bs = true → supertypes h bs as = true → as = bs
  | [], bs => by
    intro _ arity _ _
    exact (List.eq_nil_of_length_eq_zero arity.symm).symm
  | a :: as, bs => by
    intro plain arity params params'
    cases bs with
    | nil => simp at arity
    | cons b bs =>
      simp only [anyClass, Bool.or_eq_false_iff] at plain
      simp only [List.length_cons, Nat.add_right_cancel_iff] at arity
      simp only [supertypes, supertype_eq, Bool.and_eq_true] at params params'
      rw [subtype_antisymm acyclic a b plain.1 params'.1 params.1,
        supertypes_antisymm acyclic as bs plain.2 arity params.2 params'.2]

end

/-- Subtyping is a partial order with `null` at the bottom, as far as types are known and classes
do not go in circles. -/
theorem subtype_partialOrder (h : Inheritance) :
    (∀ a b c : Ty, a.subtype h b = true → b.subtype h c = true → a.subtype h c = true) ∧
    (∀ a : Ty, a.containsIncomplete = false → a.subtype h a = true) ∧
    (∀ a : Ty, Ty.null.subtype h a = true) ∧
    (h.Acyclic → ∀ a b : Ty, a.containsClass = false →
      a.subtype h b = true → b.subtype h a = true → a = b) := by
  refine ⟨?_, subtype_refl h, ?_, subtype_antisymm⟩
  · intro a b c
    exact subtype_trans h b a c
  · intro a
    simp [subtype]

end Ty

def Inheritance.inLine : Inheritance :=
  ((({} : Inheritance).declare "A" none).declare "B" (some "A")).declare "C" (some "B")

theorem Inheritance.founded_inLine : inLine.Founded := by
  have first := founded_empty.declare "A" none (by decide)
  have second := first.declare "B" (some "A") (by decide)
  exact second.declare "C" (some "B") (by decide)

theorem Ty.subtype_partialOrder_inLine :
    let low : Ty := .arrow ⟨[.ref "A"], .ref "C"⟩
    let middle : Ty := .arrow ⟨[.ref "B"], .ref "B"⟩
    let high : Ty := .arrow ⟨[.ref "C"], .ref "A"⟩
    low.subtype .inLine middle = true ∧ middle.subtype .inLine high = true ∧
      low.subtype .inLine high = true ∧ middle.subtype .inLine middle = true ∧
      Ty.null.subtype .inLine high = true ∧ high.subtype .inLine low ≠ true := by
  intro low middle high
  obtain ⟨trans, refl, bottom, antisymm⟩ := Ty.subtype_partialOrder .inLine
  have first : low.subtype .inLine middle = true := by decide +kernel
  have second : middle.subtype .inLine high = true := by decide +kernel
  have both := trans low middle high first second
  refine ⟨first, second, both, refl middle rfl, bottom high, fun back => ?_⟩
  have same := antisymm Inheritance.founded_inLine.acyclic low high rfl both back
  simp [low, high] at same

end ObjectLang
