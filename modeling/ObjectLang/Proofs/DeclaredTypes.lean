import ObjectLang.Proofs.Scope.Bindings
import ObjectLang.Scope.Resolve

/-!
The types that a program writes down: those of variables, parameters, fields and results, at any
depth. What holds of all of them holds of every name in every context of the program.
-/
namespace ObjectLang

namespace Decl

mutual

def declaredTypes : Decl → List Ty
  | .var decl => [decl.ty]
  | .fn routine => routineDeclaredTypes routine
  | .cls ⟨_, _, _, fields, methods, _, _⟩ => fields.map Field.ty ++ methodsDeclaredTypes methods

def routineDeclaredTypes : Routine → List Ty
  | ⟨_, _, ret, params, locals, _⟩ => ret :: params.map Param.ty ++ allDeclaredTypes locals

def methodsDeclaredTypes : List Method → List Ty
  | [] => []
  | ⟨routine, _⟩ :: methods => routineDeclaredTypes routine ++ methodsDeclaredTypes methods

def allDeclaredTypes : List Decl → List Ty
  | [] => []
  | d :: ds => declaredTypes d ++ allDeclaredTypes ds

end

end Decl

def Program.declaredTypes (p : Program) : List Ty := Decl.allDeclaredTypes p.decls

namespace Ty

mutual

def isPlain : Ty → Bool
  | .int | .bool | .null | .ref _ => true
  | .arrow ⟨ps, r⟩ => allPlain ps && isPlain r
  | _ => false

def allPlain : List Ty → Bool
  | [] => true
  | a :: as => isPlain a && allPlain as

end

mutual

theorem complete_of_isPlain : (ty : Ty) → ty.isPlain = true → ty.containsIncomplete = false
  | .int, _ | .bool, _ | .null, _ | .ref _, _ => rfl
  | .arrow ⟨ps, r⟩, plain => by
    simp only [isPlain, Bool.and_eq_true] at plain
    simp [containsIncomplete, complete_of_allPlain ps plain.1, complete_of_isPlain r plain.2]
  | .incomplete, plain | .method _, plain | .cls _, plain => by simp [isPlain] at plain

theorem complete_of_allPlain : (tys : List Ty) → allPlain tys = true → anyIncomplete tys = false
  | [], _ => rfl
  | a :: as, plain => by
    simp only [allPlain, Bool.and_eq_true] at plain
    simp [anyIncomplete, complete_of_isPlain a plain.1, complete_of_allPlain as plain.2]

end

theorem allPlain_iff {tys : List Ty} : allPlain tys = true ↔ ∀ ty ∈ tys, ty.isPlain = true := by
  induction tys with
  | nil => simp [allPlain]
  | cons a as ih => simp [allPlain, ih]

theorem anyIncomplete_iff {tys : List Ty} :
    anyIncomplete tys = false ↔ ∀ ty ∈ tys, ty.containsIncomplete = false := by
  induction tys with
  | nil => simp [anyIncomplete]
  | cons a as ih => simp [anyIncomplete, ih]

/-- What a property of declared types says about the type of a name: it holds of the type, or of the
parts of a signature. Nothing is said about the types of classes. -/
def Over (Q : Ty → Prop) : Ty → Prop
  | .cls _ => True
  | .arrow sig | .method sig => (∀ ty ∈ sig.params, Q ty) ∧ Q sig.ret
  | ty => Q ty

theorem over_complete {ty : Ty} (complete : ty.containsIncomplete = false) :
    ty.Over (containsIncomplete · = false) := by
  cases ty with
  | arrow sig | method sig =>
    obtain ⟨ps, r⟩ := sig
    simp only [containsIncomplete, Bool.or_eq_false_iff] at complete
    exact ⟨anyIncomplete_iff.mp complete.1, complete.2⟩
  | cls => trivial
  | _ => exact complete

end Ty

variable {Q : Ty → Prop}

namespace Decl

theorem types_routine {r : Routine} (all : ∀ ty ∈ routineDeclaredTypes r, Q ty) :
    ((∀ p ∈ r.params, Q p.ty) ∧ Q r.ret) ∧ ∀ ty ∈ allDeclaredTypes r.locals, Q ty := by
  obtain ⟨line, name, ret, params, locals, body⟩ := r
  simp only [routineDeclaredTypes, List.mem_append, List.mem_cons, List.mem_map] at all
  refine ⟨⟨fun p mem => all _ (.inl (.inr ⟨p, mem, rfl⟩)), all _ (.inl (.inl rfl))⟩, ?_⟩
  exact fun ty mem => all ty (.inr mem)

theorem types_methods {methods : List Method} (all : ∀ ty ∈ methodsDeclaredTypes methods, Q ty) :
    ∀ m ∈ methods, ∀ ty ∈ routineDeclaredTypes m.routine, Q ty := by
  induction methods with
  | nil => simp
  | cons m methods ih =>
    obtain ⟨routine, offset⟩ := m
    simp only [methodsDeclaredTypes, List.mem_append] at all
    intro m' mem
    rcases List.mem_cons.mp mem with rfl | mem
    · exact fun ty h => all ty (.inl h)
    · exact ih (fun ty h => all ty (.inr h)) m' mem

theorem types_cls {c : ClassDecl} (all : ∀ ty ∈ (Decl.cls c).declaredTypes, Q ty) :
    (∀ f ∈ c.fields, Q f.ty) ∧ ∀ m ∈ c.methods, ∀ ty ∈ routineDeclaredTypes m.routine, Q ty := by
  obtain ⟨line, name, parent, fields, methods, binding, parentBinding⟩ := c
  simp only [declaredTypes, List.mem_append, List.mem_map] at all
  exact ⟨fun f mem => all _ (.inl ⟨f, mem, rfl⟩),
    types_methods fun ty mem => all ty (.inr mem)⟩

theorem types_cons {d : Decl} {ds : List Decl} (all : ∀ ty ∈ allDeclaredTypes (d :: ds), Q ty) :
    (∀ ty ∈ d.declaredTypes, Q ty) ∧ ∀ ty ∈ allDeclaredTypes ds, Q ty := by
  simp only [allDeclaredTypes, List.mem_append] at all
  exact ⟨fun ty mem => all ty (.inl mem), fun ty mem => all ty (.inr mem)⟩

theorem over_signature {r : Routine} (all : (∀ p ∈ r.params, Q p.ty) ∧ Q r.ret) :
    (∀ ty ∈ r.signature.params, Q ty) ∧ Q r.signature.ret := by
  refine ⟨?_, all.2⟩
  intro ty mem
  obtain ⟨p, listed, rfl⟩ := List.mem_map.mp mem
  exact all.1 p listed

theorem introduces (lifts : ∀ ty, Q ty → ty.Over Q) {d : Decl}
    (all : ∀ ty ∈ d.declaredTypes, Q ty) : d.Introduces (Ty.Over Q) := by
  cases d with
  | var decl => exact lifts _ (all _ (by simp [declaredTypes]))
  | fn routine => exact over_signature (types_routine all).1
  | cls c =>
    obtain ⟨fields, methods⟩ := types_cls all
    exact ⟨fun f mem => lifts _ (fields f mem),
      fun m mem => over_signature (types_routine (methods m mem)).1, fun _ => trivial⟩

end Decl

namespace Context

theorem every_foldl (lifts : ∀ ty, Q ty → ty.Over Q) {ds : List Decl} {ctx : Context}
    (every : ctx.Every (Ty.Over Q)) (all : ∀ ty ∈ Decl.allDeclaredTypes ds, Q ty) :
    (ds.foldl Context.after ctx).Every (Ty.Over Q) := by
  induction ds generalizing ctx with
  | nil => exact every
  | cons d ds ih =>
    obtain ⟨first, rest⟩ := Decl.types_cons all
    exact ih (every.after (Decl.introduces lifts first)) rest

theorem every_inRoutine (lifts : ∀ ty, Q ty → ty.Over Q) {ctx : Context} {r : Routine}
    (every : ctx.Every (Ty.Over Q)) (all : ∀ ty ∈ Decl.routineDeclaredTypes r, Q ty) :
    (ctx.inRoutine r.params).Every (Ty.Over Q) :=
  every.inRoutine fun p mem => lifts _ ((Decl.types_routine all).1.1 p mem)

end Context

end ObjectLang
