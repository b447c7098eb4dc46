import ObjectLang.Compilation
import ObjectLang.Proofs.Typing.Settled

/-!
Typing rules for declarations, again on trees as they are written. A program that compiles without
a report is well typed by these rules.
-/
namespace ObjectLang

def ClassDecl.resolve (ctx : Context) (c : ClassDecl) : ClassDecl where
  line := c.line
  name := c.name
  parent := c.parent
  fields := (ctx.inherited c).placeFields c.fields
  methods := Decl.resolveMethods (ctx.inClass c) ((ctx.inherited c).addFields c.fields) c.methods
  binding := some (ctx.classBinding c)
  parentBinding := ((ctx.parent? c).map Parent.binding).or c.parentBinding

namespace Decl

theorem resolve_cls {ctx : Context} (global : ctx.isGlobal = true) (c : ClassDecl) :
    (Decl.cls c).resolve ctx = .cls (c.resolve ctx) := by
  obtain ⟨line, name, parent, fields, methods, binding, parentBinding⟩ := c
  simp only [resolve, global, if_true]
  rfl

theorem scopeErrors_cls {ctx : Context} {c : ClassDecl} (global : ctx.isGlobal = true) :
    (Decl.cls c).scopeErrors ctx =
      c.headerErrors ctx ++ methodsScopeErrors (ctx.inClass c) c.methods := by
  obtain ⟨line, name, parent, fields, methods, binding, parentBinding⟩ := c
  rw [scopeErrors, if_pos global]

theorem findings_cls (h : Inheritance) (c : ClassDecl) :
    (Decl.cls c).findings h = methodsFindings h c.methods ++ c.overrideFindings h := by
  cases c
  rfl

theorem resolveRoutine_eq (ctx : Context) (r : Routine) :
    resolveRoutine ctx r = { r with
      locals := resolveAll (ctx.inRoutine r.params) r.locals
      body := r.body.resolve (r.locals.foldl Context.after (ctx.inRoutine r.params)) } := by
  cases r
  rfl

mutual

inductive Typed (h : Inheritance) : Context → Decl → Prop
  | var {ctx decl ty} (free : ctx.scopes.declaresHere decl.name = false)
      (init : decl.init.Typed h ctx ty) (fits : ty.subtype h decl.ty = true) :
      Typed h ctx (.var decl)
  | fn {ctx routine} (free : ctx.scopes.declaresHere routine.name = false)
      (typed : RoutineTyped h (ctx.after (.fn routine)) routine) : Typed h ctx (.fn routine)
  | cls {ctx c} (global : ctx.isGlobal = true) (header : c.headerErrors ctx = [])
      (overrides : (c.resolve ctx).overrideFindings h = [])
      (methods : MethodsTyped h (ctx.inClass c) c.methods) : Typed h ctx (.cls c)

inductive RoutineTyped (h : Inheritance) : Context → Routine → Prop
  | intro {ctx r ty} (params : (ctx.scopes.enter {}).paramErrors 1 r.params = [])
      (locals : AllTyped h (ctx.inRoutine r.params) r.locals)
      (body : r.body.Typed h (r.locals.foldl Context.after (ctx.inRoutine r.params)) ty)
      (fits : ty.subtype h r.ret = true) : RoutineTyped h ctx r

inductive MethodsTyped (h : Inheritance) : Context → List Method → Prop
  | nil {ctx} : MethodsTyped h ctx []
  | cons {ctx m methods} (head : RoutineTyped h ctx m.routine)
      (tail : MethodsTyped h ctx methods) : MethodsTyped h ctx (m :: methods)

inductive AllTyped (h : Inheritance) : Context → List Decl → Prop
  | nil {ctx} : AllTyped h ctx []
  | cons {ctx d ds} (head : Typed h ctx d) (tail : AllTyped h (ctx.after d) ds) :
      AllTyped h ctx (d :: ds)

end

end Decl

structure Program.Typed (p : Program) (ty : Ty) : Prop where
  decls : Decl.AllTyped p.context.inheritance Context.initial p.decls
  body : p.body.Typed p.context.inheritance p.context ty

theorem Finding.ofCheck_eq_nil {check : Except Finding Unit} :
    Finding.ofCheck check = [] ↔ check = .ok () := by
  cases check <;> simp [ofCheck]

namespace Decl

variable {h : Inheritance}

mutual

theorem typed_of_findings : (d : Decl) → ∀ {ctx : Context}, d.scopeErrors ctx = [] →
    (d.resolve ctx).findings h = [] → d.Typed h ctx
  | .var ⟨line, name, ty, init⟩ => by
    intro clean sound
    simp only [scopeErrors, List.append_eq_nil_iff] at clean
    simp only [resolve, findings, Finding.ofCheck_eq_nil, VarDecl.check, Except.bind_eq_ok] at sound
    obtain ⟨found, typed, sound⟩ := sound
    have free := clean.2
    split at sound
    · cases sound
    · split at sound
      · rename_i fits
        exact .var (by simpa using free) (Expr.typed_of_typeOf init clean.1.1 typed) fits
      · cases sound
  | .fn routine => by
    intro clean sound
    simp only [scopeErrors, List.append_eq_nil_iff] at clean
    exact .fn (by simpa using clean.1.2) (routineTyped_of_findings routine clean.2 sound)
  | .cls ⟨line, name, parent, fields, methods, binding, parentBinding⟩ => by
    intro clean sound
    simp only [scopeErrors] at clean
    split at clean
    · rename_i global
      rw [List.append_eq_nil_iff] at clean
      rw [resolve_cls global, findings_cls, List.append_eq_nil_iff] at sound
      exact .cls global clean.1 sound.2 (methodsTyped_of_findings methods clean.2 sound.1)
    · simp at clean

theorem routineTyped_of_findings : (r : Routine) → ∀ {ctx : Context},
    routineScopeErrors ctx r = [] → routineFindings h (resolveRoutine ctx r) = [] →
    RoutineTyped h ctx r
  | ⟨line, name, ret, params, locals, body⟩ => by
    intro clean sound
    simp only [routineScopeErrors, List.append_eq_nil_iff] at clean
    simp only [resolveRoutine, routineFindings, List.append_eq_nil_iff, Finding.ofCheck_eq_nil,
      Routine.checkResult, Except.bind_eq_ok] at sound
    obtain ⟨localsSound, ty, typed, sound⟩ := sound
    split at sound
    · rename_i fits
      exact .intro clean.1.1 (allTyped_of_findings locals clean.1.2 localsSound)
        (Expr.typed_of_typeOf body clean.2 typed) fits
    · cases sound

theorem methodsTyped_of_findings : (methods : List Method) → ∀ {ctx : Context} {m : Members},
    methodsScopeErrors ctx methods = [] →
    methodsFindings h (resolveMethods ctx m methods) = [] → MethodsTyped h ctx methods
  | [] => fun _ _ => .nil
  | ⟨routine, _⟩ :: methods => by
    intro clean sound
    simp only [methodsScopeErrors, List.append_eq_nil_iff] at clean
    simp only [resolveMethods, methodsFindings, List.append_eq_nil_iff] at sound
    exact .cons (routineTyped_of_findings routine clean.1 sound.1)
      (methodsTyped_of_findings methods clean.2 sound.2)

theorem allTyped_of_findings : (ds : List Decl) → ∀ {ctx : Context},
    allScopeErrors ctx ds = [] → allFindings h (resolveAll ctx ds) = [] → AllTyped h ctx ds
  | [] => fun _ _ => .nil
  | d :: ds => by
    intro clean sound
    simp only [allScopeErrors, List.append_eq_nil_iff] at clean
    simp only [resolveAll, allFindings, List.append_eq_nil_iff] at sound
    exact .cons (typed_of_findings d clean.1 sound.1) (allTyped_of_findings ds clean.2 sound.2)

end

end Decl

namespace Program

theorem report_isEmpty {p : Program} :
    p.report.isEmpty = true ↔
      p.resolve.errors = [] ∧ (p.resolve.program.check p.resolve.inheritance).errors = [] := by
  simp [Program.report, Report.isEmpty, Report.addScopeErrors, Report.addTypeErrors]

theorem typed_of_report {p : Program} (types : Decl.Complete p.declaredTypes)
    (silent : p.report.isEmpty = true) :
    ∃ ty, p.Typed ty ∧ (p.resolve.program.check p.resolve.inheritance).ty = some ty := by
  obtain ⟨clean, noErrors⟩ := report_isEmpty.mp silent
  have skipsNone := check_settled (h := p.resolve.inheritance) types clean
  have sound : (p.resolve.program.check p.resolve.inheritance).findings = [] := by
    rw [List.eq_nil_iff_forall_not_mem]
    intro finding mem
    cases finding with
    | incomplete => exact skipsNone mem
    | error e =>
      have reported : e ∈ (p.resolve.program.check p.resolve.inheritance).errors :=
        List.mem_filterMap.mpr ⟨.error e, mem, rfl⟩
      rw [noErrors] at reported
      cases reported
  simp only [Program.resolve, List.append_eq_nil_iff] at clean
  unfold Program.check at sound ⊢
  split at sound
  · rename_i ty typed
    exact ⟨ty, ⟨Decl.allTyped_of_findings p.decls clean.1 sound,
      Expr.typed_of_typeOf p.body clean.2 typed⟩, rfl⟩
  · simp at sound

end Program

end ObjectLang
