import ObjectLang.Proofs.Typing.Settled
import ObjectLang.Typing.Program

/-!
The check as a walk with one list of errors. What stops the check of a declaration is absorbed: an
error goes to the list, and where scope resolution has left something open, nothing is said. Either
way the walk goes on with the next declaration. Every expression is asked at the end whether its
type is known. The walk gives the type and the errors that the check gives, which puts the findings
of the parts of a program together.
-/
namespace ObjectLang

/-- A check that is under way: it can stop with a finding, and then the errors so far are kept. -/
abbrev Checking := EStateM Finding (List TypeError)

namespace Checking

def absorb (finding : Finding) : Checking Unit := modify (· ++ finding.error?.toList)

def absorbing (x : Checking Unit) : Checking Unit := tryCatch x absorb

def require (holds : Bool) (error : TypeError) : Checking Unit :=
  unless holds do throw (.error error)

def requireArity (callee : String) (line : Line) (expected found : Nat) : Checking Unit :=
  require (expected = found) (.wrongArity callee expected found line)

def resolved {α : Type} : Option α → Checking α
  | some a => pure a
  | none => throw .incomplete

def settle (x : Checking Ty) : Checking Ty := do
  let ty ← x
  if ty.isIncomplete then throw .incomplete
  return ty

end Checking

open Checking

def Ident.inspect (line : Line) (i : Ident) : Checking Ty := do
  let use ← resolved i.use
  match use.binding.ty with
  | .arrow _ => throw (.error (.illegalUse "function identifier" i.name line))
  | .method _ => throw (.error (.illegalUse "method identifier" i.name line))
  | .cls _ => throw (.error (.illegalUse "class identifier" i.name line))
  | ty => return ty

namespace Expr

mutual

def inspect (h : Inheritance) : Expr → Checking Ty
  | .int _ _ => settle (return .int)
  | .bool _ _ => settle (return .bool)
  | .null _ => settle (return .null)
  | .id line ident => settle (ident.inspect line)
  | .call line callee args => settle do
    let use ← resolved callee.use
    match use.binding.ty.signature? with
    | none => throw (.error (.notCallable callee.name line))
    | some sig =>
      requireArity callee.name line sig.params.length args.length
      inspectArgs h callee.name line 1 sig.params args
      return sig.ret
  | .binary line op lhs rhs => settle do
    let left ← inspect h lhs
    let right ← inspect h rhs
    require (op.accepts h left right) (.mismatch op.complaint line)
    return op.result
  | .not line operand => settle do
    let ty ← inspect h operand
    require (ty.subtype h .bool) (.mismatch "Non boolean in not" line)
    return .bool
  | .cond line test yes no => settle do
    let ty ← inspect h test
    require (ty.subtype h .bool) (.mismatch "Non boolean condition in if" line)
    let left ← inspect h yes
    let right ← inspect h no
    match left.join h right with
    | some ty => return ty
    | none => throw (.error (.incompatibleBranches line))
  | .print _ operand => settle (inspect h operand)
  | .new line cls args binding => settle do
    let binding ← resolved binding
    match binding.ty with
    | .cls layout =>
      requireArity cls line layout.fields.length args.length
      inspectArgs h cls line 1 layout.fields args
      return .ref cls
    | _ => throw (.error (.notAClass cls line))
  | .send line _ method args binding => settle do
    let binding ← resolved binding
    match binding.ty with
    | .method sig =>
      requireArity method line sig.params.length args.length
      inspectArgs h method line 1 sig.params args
      return sig.ret
    | _ => throw (.error (.notCallable method line))
  | .get line _ field binding => settle do
    let binding ← resolved binding
    require (!binding.ty.isMethod) (.illegalUse "method identifier" field line)
    return binding.ty

def inspectArgs (h : Inheritance) (callee : String) (line : Line) (index : Nat) :
    List Ty → List Expr → Checking Unit
  | formal :: formals, arg :: args => do
    let ty ← inspect h arg
    require (ty.subtype h formal) (.wrongArgument callee index line)
    inspectArgs h callee line (index + 1) formals args
  | _, _ => return

end

end Expr

def ClassDecl.inspectOverrides (h : Inheritance) (c : ClassDecl) : Checking Unit :=
  match c.parentBinding with
  | none => return
  | some binding =>
    match binding.ty with
    | .cls inherited => do
      c.fields.forM fun f =>
        match inherited.fieldAt? f.offset with
        | none => return
        | some ty =>
          unless f.ty.subtype h ty do absorb (.error (.badOverride c.name f.name f.line))
      c.methods.forM fun m =>
        match inherited.methodAt? m.offset with
        | none => return
        | some sig =>
          unless (Ty.method m.routine.signature).subtype h (.method sig) do
            absorb (.error (.badOverride c.name m.name m.routine.line))
    | _ => return

namespace Decl

mutual

def inspect (h : Inheritance) : Decl → Checking Unit
  | .var decl => do
    let ty ← decl.init.inspect h
    if decl.ty.containsIncomplete then throw .incomplete
    require (ty.subtype h decl.ty) (.incompatibleValue decl.name decl.line)
  | .fn routine => inspectRoutine h routine
  | .cls ⟨line, name, parent, fields, methods, binding, parentBinding⟩ => do
    inspectMethods h methods
    ClassDecl.inspectOverrides h ⟨line, name, parent, fields, methods, binding, parentBinding⟩

def inspectRoutine (h : Inheritance) : Routine → Checking Unit
  | ⟨line, name, ret, _, locals, body⟩ => do
    inspectAll h locals
    let ty ← body.inspect h
    require (ty.subtype h ret) (.wrongReturnType name line)

def inspectMethods (h : Inheritance) : List Method → Checking Unit
  | [] => return
  | ⟨routine, _⟩ :: methods => do
    absorbing (inspectRoutine h routine)
    inspectMethods h methods

def inspectAll (h : Inheritance) : List Decl → Checking Unit
  | [] => return
  | d :: ds => do
    absorbing (inspect h d)
    inspectAll h ds

end

end Decl

def Program.inspect (h : Inheritance) (p : Program) : Checking (Option Ty) := do
  Decl.inspectAll h p.decls
  try
    let ty ← p.body.inspect h
    return some ty
  catch finding =>
    absorb finding
    return none

/-! The check of an expression only reads the errors. -/

namespace Checking

def lift {α : Type} : Except Finding α → Checking α
  | .ok a => pure a
  | .error finding => throw finding

theorem lift_bind {α β : Type} (x : Except Finding α) (f : α → Except Finding β) :
    lift (x >>= f) = lift x >>= fun a => lift (f a) := by
  cases x <;> rfl

theorem require_eq (holds : Bool) (error : TypeError) :
    require holds error = lift (if holds then .ok () else .error (.error error)) := by
  cases holds <;> rfl

theorem requireArity_eq (callee : String) (line : Line) (expected found : Nat) :
    requireArity callee line expected found = lift (checkArity callee line expected found) := by
  simp only [requireArity, require_eq, decide_eq_true_eq, checkArity]

theorem require_then {α : Type} (holds : Bool) (error : TypeError) (next : Except Finding α) :
    (do require holds error; lift next) = lift (if holds then next else .error (.error error)) := by
  cases holds <;> rfl

theorem settle_return (ty : Ty) : settle (return ty) = lift ty.settled := by
  show (if ty.isIncomplete then throw Finding.incomplete else return ty) = lift ty.settled
  unfold Ty.settled
  split <;> rfl

theorem settle_known {ty : Ty} (known : ty.isIncomplete = false) :
    settle (return ty) = lift (.ok ty) := by
  rw [settle_return, Ty.settled, known]
  rfl

theorem settle_bind {α : Type} (x : Checking α) (f : α → Checking Ty) :
    settle (x >>= f) = x >>= fun a => settle (f a) :=
  bind_assoc x f _

theorem settle_settle (x : Checking Ty) : settle (settle x) = settle x := by
  have again : ∀ ty, settle (lift (Ty.settled ty)) = lift ty.settled := by
    intro ty
    unfold Ty.settled
    by_cases unknown : ty.isIncomplete
    · rw [if_pos unknown]
      rfl
    · rw [if_neg unknown]
      exact settle_known (Bool.eq_false_iff.mpr unknown)
  have inner : settle x = x >>= fun ty => lift ty.settled := by
    rw [← funext settle_return, ← settle_bind, bind_pure]
  rw [inner, settle_bind, funext again]

end Checking

theorem Ident.inspect_eq (line : Line) (i : Ident) : i.inspect line = lift (i.typeOf line) := by
  unfold Ident.inspect Ident.typeOf
  cases i.use with
  | none => rfl
  | some use =>
    obtain ⟨⟨_, ty, _⟩, _⟩ := use
    cases ty <;> rfl

namespace Expr

variable (h : Inheritance)

theorem settle_inspect (e : Expr) : settle (e.inspect h) = e.inspect h := by
  cases e <;> rw [inspect, settle_settle]

mutual

theorem inspect_eq : (e : Expr) → e.inspect h = lift (e.typeOf h)
  | .int _ _ | .bool _ _ | .null _ => rfl
  | .id line ident => by
    rw [inspect, ident.inspect_eq, typeOf, lift_bind, ← funext settle_return, ← settle_bind,
      bind_pure]
  | .call line callee args => by
    rw [inspect, typeOf]
    cases callee.use with
    | none => rfl
    | some use =>
      cases callable : use.binding.ty.signature? with
      | none =>
        simp only [callable, resolved, pure_bind]
        rfl
      | some sig =>
        simp only [callable, resolved, pure_bind, settle_bind, lift_bind, requireArity_eq,
          inspectArgs_eq, settle_return]
  | .binary line op lhs rhs => by
    have known : op.result.isIncomplete = false := by cases op <;> rfl
    simp only [inspect, typeOf, inspect_eq lhs, inspect_eq rhs, settle_bind, lift_bind,
      settle_known known, require_then]
  | .not line operand => by
    have known : Ty.bool.isIncomplete = false := rfl
    simp only [inspect, typeOf, inspect_eq operand, settle_bind, lift_bind, settle_known known,
      require_then]
  | .cond line test yes no => by
    rw [inspect, inspect_eq test, inspect_eq yes, inspect_eq no, typeOf, settle_bind, lift_bind]
    apply bind_congr
    intro ty
    rw [settle_bind, ← require_then]
    apply bind_congr
    intro _
    rw [settle_bind, lift_bind]
    apply bind_congr
    intro left
    rw [settle_bind, lift_bind]
    apply bind_congr
    intro right
    cases joined : left.join h right with
    | none => rfl
    | some ty => exact settle_known (Ty.join_known joined)
  | .print _ operand => by
    rw [inspect, settle_inspect, inspect_eq operand, typeOf]
  | .new line cls args none | .send line _ cls args none | .get line _ cls none => rfl
  | .new line cls args (some binding) => by
    cases shape : binding.ty with
    | cls layout =>
      have known : (Ty.ref cls).isIncomplete = false := rfl
      simp only [inspect, typeOf, shape, resolved, pure_bind, settle_bind, lift_bind,
        requireArity_eq, inspectArgs_eq, settle_known known]
    | _ =>
      simp only [inspect, typeOf, shape, resolved, pure_bind]
      rfl
  | .send line _ method args (some binding) => by
    cases shape : binding.ty with
    | method sig =>
      simp only [inspect, typeOf, shape, resolved, pure_bind, settle_bind, lift_bind,
        requireArity_eq, inspectArgs_eq, settle_return]
    | _ =>
      simp only [inspect, typeOf, shape, resolved, pure_bind]
      rfl
  | .get line _ field (some binding) => by
    simp only [inspect, typeOf, resolved, pure_bind, settle_bind, settle_return, require_then]
    cases binding.ty.isMethod <;> rfl

theorem inspectArgs_eq (callee : String) (line : Line) : (index : Nat) → (formals : List Ty) →
    (args : List Expr) →
    inspectArgs h callee line index formals args = lift (checkArgs h callee line index formals args)
  | index, formal :: formals, arg :: args => by
    simp only [inspectArgs, checkArgs, inspect_eq arg, inspectArgs_eq callee line (index + 1),
      lift_bind, require_then]
  | _, [], _ => by
    rw [inspectArgs, checkArgs]
    · rfl
    · simp
    · simp
  | _, _ :: _, [] => rfl

end

end Expr

/-! Declarations add to the errors and nothing gets past them. -/

namespace Checking

/-- The check is not stopped, and it appends the errors among these findings. -/
def Reports (x : Checking Unit) (findings : List Finding) : Prop :=
  ∀ errors, x errors = .ok () (errors ++ findings.filterMap Finding.error?)

variable {x y : Checking Unit} {first second : List Finding}

theorem Reports.nothing : Reports (return) [] := by
  intro errors
  rw [List.filterMap_nil, List.append_nil]
  rfl

theorem Reports.bind (here : Reports x first) (there : Reports y second) :
    Reports (do x; y) (first ++ second) := by
  intro errors
  show EStateM.bind x (fun _ => y) errors = _
  rw [EStateM.bind, here errors, List.filterMap_append, ← List.append_assoc]
  exact there _

theorem reports_absorb (finding : Finding) : Reports (absorb finding) [finding] := by
  intro errors
  cases finding <;> rfl

theorem Reports.absorbing_then (here : Reports x first) (result : Except Finding Unit) :
    Reports (absorbing (do x; lift result)) (first ++ Finding.ofCheck result) := by
  intro errors
  have run : (do x; lift result : Checking Unit) errors =
      lift result (errors ++ first.filterMap Finding.error?) := by
    show EStateM.bind x (fun _ => lift result) errors = _
    rw [EStateM.bind, here errors]
  show EStateM.tryCatch _ absorb errors = _
  rw [List.filterMap_append, ← List.append_assoc]
  cases result with
  | ok done =>
    simp only [EStateM.tryCatch, run]
    exact Reports.nothing _
  | error finding =>
    simp only [EStateM.tryCatch, run]
    exact reports_absorb finding _

theorem Reports.absorbing (here : Reports x first) : Reports (absorbing x) first := by
  intro errors
  show EStateM.tryCatch x absorb errors = _
  rw [EStateM.tryCatch, here errors]

theorem reports_check (result : Except Finding Unit) :
    Reports (Checking.absorbing (lift result)) (Finding.ofCheck result) :=
  Reports.nothing.absorbing_then result

theorem reports_forM {α : Type} {f : α → Checking Unit} {findings : α → List Finding}
    (each : ∀ a, Reports (f a) (findings a)) :
    (as : List α) → Reports (as.forM f) (as.flatMap findings)
  | [] => Reports.nothing
  | a :: as => (each a).bind (reports_forM each as)

theorem reports_unless (holds : Bool) (error : TypeError) :
    Reports (unless holds do absorb (.error error)) (if holds then [] else [.error error]) := by
  cases holds with
  | true => exact Reports.nothing
  | false => exact reports_absorb _

end Checking

theorem VarDecl.inspect_eq (h : Inheritance) (decl : VarDecl) :
    (Decl.var decl).inspect h = lift (decl.check h) := by
  have known (ty : Ty) : (do
      if decl.ty.containsIncomplete then throw .incomplete
      require (ty.subtype h decl.ty) (.incompatibleValue decl.name decl.line)) =
      lift (if decl.ty.containsIncomplete then .error .incomplete
        else if ty.subtype h decl.ty then .ok ()
        else .error (.error (.incompatibleValue decl.name decl.line))) := by
    cases decl.ty.containsIncomplete <;> cases ty.subtype h decl.ty <;> rfl
  simp only [Decl.inspect, VarDecl.check, decl.init.inspect_eq, lift_bind, known]

theorem ClassDecl.reports_overrides (h : Inheritance) (c : ClassDecl) :
    Reports (c.inspectOverrides h) (c.overrideFindings h) := by
  unfold inspectOverrides overrideFindings parentLayout?
  cases c.parentBinding with
  | none => exact Reports.nothing
  | some binding =>
    simp only [Option.bind_some]
    cases binding.ty with
    | cls inherited =>
      refine Reports.bind (reports_forM ?_ c.fields) (reports_forM ?_ c.methods)
      · intro f
        unfold fieldFindings
        cases inherited.fieldAt? f.offset with
        | none => exact Reports.nothing
        | some ty => exact reports_unless _ _
      · intro m
        unfold methodFindings
        cases inherited.methodAt? m.offset with
        | none => exact Reports.nothing
        | some sig => exact reports_unless _ _
    | _ => exact Reports.nothing

namespace Decl

variable (h : Inheritance)

mutual

theorem reports : (d : Decl) → Reports (absorbing (d.inspect h)) (d.findings h)
  | .var decl => by
    rw [decl.inspect_eq]
    exact reports_check _
  | .fn routine => reportsRoutine routine
  | .cls ⟨_, _, _, _, methods, _, _⟩ =>
    ((reportsMethods methods).bind (ClassDecl.reports_overrides h _)).absorbing

theorem reportsRoutine : (r : Routine) →
    Reports (absorbing (inspectRoutine h r)) (routineFindings h r)
  | ⟨line, name, ret, params, locals, body⟩ => by
    have result : (do
        let ty ← body.inspect h
        require (ty.subtype h ret) (.wrongReturnType name line)) =
        lift (Routine.checkResult h ⟨line, name, ret, params, locals, body⟩) := by
      simp only [Routine.checkResult, body.inspect_eq, lift_bind, require_eq]
    rw [inspectRoutine, result]
    exact (reportsAll locals).absorbing_then _

theorem reportsMethods : (methods : List Method) →
    Reports (inspectMethods h methods) (methodsFindings h methods)
  | [] => Reports.nothing
  | ⟨routine, _⟩ :: methods => (reportsRoutine routine).bind (reportsMethods methods)

theorem reportsAll : (ds : List Decl) → Reports (inspectAll h ds) (allFindings h ds)
  | [] => Reports.nothing
  | d :: ds => (reports d).bind (reportsAll ds)

end

end Decl

/-- The walk with one list of errors gives the type and the errors of the check. -/
theorem Program.inspect_eq_check (h : Inheritance) (p : Program) :
    p.inspect h [] = .ok (p.check h).ty (p.check h).errors := by
  have decls := Decl.reportsAll h p.decls []
  rw [List.nil_append] at decls
  show EStateM.bind (Decl.inspectAll h p.decls) _ [] = _
  rw [EStateM.bind, decls, p.body.inspect_eq]
  unfold Program.check Checked.errors
  cases p.body.typeOf h with
  | ok ty => rfl
  | error finding =>
    simp only [List.filterMap_append]
    cases finding <;> rfl

end ObjectLang
