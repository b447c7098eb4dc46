import ObjectLang.Proofs.DeclaredTypes
import ObjectLang.Proofs.Typing.Rules

/-!
The check skips a part of a tree that scope resolution left open. If no declared type holds the
marker for an unknown type, a part is left open only where a scope fault is reported: in a tree
without scope faults the check skips nothing.
-/
namespace ObjectLang

abbrev Ty.Known : Ty → Prop := Ty.Over (Ty.containsIncomplete · = false)

theorem Ty.settled_of_complete {ty : Ty} (complete : ty.containsIncomplete = false) :
    ty.settled = .ok ty := by
  cases ty with
  | incomplete => simp [containsIncomplete] at complete
  | _ => rfl

theorem Ty.Known.settled {ty : Ty} (known : ty.Known) : ty.settled = .ok ty := by
  cases ty with
  | incomplete => simp [Over, containsIncomplete] at known
  | _ => rfl

theorem Ty.Known.settled_ret {ty : Ty} {sig : Signature} (known : ty.Known)
    (callable : ty.signature? = some sig) : sig.ret.settled = .ok sig.ret := by
  cases ty with
  | arrow other | method other =>
    cases callable
    exact settled_of_complete known.2
  | _ => cases callable

theorem Except.bind_eq_error {ε α β : Type} {x : Except ε α} {f : α → Except ε β} {e : ε} :
    (x >>= f) = .error e ↔ x = .error e ∨ ∃ a, x = .ok a ∧ f a = .error e := by
  cases x with
  | error e => simp [bind, Except.bind]
  | ok a => simp [bind, Except.bind]

theorem checkArity_settled {callee : String} {line : Line} {expected found : Nat} :
    checkArity callee line expected found ≠ .error .incomplete := by
  unfold checkArity
  split <;> simp

theorem Ident.typeOf_settled {line : Line} {i : Ident} {use : Use} (used : i.use = some use) :
    i.typeOf line ≠ .error .incomplete := by
  unfold Ident.typeOf
  rw [used]
  cases shape : use.binding.ty <;> simp [shape]

namespace Expr

variable {h : Inheritance} {ctx : Context}

mutual

theorem typeOf_settled (every : ctx.Every Ty.Known) : (e : Expr) → e.scopeErrors ctx = [] →
    (e.resolve ctx).typeOf h ≠ .error .incomplete
  | .int _ _ | .bool _ _ | .null _ => by
    intro _ skipped
    cases skipped
  | .id line ident => by
    intro clean skipped
    obtain ⟨b, found⟩ := Ident.scopeErrors_eq_nil.mp clean
    have used := Ident.resolve_use found
    simp only [resolve, typeOf, Except.bind_eq_error] at skipped
    rcases skipped with skipped | ⟨ty, typed, skipped⟩
    · exact Ident.typeOf_settled used skipped
    · -- Only the marker itself would be left open, and no binding has it for a type.
      have known := every.scopes.lookup found
      unfold Ident.typeOf at typed
      rw [used] at typed
      cases shape : b.ty with
      | arrow | method | cls => simp [shape] at typed
      | _ =>
        simp only [shape, Except.ok.injEq] at typed
        rw [← typed, ← shape, known.settled] at skipped
        cases skipped
  | .call line callee args => by
    intro clean skipped
    simp only [scopeErrors, List.append_eq_nil_iff] at clean
    obtain ⟨b, found⟩ := Ident.scopeErrors_eq_nil.mp clean.1
    simp only [resolve, typeOf, Ident.resolve_use found] at skipped
    cases callable : b.ty.signature? with
    | none => simp [callable] at skipped
    | some sig =>
      simp only [callable, Except.bind_eq_error] at skipped
      rcases skipped with skipped | ⟨_, _, skipped | ⟨_, _, skipped⟩⟩
      · exact checkArity_settled skipped
      · exact checkArgs_settled every args clean.2 skipped
      · rw [(every.scopes.lookup found).settled_ret callable] at skipped
        cases skipped
  | .binary line op lhs rhs => by
    intro clean skipped
    simp only [scopeErrors, List.append_eq_nil_iff] at clean
    simp only [resolve, typeOf, Except.bind_eq_error] at skipped
    rcases skipped with skipped | ⟨_, _, skipped | ⟨_, _, skipped⟩⟩
    · exact typeOf_settled every lhs clean.1 skipped
    · exact typeOf_settled every rhs clean.2 skipped
    · split at skipped <;> simp at skipped
  | .not line operand => by
    intro clean skipped
    simp only [resolve, typeOf, Except.bind_eq_error] at skipped
    rcases skipped with skipped | ⟨_, _, skipped⟩
    · exact typeOf_settled every operand clean skipped
    · split at skipped <;> simp at skipped
  | .cond line test yes no => by
    intro clean skipped
    simp only [scopeErrors, List.append_eq_nil_iff] at clean
    simp only [resolve, typeOf, Except.bind_eq_error] at skipped
    rcases skipped with skipped | ⟨_, _, skipped⟩
    · exact typeOf_settled every test clean.1.1 skipped
    · split at skipped
      · simp only [Except.bind_eq_error] at skipped
        rcases skipped with skipped | ⟨_, _, skipped | ⟨_, _, skipped⟩⟩
        · exact typeOf_settled every yes clean.1.2 skipped
        · exact typeOf_settled every no clean.2 skipped
        · split at skipped <;> simp at skipped
      · simp at skipped
  | .print line operand => by
    intro clean
    exact typeOf_settled every operand clean
  | .new line cls args binding => by
    intro clean skipped
    simp only [scopeErrors, List.append_eq_nil_iff] at clean
    cases found : ctx.scopes.lookupGlobal cls with
    | none => simp [found] at clean
    | some b =>
      simp only [resolve, found, Option.some_or, typeOf] at skipped
      cases shape : b.ty with
      | cls layout =>
        simp only [shape, Except.bind_eq_error] at skipped
        rcases skipped with skipped | ⟨_, _, skipped | ⟨_, _, skipped⟩⟩
        · exact checkArity_settled skipped
        · exact checkArgs_settled every args clean.2 skipped
        · cases skipped
      | _ => simp [shape] at skipped
  | .send line object method args binding => by
    intro clean skipped
    simp only [scopeErrors, List.append_eq_nil_iff] at clean
    obtain ⟨b, found, _, _, _, _, _, listed, entry⟩ := Context.member_found clean.1.1 clean.1.2
    simp only [resolve, found, MemberLookup.binding?, typeOf] at skipped
    cases shape : b.ty with
    | method sig =>
      simp only [shape, Except.bind_eq_error] at skipped
      rcases skipped with skipped | ⟨_, _, skipped | ⟨_, _, skipped⟩⟩
      · exact checkArity_settled skipped
      · exact checkArgs_settled every args clean.2 skipped
      · have known := every.memberOf listed entry
        rw [known.settled_ret (by rw [shape]; rfl)] at skipped
        cases skipped
    | _ => simp [shape] at skipped
  | .get line object field binding => by
    intro clean skipped
    simp only [scopeErrors, List.append_eq_nil_iff] at clean
    obtain ⟨b, found, _, _, _, _, _, listed, entry⟩ := Context.member_found clean.1 clean.2
    simp only [resolve, found, MemberLookup.binding?, typeOf] at skipped
    split at skipped
    · simp at skipped
    · rw [(every.memberOf listed entry).settled] at skipped
      cases skipped

theorem checkArgs_settled (every : ctx.Every Ty.Known) : (args : List Expr) →
    ∀ {callee : String} {line : Line} {index : Nat} {formals : List Ty},
      allScopeErrors ctx args = [] →
      checkArgs h callee line index formals (resolveAll ctx args) ≠ .error .incomplete
  | [] => by
    rename_i formals
    intro _ skipped
    cases formals <;> simp [resolveAll, checkArgs] at skipped
  | arg :: args => by
    rename_i formals
    intro clean skipped
    simp only [allScopeErrors, List.append_eq_nil_iff] at clean
    cases formals with
    | nil => simp [resolveAll, checkArgs] at skipped
    | cons formal formals =>
      simp only [resolveAll, checkArgs, Except.bind_eq_error] at skipped
      rcases skipped with skipped | ⟨_, _, skipped⟩
      · exact typeOf_settled every arg clean.1 skipped
      · split at skipped
        · exact checkArgs_settled every args clean.2 skipped
        · simp at skipped

end

end Expr

theorem Ty.join_known {h : Inheritance} {a b result : Ty} (joined : a.join h b = some result) :
    result.isIncomplete = false := by
  unfold Ty.join at joined
  split at joined
  · cases joined
  · rename_i known
    simp only [Bool.or_eq_true, not_or, Bool.not_eq_true] at known
    split at joined
    · cases joined
      exact known.1
    · split at joined
      · cases joined
        exact known.2
      · cases joined
        exact known.1
      · obtain ⟨name, _, rfl⟩ := List.mem_map.mp (List.mem_of_find?_eq_some joined)
        rfl
      · cases joined
        rfl
      · cases joined
        rfl
      · cases joined

theorem Ty.Known.isIncomplete_eq {ty : Ty} (known : ty.Known) : ty.isIncomplete = false :=
  (Ty.settled_eq_ok.mp known.settled).1

theorem Expr.Typed.isIncomplete_eq {h : Inheritance} {ctx : Context} (every : ctx.Every Ty.Known) :
    {e : Expr} → {ty : Ty} → e.Typed h ctx ty → ty.isIncomplete = false
  | _, _, .int | _, _, .bool | _, _, .null | _, _, .not _ _ | _, _, .new _ _ _ => rfl
  | _, _, .id found _ => (every.scopes.lookup found).isIncomplete_eq
  | _, _, .call found callable _ =>
    (Ty.settled_eq_ok.mp ((every.scopes.lookup found).settled_ret callable)).1
  | .binary _ op _ _, _, .binary _ _ _ => by cases op <;> rfl
  | _, _, .cond _ _ _ _ joined => Ty.join_known joined
  | _, _, .print typed => typed.isIncomplete_eq every
  | _, _, .send ⟨_, _, _, _, _, listed, entry⟩ isMethod _ =>
    (Ty.settled_eq_ok.mp ((every.memberOf listed entry).settled_ret (by rw [isMethod]; rfl))).1
  | _, _, .get ⟨_, _, _, _, _, listed, entry⟩ _ => (every.memberOf listed entry).isIncomplete_eq

theorem Finding.incomplete_not_mem_ofCheck {check : Except Finding Unit}
    (settled : check ≠ .error .incomplete) : .incomplete ∉ Finding.ofCheck check := by
  cases check with
  | ok done => simp [ofCheck]
  | error finding =>
    intro mem
    rw [ofCheck, List.mem_singleton] at mem
    exact settled (by rw [mem])

theorem ClassDecl.incomplete_not_mem_overrides {h : Inheritance} {c : ClassDecl} :
    .incomplete ∉ c.overrideFindings h := by
  unfold overrideFindings
  split
  · simp
  · simp only [List.mem_append, List.mem_flatMap, not_or, not_exists, not_and]
    constructor
    · intro f _ mem
      unfold fieldFindings at mem
      split at mem
      · simp at mem
      · split at mem <;> simp at mem
    · intro m _ mem
      unfold methodFindings at mem
      split at mem
      · simp at mem
      · split at mem <;> simp at mem

namespace Decl

variable {h : Inheritance}

abbrev Complete (types : List Ty) : Prop := ∀ ty ∈ types, ty.containsIncomplete = false

mutual

theorem settled : (d : Decl) → ∀ {ctx : Context}, ctx.Every Ty.Known → Complete d.declaredTypes →
    d.scopeErrors ctx = [] → .incomplete ∉ (d.resolve ctx).findings h
  | .var ⟨line, name, ty, init⟩ => by
    intro every types clean
    simp only [scopeErrors, List.append_eq_nil_iff] at clean
    apply Finding.incomplete_not_mem_ofCheck
    intro skipped
    simp only [VarDecl.check, Except.bind_eq_error] at skipped
    rcases skipped with skipped | ⟨_, _, skipped⟩
    · exact Expr.typeOf_settled every init clean.1.1 skipped
    · rw [if_neg (by simp [types ty (by simp [declaredTypes])])] at skipped
      split at skipped <;> simp at skipped
  | .fn routine => by
    intro every types clean
    rename_i ctx
    simp only [scopeErrors, List.append_eq_nil_iff] at clean
    have new : (Decl.fn routine).Introduces Ty.Known := introduces (fun _ => Ty.over_complete) types
    exact settledRoutine routine (every.after new) types clean.2
  | .cls ⟨line, name, parent, fields, methods, binding, parentBinding⟩ => by
    intro every types clean
    rename_i ctx
    have new := introduces (fun _ => Ty.over_complete) types
    simp only [scopeErrors] at clean
    split at clean
    · rename_i global
      rw [List.append_eq_nil_iff] at clean
      have within := fun ty mem => types ty (List.mem_append_right _ mem)
      simp only [resolve, global, if_true, findings, List.mem_append, not_or]
      exact ⟨settledMethods methods (every.inClass new) within clean.2,
        ClassDecl.incomplete_not_mem_overrides⟩
    · simp at clean

theorem settledRoutine : (r : Routine) → ∀ {ctx : Context}, ctx.Every Ty.Known →
    Complete (routineDeclaredTypes r) → routineScopeErrors ctx r = [] →
    .incomplete ∉ routineFindings h (resolveRoutine ctx r)
  | ⟨line, name, ret, params, locals, body⟩ => by
    intro every types clean
    simp only [routineScopeErrors, List.append_eq_nil_iff] at clean
    have within := (types_routine types).2
    have inside := Context.every_inRoutine (fun _ => Ty.over_complete) every types
    have atBody := Context.every_foldl (fun _ => Ty.over_complete) inside within
    simp only [resolveRoutine, routineFindings, List.mem_append, not_or]
    refine ⟨settledAll locals inside within clean.1.2, ?_⟩
    apply Finding.incomplete_not_mem_ofCheck
    intro skipped
    simp only [Routine.checkResult, Except.bind_eq_error] at skipped
    rcases skipped with skipped | ⟨_, _, skipped⟩
    · exact Expr.typeOf_settled atBody body clean.2 skipped
    · split at skipped <;> simp at skipped

theorem settledMethods : (methods : List Method) → ∀ {ctx : Context} {m : Members},
    ctx.Every Ty.Known → Complete (methodsDeclaredTypes methods) →
    methodsScopeErrors ctx methods = [] →
    .incomplete ∉ methodsFindings h (resolveMethods ctx m methods)
  | [] => by
    intro _ _ _
    simp [resolveMethods, methodsFindings]
  | ⟨routine, _⟩ :: methods => by
    intro every types clean
    simp only [methodsDeclaredTypes, methodsScopeErrors, List.append_eq_nil_iff] at types clean
    simp only [resolveMethods, methodsFindings, List.mem_append, not_or]
    exact ⟨settledRoutine routine every (fun ty mem => types ty (List.mem_append_left _ mem)) clean.1,
      settledMethods methods every (fun ty mem => types ty (List.mem_append_right _ mem)) clean.2⟩

theorem settledAll : (ds : List Decl) → ∀ {ctx : Context}, ctx.Every Ty.Known →
    Complete (allDeclaredTypes ds) → allScopeErrors ctx ds = [] →
    .incomplete ∉ allFindings h (resolveAll ctx ds)
  | [] => by
    intro _ _ _
    simp [resolveAll, allFindings]
  | d :: ds => by
    intro every types clean
    obtain ⟨first, rest⟩ := types_cons types
    simp only [allScopeErrors, List.append_eq_nil_iff] at clean
    simp only [resolveAll, allFindings, List.mem_append, not_or]
    exact ⟨settled d every first clean.1,
      settledAll ds (every.after (introduces (fun _ => Ty.over_complete) first)) rest clean.2⟩

end

end Decl

theorem Program.context_known {p : Program} (types : Decl.Complete p.declaredTypes) :
    p.context.Every Ty.Known :=
  Context.every_foldl (fun _ => Ty.over_complete) Context.every_initial types

/-- Without scope faults the check of a program skips nothing. -/
theorem Program.check_settled {p : Program} {h : Inheritance}
    (types : Decl.Complete p.declaredTypes) (clean : p.resolve.errors = []) :
    .incomplete ∉ (p.resolve.program.check h).findings := by
  simp only [Program.resolve, List.append_eq_nil_iff] at clean
  have decls : .incomplete ∉ Decl.allFindings h p.resolve.program.decls :=
    Decl.settledAll p.decls Context.every_initial types clean.1
  have body : p.resolve.program.body.typeOf h ≠ .error .incomplete :=
    Expr.typeOf_settled (context_known types) p.body clean.2
  unfold Program.check
  split
  · exact decls
  · rename_i finding failed
    simp only [List.mem_append, List.mem_singleton, not_or]
    refine ⟨decls, ?_⟩
    rintro rfl
    exact body failed

end ObjectLang
