import ObjectLang.Proofs.Scope.Lexical

/-!
Where objects are made. An accepted program makes objects of global names only, at any depth, and
every place that makes one carries the binding that its name has in the end in the global scope.
-/
namespace ObjectLang

inductive Expr.Creates (cls : String) (b : Binding) : Expr → Prop
  | here (line : Line) (args : List Expr) : Creates cls b (.new line cls args (some b))
  | inside {e part : Expr} (mem : part ∈ e.parts) (creates : Creates cls b part) : Creates cls b e

namespace Decl

mutual

def Creates (cls : String) (b : Binding) : Decl → Prop
  | .var ⟨_, _, _, init⟩ => init.Creates cls b
  | .fn routine => RoutineCreates cls b routine
  | .cls ⟨_, _, _, _, methods, _, _⟩ => MethodsCreate cls b methods

def RoutineCreates (cls : String) (b : Binding) : Routine → Prop
  | ⟨_, _, _, _, locals, body⟩ => AllCreate cls b locals ∨ body.Creates cls b

def MethodsCreate (cls : String) (b : Binding) : List Method → Prop
  | [] => False
  | ⟨routine, _⟩ :: methods => RoutineCreates cls b routine ∨ MethodsCreate cls b methods

def AllCreate (cls : String) (b : Binding) : List Decl → Prop
  | [] => False
  | d :: ds => Creates cls b d ∨ AllCreate cls b ds

end

end Decl

def Program.Creates (cls : String) (b : Binding) (p : Program) : Prop :=
  Decl.AllCreate cls b p.decls ∨ p.body.Creates cls b

/-! Global names inside scopes. -/

theorem Scopes.lookupGlobal_declare_deep {s : Scopes} (deep : 1 < s.tables.length)
    (name other : String) (b : Binding) :
    (s.declare name b).lookupGlobal other = s.lookupGlobal other := by
  obtain ⟨tables⟩ := s
  match tables with
  | [] | [_] => simp at deep
  | table :: next :: rest => exact lookupGlobal_declare_inner (by simp)

theorem Scopes.lookupGlobal_declareParams {s : Scopes} (deep : 1 < s.tables.length)
    (offset : Word) (params : List Param) (name : String) :
    (s.declareParams offset params).lookupGlobal name = s.lookupGlobal name := by
  induction params generalizing s offset with
  | nil => rfl
  | cons p params ih =>
    rw [declareParams, ih (by rwa [length_declare]), lookupGlobal_declare_deep deep]

namespace Context

variable {ctx : Context} {name : String} {b : Binding}

theorem lookupGlobal_after_deep (deep : 1 < ctx.scopes.tables.length) (d : Decl) (name : String) :
    (ctx.after d).scopes.lookupGlobal name = ctx.scopes.lookupGlobal name := by
  cases d with
  | var | fn => exact Scopes.lookupGlobal_declare_deep deep _ _ _
  | cls c =>
    rw [after]
    split
    · exact Scopes.lookupGlobal_declare_deep deep _ _ _
    · rfl

theorem lookupGlobal_foldl_deep (deep : 1 < ctx.scopes.tables.length) (ds : List Decl)
    (name : String) :
    (ds.foldl Context.after ctx).scopes.lookupGlobal name = ctx.scopes.lookupGlobal name := by
  induction ds generalizing ctx with
  | nil => rfl
  | cons d ds ih =>
    rw [List.foldl_cons, ih (by rwa [length_after]), lookupGlobal_after_deep deep]

theorem lookupGlobal_inRoutine (opened : ctx.scopes.tables ≠ []) (params : List Param)
    (locals : List Decl) (name : String) :
    (locals.foldl Context.after (ctx.inRoutine params)).scopes.lookupGlobal name =
      ctx.scopes.lookupGlobal name := by
  have deep : 1 < (ctx.scopes.enter {}).tables.length := by
    have := List.length_pos_iff.mpr opened
    simpa using this
  rw [lookupGlobal_foldl_deep (by rwa [inRoutine, Scopes.length_declareParams])]
  exact (Scopes.lookupGlobal_declareParams deep 1 params name).trans
    (Scopes.lookupGlobal_enter opened {})

theorem lookupGlobal_after (d : Decl) (known : ctx.scopes.lookupGlobal name = some b) :
    (ctx.after d).scopes.lookupGlobal name = some b := by
  cases d with
  | var | fn => exact Scopes.lookupGlobal_declare known
  | cls c =>
    rw [after]
    split
    · exact Scopes.lookupGlobal_declare known
    · exact known

theorem lookupGlobal_foldl (ds : List Decl) (known : ctx.scopes.lookupGlobal name = some b) :
    (ds.foldl Context.after ctx).scopes.lookupGlobal name = some b := by
  induction ds generalizing ctx with
  | nil => exact known
  | cons d ds ih => exact ih (lookupGlobal_after d known)

theorem opened_after (opened : ctx.scopes.tables ≠ []) (d : Decl) :
    (ctx.after d).scopes.tables ≠ [] := by
  rwa [← List.length_pos_iff, length_after, List.length_pos_iff]

theorem opened_inRoutine (params : List Param) : (ctx.inRoutine params).scopes.tables ≠ [] := by
  rw [← List.length_pos_iff, inRoutine, Scopes.length_declareParams]
  exact Nat.succ_pos _

end Context

/-! Creations in accepted trees. -/

variable {cls : String} {b : Binding}

theorem Expr.creates_global {ctx : Context} {e : Expr} (clean : e.scopeErrors ctx = [])
    (creates : (e.resolve ctx).Creates cls b) : ctx.scopes.lookupGlobal cls = some b := by
  generalize same : e.resolve ctx = resolved at creates
  induction creates generalizing e with
  | here line args =>
    cases e with
    | new written name old binding =>
      simp only [resolve, Expr.new.injEq] at same
      obtain ⟨_, rfl, _, found⟩ := same
      cases known : ctx.scopes.lookupGlobal name with
      | none => simp [scopeErrors, known] at clean
      | some binding => simpa [known] using found
    | _ => simp [resolve] at same
  | inside mem _ ih =>
    rw [← same, parts_resolve, List.mem_map] at mem
    obtain ⟨part, listed, rfl⟩ := mem
    exact ih (List.subset_nil.mp (clean ▸ scopeErrors_part listed)) rfl

namespace Decl

mutual

theorem creates_global : (d : Decl) → ∀ {ctx : Context}, ctx.scopes.tables ≠ [] →
    d.scopeErrors ctx = [] → (d.resolve ctx).Creates cls b →
    (ctx.after d).scopes.lookupGlobal cls = some b
  | .var ⟨line, name, ty, init⟩, ctx => by
    intro _ clean creates
    rw [scopeErrors, List.append_assoc, List.append_eq_nil_iff] at clean
    exact Context.lookupGlobal_after _ (Expr.creates_global clean.1 creates)
  | .fn routine, ctx => by
    intro opened clean creates
    rw [scopeErrors, List.append_eq_nil_iff] at clean
    exact routineCreates_global routine (Context.opened_after opened _) clean.2 creates
  | .cls ⟨line, name, parent, fields, methods, binding, parentBinding⟩, ctx => by
    intro opened clean creates
    by_cases global : ctx.isGlobal
    · simp only [scopeErrors, if_pos global, List.append_eq_nil_iff] at clean
      simp only [resolve, if_pos global, Creates] at creates
      have found := methodsCreate_global methods (List.cons_ne_nil _ _) clean.2 creates
      have opened := Context.opened_after opened
        (.cls ⟨line, name, parent, fields, methods, binding, parentBinding⟩)
      rw [Context.after, if_pos global] at opened ⊢
      exact (Scopes.lookupGlobal_enter opened _).symm.trans found
    · simp [scopeErrors, global] at clean

theorem routineCreates_global : (r : Routine) → ∀ {ctx : Context}, ctx.scopes.tables ≠ [] →
    routineScopeErrors ctx r = [] → RoutineCreates cls b (resolveRoutine ctx r) →
    ctx.scopes.lookupGlobal cls = some b
  | ⟨line, name, ret, params, locals, body⟩, ctx => by
    intro opened clean creates
    simp only [routineScopeErrors, List.append_eq_nil_iff] at clean
    rw [← Context.lookupGlobal_inRoutine opened params locals]
    rcases creates with creates | creates
    · exact allCreate_global locals (Context.opened_inRoutine params) clean.1.2 creates
    · exact Expr.creates_global clean.2 creates

theorem methodsCreate_global : (methods : List Method) → ∀ {ctx : Context} {m : Members},
    ctx.scopes.tables ≠ [] → methodsScopeErrors ctx methods = [] →
    MethodsCreate cls b (resolveMethods ctx m methods) → ctx.scopes.lookupGlobal cls = some b
  | [], _, _ => nofun
  | ⟨routine, _⟩ :: methods, ctx, m => by
    intro opened clean creates
    rw [methodsScopeErrors, List.append_eq_nil_iff] at clean
    rcases creates with creates | creates
    · exact routineCreates_global routine opened clean.1 creates
    · exact methodsCreate_global methods opened clean.2 creates

theorem allCreate_global : (ds : List Decl) → ∀ {ctx : Context}, ctx.scopes.tables ≠ [] →
    allScopeErrors ctx ds = [] → AllCreate cls b (resolveAll ctx ds) →
    (ds.foldl Context.after ctx).scopes.lookupGlobal cls = some b
  | [], _ => nofun
  | d :: ds, ctx => by
    intro opened clean creates
    rw [allScopeErrors, List.append_eq_nil_iff] at clean
    rcases creates with creates | creates
    · exact Context.lookupGlobal_foldl ds (creates_global d opened clean.1 creates)
    · exact allCreate_global ds (Context.opened_after opened d) clean.2 creates

end

end Decl

/-- In an accepted program objects are made of global names, and each creation is annotated with
the binding of its name in the finished global scope. -/
theorem Program.creates_global {p : Program} (accepted : p.resolve.errors = [])
    (creates : p.resolve.program.Creates cls b) :
    p.context.scopes.lookupGlobal cls = some b := by
  obtain ⟨inDecls, inBody⟩ := List.append_eq_nil_iff.mp accepted
  rcases creates with creates | creates
  · exact Decl.allCreate_global p.decls (List.cons_ne_nil _ _) inDecls creates
  · exact Expr.creates_global inBody creates

end ObjectLang
