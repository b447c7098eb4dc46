import ObjectLang.Proofs.Classes.Headers

/-!
Scope resolution accepts exactly the programs that keep the scope rules. Where the context mirrors
the surroundings, an expression or a declaration is accepted exactly if it keeps the rules, and the
context after an accepted declaration mirrors the surroundings again.
-/
namespace ObjectLang

variable {name : String}

/-! Expressions. -/

namespace Context.Mirrors

variable {ctx : Context} {s : Surroundings}

theorem member_errors (mirrors : ctx.Mirrors s) {object : Ident} {member : String} {line : Line}
    {b : Binding} (found : ctx.scopes.lookup object.name = some b) :
    (ctx.member (object.resolve ctx.scopes) member).errors object.name member line = [] ↔
      ∃ cls, s.lookup object.name = some (.object cls) ∧
        ∃ role, (Decl.membersOf cls s.globals).lookup member = some role := by
  have shown := mirrors.lookup object.name
  rw [found, Option.map_some] at shown
  rw [← shown, Context.member, Ident.resolve_use found]
  cases shape : b.ty with
  | ref cls =>
    have table := mirrors.member cls member
    simp only [shape, Ty.role, Option.some.injEq, Role.object.injEq, exists_eq_left', ← table]
    cases (ctx.classes.find? cls).bind fun table => table.find? member <;>
      simp [MemberLookup.errors]
  | _ => simp [shape, MemberLookup.errors, Ty.role]

theorem access_errors (mirrors : ctx.Mirrors s) {object : Ident} {member : String} {line : Line} :
    object.scopeErrors ctx.scopes .var line = [] ∧
        (ctx.member (object.resolve ctx.scopes) member).errors object.name member line = [] ↔
      (∃ role, s.lookup object.name = some role) ∧
        ∃ cls, s.lookup object.name = some (.object cls) ∧
          ∃ role, (Decl.membersOf cls s.globals).lookup member = some role := by
  rw [Ident.scopeErrors_eq_nil, ← mirrors.lookup_isSome]
  exact and_congr_right fun ⟨_, found⟩ => mirrors.member_errors found

end Context.Mirrors

namespace Expr

variable {ctx : Context} {s : Surroundings}

theorem inScope_of_silent {e : Expr} (mention : e.mention? = none) (created : e.created? = none)
    (access : e.access? = none) : e.InScope s := by
  constructor
  · intro kind ident asks
    rw [mention] at asks
    cases asks
  · intro cls asks
    rw [created] at asks
    cases asks
  · intro object member asks
    rw [access] at asks
    cases asks

theorem inScope_of_mention {e : Expr} {kind : NameKind} {ident : Ident}
    (mention : e.mention? = some (kind, ident)) (created : e.created? = none)
    (access : e.access? = none) : e.InScope s ↔ ∃ role, s.lookup ident.name = some role := by
  refine ⟨fun inScope => inScope.mentioned kind ident mention, fun found => ⟨?_, ?_, ?_⟩⟩
  · intro kind' ident' asks
    rw [mention] at asks
    cases asks
    exact found
  · intro cls asks
    rw [created] at asks
    cases asks
  · intro object member asks
    rw [access] at asks
    cases asks

theorem inScope_of_access {e : Expr} {object : Ident} {member : String}
    (mention : e.mention? = some (.var, object)) (created : e.created? = none)
    (access : e.access? = some (object.name, member)) :
    e.InScope s ↔ (∃ role, s.lookup object.name = some role) ∧
      ∃ cls, s.lookup object.name = some (.object cls) ∧
        ∃ role, (Decl.membersOf cls s.globals).lookup member = some role := by
  refine ⟨fun inScope => ⟨inScope.mentioned .var object mention,
    inScope.accessed object.name member access⟩, fun ⟨known, found⟩ => ⟨?_, ?_, ?_⟩⟩
  · intro kind ident asks
    rw [mention] at asks
    cases asks
    exact known
  · intro cls asks
    rw [created] at asks
    cases asks
  · intro object' member' asks
    rw [access] at asks
    cases asks
    exact found

theorem inScope_new {line : Line} {cls : String} {args : List Expr} {binding : Option Binding} :
    (Expr.new line cls args binding).InScope s ↔ ∃ d ∈ s.globals, d.named.1 = cls := by
  refine ⟨fun inScope => inScope.created cls rfl, fun found => ⟨nofun, ?_, nofun⟩⟩
  intro cls' asks
  cases asks
  exact found

mutual

/-- An expression is accepted exactly if all that is inside it is in scope. -/
theorem scopeErrors_eq_nil (mirrors : ctx.Mirrors s) :
    (e : Expr) → (e.scopeErrors ctx = [] ↔ ∀ node ∈ e.nodes, node.InScope s)
  | .int line value | .bool line value | .null line => by
    rw [scopeErrors, nodes, List.forall_mem_singleton]
    exact iff_of_true rfl (inScope_of_silent rfl rfl rfl)
  | .id line ident => by
    rw [scopeErrors, nodes, List.forall_mem_singleton, inScope_of_mention rfl rfl rfl,
      Ident.scopeErrors_eq_nil, mirrors.lookup_isSome]
  | .call line callee args => by
    rw [scopeErrors, nodes, List.append_eq_nil_iff, List.forall_mem_cons,
      inScope_of_mention rfl rfl rfl, Ident.scopeErrors_eq_nil, mirrors.lookup_isSome,
      allScopeErrors_eq_nil mirrors args]
  | .binary line op lhs rhs => by
    rw [scopeErrors, nodes, List.append_eq_nil_iff, List.forall_mem_cons, List.forall_mem_append,
      scopeErrors_eq_nil mirrors lhs, scopeErrors_eq_nil mirrors rhs,
      and_iff_right (inScope_of_silent rfl rfl rfl)]
  | .not line operand => by
    rw [scopeErrors, nodes, List.forall_mem_cons, scopeErrors_eq_nil mirrors operand,
      and_iff_right (inScope_of_silent rfl rfl rfl)]
  | .cond line test yes no => by
    rw [scopeErrors, nodes, List.append_eq_nil_iff, List.append_eq_nil_iff, List.forall_mem_cons,
      List.forall_mem_append, List.forall_mem_append, scopeErrors_eq_nil mirrors test,
      scopeErrors_eq_nil mirrors yes, scopeErrors_eq_nil mirrors no,
      and_iff_right (inScope_of_silent rfl rfl rfl)]
  | .print line operand => by
    rw [scopeErrors, nodes, List.forall_mem_cons, scopeErrors_eq_nil mirrors operand,
      and_iff_right (inScope_of_silent rfl rfl rfl)]
  | .new line cls args binding => by
    rw [scopeErrors, nodes, List.append_eq_nil_iff, List.forall_mem_cons, inScope_new,
      ← mirrors.lookupGlobal_isSome, allScopeErrors_eq_nil mirrors args]
    cases ctx.scopes.lookupGlobal cls <;> simp
  | .send line object method args binding => by
    rw [scopeErrors, nodes, List.append_eq_nil_iff, List.append_eq_nil_iff, List.forall_mem_cons,
      mirrors.access_errors, inScope_of_access rfl rfl rfl, allScopeErrors_eq_nil mirrors args]
  | .get line object field binding => by
    rw [scopeErrors, nodes, List.append_eq_nil_iff, List.forall_mem_singleton,
      mirrors.access_errors, inScope_of_access rfl rfl rfl]

theorem allScopeErrors_eq_nil (mirrors : ctx.Mirrors s) :
    (es : List Expr) → (allScopeErrors ctx es = [] ↔ ∀ node ∈ allNodes es, node.InScope s)
  | [] => by simp [allScopeErrors, allNodes]
  | e :: es => by
    rw [allScopeErrors, allNodes, List.append_eq_nil_iff, List.forall_mem_append,
      scopeErrors_eq_nil mirrors e, allScopeErrors_eq_nil mirrors es]

end

end Expr

/-! Routines, and declarations other than classes. -/

namespace Decl

variable {ds ds' : List Decl} {rs rs' : List Routine} {tys tys' : List Ty}
  {ps ps' : List (Surroundings × Expr)}

theorem orderly_append :
    Orderly ds (rs ++ rs') (tys ++ tys') (ps ++ ps') ↔
      Orderly ds rs tys ps ∧ Orderly ds rs' tys' ps' := by
  constructor
  · rintro ⟨routines, types, places⟩
    rw [List.forall_mem_append] at routines types places
    exact ⟨⟨routines.1, types.1, places.1⟩, routines.2, types.2, places.2⟩
  · rintro ⟨⟨routines, types, places⟩, routines', types', places'⟩
    exact ⟨List.forall_mem_append.mpr ⟨routines, routines'⟩,
      List.forall_mem_append.mpr ⟨types, types'⟩, List.forall_mem_append.mpr ⟨places, places'⟩⟩

theorem orderly_nil : Orderly ds [] [] [] := by
  constructor <;> exact fun _ listed => absurd listed List.not_mem_nil

theorem orderly_congr (same : ∀ name, HasClass name ds ↔ HasClass name ds') :
    Orderly ds rs tys ps ↔ Orderly ds' rs tys ps := by
  have types : (∀ ty ∈ tys, ∀ name ∈ ty.classNames, HasClass name ds) ↔
      ∀ ty ∈ tys, ∀ name ∈ ty.classNames, HasClass name ds' := by simp only [same]
  exact ⟨fun orderly => ⟨orderly.routines, types.mp orderly.types, orderly.places⟩,
    fun orderly => ⟨orderly.routines, types.mpr orderly.types, orderly.places⟩⟩

theorem orderly_types : Orderly ds rs (tys ++ tys') ps ↔
    (∀ ty ∈ tys, ∀ name ∈ ty.classNames, HasClass name ds) ∧ Orderly ds rs tys' ps := by
  constructor
  · rintro ⟨routines, types, places⟩
    rw [List.forall_mem_append] at types
    exact ⟨types.1, routines, types.2, places⟩
  · rintro ⟨first, routines, types, places⟩
    exact ⟨routines, List.forall_mem_append.mpr ⟨first, types⟩, places⟩

theorem orderly_exprs {s : Surroundings} {es : List Expr} :
    Orderly ds rs [] (es.map fun e => (s, e)) ↔
      (∀ r ∈ rs, r.WellScoped) ∧ ∀ e ∈ es, e.InScope s := by
  constructor
  · rintro ⟨routines, _, places⟩
    exact ⟨routines, fun e listed => places (s, e) (List.mem_map_of_mem listed)⟩
  · rintro ⟨routines, inScope⟩
    refine ⟨routines, fun _ listed => absurd listed List.not_mem_nil, fun place listed => ?_⟩
    obtain ⟨e, among, rfl⟩ := List.mem_map.mp listed
    exact inScope e among

theorem routineDeclaredTypes_eq (r : Routine) :
    routineDeclaredTypes r = (r.ret :: r.params.map Param.ty) ++ allDeclaredTypes r.locals := by
  cases r
  rfl

theorem routine_wellScoped (r : Routine) :
    r.WellScoped ↔ Roles.Fresh (r.params.map Param.named) [] ∧
      Roles.Fresh (r.locals.map named) ((r.params.map Param.named).map Prod.fst) ∧
        ∀ c, .cls c ∉ r.locals := by
  rw [← and_assoc, ← Roles.distinct_append]
  exact ⟨fun wellScoped => ⟨wellScoped.distinct, wellScoped.noClass⟩,
    fun ⟨distinct, noClass⟩ => ⟨distinct, noClass⟩⟩

theorem nested_scopeErrors {ctx : Context} {s : Surroundings} (mirrors : ctx.Mirrors s)
    (inner : s.inner ≠ []) (c : ClassDecl) : (Decl.cls c).scopeErrors ctx ≠ [] := by
  have nested : ctx.isGlobal ≠ true := fun global => inner (mirrors.isGlobal_iff.mp global)
  obtain ⟨line, name, parent, fields, methods, binding, parentBinding⟩ := c
  rw [scopeErrors, if_neg nested]
  exact List.cons_ne_nil _ _

mutual

theorem plain_scopeErrors : (d : Decl) → (ctx : Context) → (s : Surroundings) →
    (∀ c, d ≠ .cls c) → ctx.Mirrors s →
      (d.scopeErrors ctx = [] ↔
        d.named.1 ∉ s.here ∧ Orderly s.globals d.routines d.declaredTypes (d.places s))
  | .var ⟨line, name, ty, init⟩, ctx, s, _, mirrors => by
    have types : (Decl.var ⟨line, name, ty, init⟩).declaredTypes = [ty] ++ [] := rfl
    rw [scopeErrors, List.append_eq_nil_iff, List.append_eq_nil_iff,
      Expr.scopeErrors_eq_nil mirrors, Ty.scopeErrors_eq_nil mirrors.recorded,
      Scopes.duplicate_eq_nil, mirrors.declaresHere, types, orderly_types, places, orderly_exprs,
      List.forall_mem_singleton]
    constructor
    · rintro ⟨⟨inScope, known⟩, free⟩
      exact ⟨free, known, fun _ listed => absurd listed List.not_mem_nil, inScope⟩
    · rintro ⟨free, known, _, inScope⟩
      exact ⟨⟨inScope, known⟩, free⟩
  | .fn routine, ctx, s, noClass, mirrors => by
    rw [scopeErrors, List.append_eq_nil_iff, List.append_eq_nil_iff,
      Ty.signature_scopeErrors_eq_nil mirrors.recorded, Scopes.duplicate_eq_nil,
      mirrors.declaresHere, routines, declaredTypes, places, routineDeclaredTypes_eq, orderly_types]
    -- The routine is read with its own name in scope, which is there only if it is new.
    have inside (free : (Decl.fn routine).named.1 ∉ s.here) :=
      (routine_scopeErrors routine _ _ (mirrors.after free noClass)).trans
        (orderly_congr fun _ => Surroundings.hasClass_after noClass)
    constructor
    · rintro ⟨⟨types, free⟩, clean⟩
      exact ⟨free, types, (inside free).mp clean⟩
    · rintro ⟨free, types, orderly⟩
      exact ⟨⟨types, free⟩, (inside free).mpr orderly⟩
  | .cls c, _, _, noClass, _ => absurd rfl (noClass c)

/-- The types of parameters and result are not read with the routine, but with its name. -/
theorem routine_scopeErrors : (r : Routine) → (ctx : Context) → (s : Surroundings) →
    ctx.Mirrors s →
      (routineScopeErrors ctx r = [] ↔
        Orderly s.globals (nestedRoutines r) (allDeclaredTypes r.locals) (routinePlaces s r))
  | ⟨line, name, ret, params, locals, body⟩, ctx, s, mirrors => by
    have opens : (ctx.scopes.enter {}).paramErrors 1 params = [] ↔
        Roles.Fresh (params.map Param.named) [] :=
      (Scopes.paramErrors_eq_nil Table.shows_empty 1 params).1
    have types : allDeclaredTypes locals = allDeclaredTypes locals ++ [] := (List.append_nil _).symm
    rw [routineScopeErrors, List.append_eq_nil_iff, List.append_eq_nil_iff, opens, nestedRoutines,
      routinePlaces, types, orderly_append, orderly_exprs, List.forall_mem_singleton,
      routine_wellScoped]
    have inside (fresh : Roles.Fresh (params.map Param.named) []) :
        (ctx.inRoutine params).Mirrors (s.inRoutine ⟨line, name, ret, params, locals, body⟩) :=
      mirrors.inRoutine ⟨line, name, ret, params, locals, body⟩ fresh
    constructor
    · rintro ⟨⟨fresh, clean⟩, silent⟩
      obtain ⟨⟨freshLocals, noClass⟩, orderly⟩ :=
        (locals_scopeErrors locals _ _ (inside fresh) (List.cons_ne_nil _ _)).mp clean
      have after := (inside fresh).foldl freshLocals noClass
      exact ⟨orderly, ⟨fresh, freshLocals, noClass⟩, (Expr.scopeErrors_eq_nil after body).mp silent⟩
    · rintro ⟨orderly, ⟨fresh, freshLocals, noClass⟩, inScope⟩
      have clean := (locals_scopeErrors locals _ _ (inside fresh) (List.cons_ne_nil _ _)).mpr
        ⟨⟨freshLocals, noClass⟩, orderly⟩
      have after := (inside fresh).foldl freshLocals noClass
      exact ⟨⟨fresh, clean⟩, (Expr.scopeErrors_eq_nil after body).mpr inScope⟩

theorem locals_scopeErrors : (ds : List Decl) → (ctx : Context) → (s : Surroundings) →
    ctx.Mirrors s → s.inner ≠ [] →
      (allScopeErrors ctx ds = [] ↔
        (Roles.Fresh (ds.map named) s.here ∧ ∀ c, .cls c ∉ ds) ∧
          Orderly s.globals (allRoutines ds) (allDeclaredTypes ds) (allPlaces s ds))
  | [], ctx, s, _, _ =>
    iff_of_true rfl ⟨⟨Roles.fresh_nil _, fun _ => List.not_mem_nil⟩, orderly_nil⟩
  | d :: ds, ctx, s, mirrors, inner => by
    rw [allScopeErrors, List.append_eq_nil_iff, allRoutines, allDeclaredTypes, allPlaces,
      orderly_append, List.map_cons, Roles.fresh_cons fun _ => Surroundings.mem_here_after]
    have rest (free : d.named.1 ∉ s.here) (noClass : ∀ c, d ≠ .cls c) :=
      locals_scopeErrors ds _ _ (mirrors.after free noClass) (Surroundings.inner_after inner)
    rw [Surroundings.globals_after_inner inner] at rest
    constructor
    · rintro ⟨head, tail⟩
      have noClass : ∀ c, d ≠ .cls c := fun c same =>
        nested_scopeErrors mirrors inner c (same ▸ head)
      obtain ⟨free, orderly⟩ := (plain_scopeErrors d ctx s noClass mirrors).mp head
      obtain ⟨⟨fresh, others⟩, orderlyRest⟩ := (rest free noClass).mp tail
      refine ⟨⟨⟨free, fresh⟩, fun c listed => ?_⟩, orderly, orderlyRest⟩
      rcases List.mem_cons.mp listed with same | later
      · exact noClass c same.symm
      · exact others c later
    · rintro ⟨⟨⟨free, fresh⟩, others⟩, orderly, orderlyRest⟩
      have noClass : ∀ c, d ≠ .cls c := fun c same => others c (same ▸ List.mem_cons_self)
      exact ⟨(plain_scopeErrors d ctx s noClass mirrors).mpr ⟨free, orderly⟩,
        (rest free noClass).mpr
          ⟨⟨fresh, fun c listed => others c (List.mem_cons_of_mem _ listed)⟩, orderlyRest⟩⟩

end

end Decl

/-! Classes, and whole programs. -/

namespace Context.Mirrors

variable {ctx : Context} {earlier : List Decl} {c : ClassDecl}

theorem lookupGlobal_declare (mirrors : ctx.Mirrors ⟨earlier, []⟩)
    (free : name ∉ Surroundings.here ⟨earlier, []⟩) (b : Binding) :
    (ctx.scopes.declare name b).lookupGlobal name = some b := by
  have shown : List.Forall₂ Table.Shows ctx.scopes.tables [earlier.map Decl.named] := mirrors.scopes
  obtain ⟨⟨tables⟩, classes, inheritance, nextOffset⟩ := ctx
  obtain _ | ⟨head, _ | _⟩ := shown
  rw [Scopes.declare_cons, if_pos (head.find?_eq_none.mpr free), Scopes.lookupGlobal_singleton,
    Table.find?_insert_self]

theorem declareClass (mirrors : ctx.Mirrors ⟨earlier, []⟩)
    (free : c.name ∉ Surroundings.here ⟨earlier, []⟩)
    (shows : (ctx.members c).table.Shows (Decl.membersOf c.name (.cls c :: earlier))) :
    (ctx.declareClass c).Mirrors ⟨.cls c :: earlier, []⟩ := by
  have other {name : String} (declared : Decl.HasClass name earlier) : name ≠ c.name := by
    rintro rfl
    obtain ⟨d, listed, called⟩ := declared
    exact free (List.mem_map.mpr ⟨_, List.mem_map_of_mem listed, called⟩)
  have new : ctx.inheritance.contains c.name = false := by
    rw [← Bool.not_eq_true, mirrors.recorded]
    exact fun declared => other declared rfl
  have scopes : List.Forall₂ Table.Shows (ctx.declareClass c).scopes.tables
      (Surroundings.scopes ⟨.cls c :: earlier, []⟩) :=
    mirrors.scopes_declare (d := .cls c) free rfl
  refine ⟨scopes, mirrors.recorded_with c, fun name table found => ?_, fun name declared => ?_⟩
  · rw [Decl.hasClass_cls]
    rcases find?_declareClass found with old | ⟨same, _⟩
    · exact .inr (mirrors.tabled name table old)
    · exact .inl same
  · by_cases same : name = c.name
    · subst same
      exact ⟨_, _, ⟨find?_declareClass_self new, ctx.classBinding c,
        mirrors.lookupGlobal_declare free _, rfl⟩, shows⟩
    · obtain ⟨layout, table, ⟨listed, b, bound, shape⟩, members⟩ :=
        mirrors.classes name ((Decl.hasClass_cls.mp declared).resolve_left same)
      refine ⟨layout, table, ⟨?_, b, Scopes.lookupGlobal_declare bound, shape⟩, ?_⟩
      · rw [classes_declareClass new, Table.find?_insert_of_ne _ same, listed]
      · rwa [Decl.membersOf, if_neg (Ne.symm same)]

theorem inClass (mirrors : ctx.Mirrors ⟨earlier, []⟩)
    (free : c.name ∉ Surroundings.here ⟨earlier, []⟩)
    (shows : (ctx.members c).table.Shows (Decl.membersOf c.name (.cls c :: earlier))) :
    (ctx.inClass c).Mirrors (Surroundings.inClass ⟨earlier, []⟩ c) :=
  (mirrors.declareClass free shows).enter shows rfl rfl rfl

end Context.Mirrors

namespace Decl

variable {ctx : Context} {s : Surroundings} {earlier : List Decl}

theorem methods_scopeErrors (mirrors : ctx.Mirrors s) (methods : List Method) :
    (∀ method ∈ methods, ∀ ty ∈ method.routine.ret :: method.routine.params.map Param.ty,
        ∀ name ∈ ty.classNames, HasClass name s.globals) ∧ methodsScopeErrors ctx methods = [] ↔
      Orderly s.globals (methodRoutines methods) (methodsDeclaredTypes methods)
        (methodPlaces s methods) := by
  induction methods with
  | nil =>
    refine iff_of_true ⟨?_, rfl⟩ orderly_nil
    exact fun _ listed => nomatch listed
  | cons method methods ih =>
    obtain ⟨routine, offset⟩ := method
    rw [methodsScopeErrors, methodRoutines, methodsDeclaredTypes, methodPlaces, orderly_append,
      List.append_eq_nil_iff, List.forall_mem_cons, routineDeclaredTypes_eq, orderly_types,
      ← routine_scopeErrors routine ctx s mirrors, ← ih]
    exact and_and_and_comm

theorem orderly_cls {ds : List Decl} (c : ClassDecl) :
    Orderly ds (Decl.cls c).routines (Decl.cls c).declaredTypes ((Decl.cls c).places s) ↔
      (∀ f ∈ c.fields, ∀ name ∈ f.ty.classNames, HasClass name ds) ∧
        Orderly ds (methodRoutines c.methods) (methodsDeclaredTypes c.methods)
          (methodPlaces (s.inClass c) c.methods) := by
  obtain ⟨line, name, parent, fields, methods, binding, parentBinding⟩ := c
  rw [routines, declaredTypes, places, orderly_types, List.forall_mem_map]

theorem class_scopeErrors (mirrors : ctx.Mirrors ⟨earlier, []⟩) {c : ClassDecl}
    (plain : Plain (Decl.cls c).declaredTypes) :
    (Decl.cls c).scopeErrors ctx = [] ↔
      c.name ∉ Surroundings.here ⟨earlier, []⟩ ∧ (Decl.cls c).WellScoped earlier := by
  have isField : ∀ f ∈ c.fields, f.ty.isMethod = false := fun f listed =>
    Ty.isMethod_of_isPlain ((types_cls plain).1 f listed)
  obtain ⟨accepts, shows⟩ := ClassDecl.headerErrors_eq_nil mirrors isField
  have methods (clean : c.headerErrors ctx = []) :=
    methods_scopeErrors (mirrors.inClass (accepts.mp clean).1 (shows clean)) c.methods
  rw [scopeErrors_cls (mirrors.isGlobal_iff.mpr rfl), List.append_eq_nil_iff]
  constructor
  · rintro ⟨clean, silent⟩
    obtain ⟨free, header, fieldTypes, methodTypes⟩ := accepts.mp clean
    have inside := (methods clean).mp ⟨methodTypes, silent⟩
    refine ⟨free, ?_, fun c' same => by cases same; exact header⟩
    exact (orderly_cls c).mpr ⟨fieldTypes, inside⟩
  · rintro ⟨free, inside, header⟩
    obtain ⟨fieldTypes, orderly⟩ := (orderly_cls c).mp inside
    have methodTypes : ∀ method ∈ c.methods,
        ∀ ty ∈ method.routine.ret :: method.routine.params.map Param.ty, ∀ name ∈ ty.classNames,
          HasClass name (.cls c :: earlier) := by
      intro method listed ty among
      refine types_methods orderly.types method listed ty ?_
      rw [routineDeclaredTypes_eq]
      exact List.mem_append_left _ among
    have clean := accepts.mpr ⟨free, header c rfl, fieldTypes, methodTypes⟩
    exact ⟨clean, ((methods clean).mpr orderly).2⟩

/-- A global declaration is accepted exactly if its name is new and it keeps the rules, and then the
context after it mirrors the surroundings again. -/
theorem global_scopeErrors (mirrors : ctx.Mirrors ⟨earlier, []⟩) {d : Decl}
    (plain : Plain d.declaredTypes) :
    (d.scopeErrors ctx = [] ↔
        d.named.1 ∉ Surroundings.here ⟨earlier, []⟩ ∧ d.WellScoped earlier) ∧
      (d.scopeErrors ctx = [] → (ctx.after d).Mirrors ⟨d :: earlier, []⟩) := by
  have unlessClass (noClass : ∀ c, d ≠ .cls c) :
      (d.scopeErrors ctx = [] ↔
          d.named.1 ∉ Surroundings.here ⟨earlier, []⟩ ∧ d.WellScoped earlier) ∧
        (d.scopeErrors ctx = [] → (ctx.after d).Mirrors ⟨d :: earlier, []⟩) := by
    have accepts := plain_scopeErrors d ctx ⟨earlier, []⟩ noClass mirrors
    refine ⟨accepts.trans (and_congr_right fun _ => ?_), fun clean => ?_⟩
    · rw [orderly_congr fun _ => (hasClass_cons noClass).symm]
      exact ⟨fun inside => ⟨inside, fun c same => absurd same (noClass c)⟩,
        fun wellScoped => wellScoped.inside⟩
    · exact mirrors.after (accepts.mp clean).1 noClass
  cases d with
  | var decl => exact unlessClass nofun
  | fn routine => exact unlessClass nofun
  | cls c =>
    have global := mirrors.isGlobal_iff.mpr rfl
    have isField : ∀ f ∈ c.fields, f.ty.isMethod = false := fun f listed =>
      Ty.isMethod_of_isPlain ((types_cls plain).1 f listed)
    refine ⟨class_scopeErrors mirrors plain, fun clean => ?_⟩
    obtain ⟨accepts, shows⟩ := ClassDecl.headerErrors_eq_nil mirrors isField
    rw [scopeErrors_cls global, List.append_eq_nil_iff] at clean
    rw [Context.after, if_pos global]
    exact mirrors.declareClass (accepts.mp clean.1).1 (shows clean.1)

theorem forall_split_cons {P : List Decl → Decl → Prop} {d : Decl} {ds : List Decl} :
    (∀ before e after, d :: ds = before ++ e :: after → P before e) ↔
      P [] d ∧ ∀ before e after, ds = before ++ e :: after → P (d :: before) e := by
  constructor
  · intro all
    exact ⟨all [] d ds rfl, fun before e after split =>
      all (d :: before) e after (by rw [split, List.cons_append])⟩
  · rintro ⟨head, tail⟩ before e after split
    cases before with
    | nil =>
      cases split
      exact head
    | cons first before =>
      cases split
      exact tail before e after rfl

theorem globals_scopeErrors (mirrors : ctx.Mirrors ⟨earlier, []⟩) {ds : List Decl}
    (plain : Plain (allDeclaredTypes ds)) :
    (allScopeErrors ctx ds = [] ↔
        Roles.Fresh (ds.map named) (Surroundings.here ⟨earlier, []⟩) ∧
          ∀ before d after, ds = before ++ d :: after →
            d.WellScoped (before.reverse ++ earlier)) ∧
      (allScopeErrors ctx ds = [] →
        (ds.foldl Context.after ctx).Mirrors ⟨ds.reverse ++ earlier, []⟩) := by
  induction ds generalizing ctx earlier with
  | nil =>
    refine ⟨iff_of_true rfl ⟨Roles.fresh_nil _, ?_⟩, fun _ => mirrors⟩
    intro before d after split
    simp at split
  | cons d ds ih =>
    obtain ⟨plainHead, plainTail⟩ := types_cons plain
    obtain ⟨accepts, next⟩ := global_scopeErrors mirrors plainHead
    have rest (clean : d.scopeErrors ctx = []) := ih (next clean) plainTail
    have grows (other : String) : other ∈ Surroundings.here ⟨d :: earlier, []⟩ ↔
        other = d.named.1 ∨ other ∈ Surroundings.here ⟨earlier, []⟩ :=
      Surroundings.mem_here_after (s := ⟨earlier, []⟩)
    rw [allScopeErrors, List.append_eq_nil_iff, List.map_cons, Roles.fresh_cons grows,
      forall_split_cons]
    simp only [List.reverse_cons, List.append_assoc, List.singleton_append, List.reverse_nil,
      List.nil_append]
    constructor
    · constructor
      · rintro ⟨head, tail⟩
        obtain ⟨free, wellScoped⟩ := accepts.mp head
        obtain ⟨fresh, others⟩ := (rest head).1.mp tail
        exact ⟨⟨free, fresh⟩, wellScoped, others⟩
      · rintro ⟨⟨free, fresh⟩, wellScoped, others⟩
        have head := accepts.mpr ⟨free, wellScoped⟩
        exact ⟨head, (rest head).1.mpr ⟨fresh, others⟩⟩
    · rintro ⟨head, tail⟩
      exact (rest head).2 tail

end Decl

/-- Scope resolution reports nothing exactly if the program keeps the scope rules. -/
theorem Program.accepted_iff_wellScoped (p : Program)
    (plain : ∀ ty ∈ p.declaredTypes, ty.isPlain = true) :
    p.resolve.errors = [] ↔ p.WellScoped := by
  obtain ⟨accepts, mirrors⟩ := Decl.globals_scopeErrors Context.mirrors_initial plain
  rw [Program.resolve, List.append_eq_nil_iff]
  constructor
  · rintro ⟨clean, silent⟩
    obtain ⟨⟨distinct, _⟩, decls⟩ := accepts.mp clean
    have after := mirrors clean
    simp only [List.append_nil] at decls after
    exact ⟨distinct, decls, (Expr.scopeErrors_eq_nil after p.body).mp silent⟩
  · rintro ⟨distinct, decls, body⟩
    have clean := accepts.mpr ⟨⟨distinct, fun _ _ => List.not_mem_nil⟩, by simpa using decls⟩
    have after := mirrors clean
    simp only [List.append_nil] at after
    exact ⟨clean, (Expr.scopeErrors_eq_nil after p.body).mpr body⟩

def Program.chain (more : List Decl) : Program where
  decls := [
    .cls ⟨1, "A", none, [⟨1, "next", .ref "A", 0⟩, ⟨1, "n", .int, 0⟩],
      [⟨⟨2, "last", .int, [⟨2, "a", .ref "A"⟩],
        [.fn ⟨3, "go", .int, [⟨3, "b", .ref "A"⟩], [], .get 3 ⟨"b", none⟩ "n" none⟩],
        .call 4 ⟨"go", none⟩ [.id 4 ⟨"next", none⟩]⟩, 0⟩], none, none⟩,
    .cls ⟨5, "B", some "A", [⟨5, "next", .ref "B", 0⟩],
      [⟨⟨6, "twin", .ref "B", [], [],
        .new 6 "B" [.id 6 ⟨"next", none⟩, .id 6 ⟨"n", none⟩] none⟩, 0⟩], none, none⟩,
    .var ⟨7, "b", .ref "B", .null 7⟩] ++ more
  body := .send 8 ⟨"b", none⟩ "last" [.id 8 ⟨"b", none⟩] none

theorem Program.accepted_iff_wellScoped_chain :
    (chain []).WellScoped ∧
      ¬ (chain [.cls ⟨9, "C", some "B", [], [⟨⟨9, "n", .int, [], [], .int 9 1⟩, 0⟩],
        none, none⟩]).WellScoped := by
  constructor
  · exact ((chain []).accepted_iff_wellScoped (by decide)).mp (by decide +kernel)
  · rw [← accepted_iff_wellScoped _ (by decide)]
    decide +kernel

end ObjectLang
