import ObjectLang.Proofs.Scope.Acceptance
import ObjectLang.Proofs.Scope.Creations
import ObjectLang.Proofs.Scope.Levels
import ObjectLang.Proofs.Scope.Walk

/-!
The walk over a program comes to what resolution says, and levels are kept along it. Each visit is
described once, by what it comes to and by the levels at the points on its way; the visits of a tree
are put together from those of its parts.
-/
namespace ObjectLang

open Visit

theorem Scopes.declare?_cases {s : Scopes} (opened : s.tables ≠ []) (name : String) (b : Binding) :
    (s.declaresHere name = false ∧ s.declare? name b = .ok (s.declare name b)) ∨
      (s.declaresHere name = true ∧ s.declare name b = s ∧
        ∃ existing, s.declare? name b = .error existing) := by
  obtain ⟨tables⟩ := s
  cases tables with
  | nil => exact absurd rfl opened
  | cons table rest =>
    cases known : table.find? name <;>
      simp [declaresHere, Table.contains, declare, declare?, known]

namespace Visit

variable {α β : Type} {ctx mid after : Context} {a : α} {b : β} {found more : List ScopeError}

/-- From this context the visit comes to the value, the context and the errors. If the context is
leveled, so is the context at each point on the way and at the end. -/
structure Performs (visit : Visit α) (ctx : Context) (value : α) (after : Context)
    (errors : List ScopeError) : Prop where
  value : (visit ctx).value = value
  context : (visit ctx).context = after
  errors : (visit ctx).errors = errors
  leveled : ctx.Leveled → after.Leveled ∧ ∀ point ∈ (visit ctx).points, point.Leveled

theorem Performs.bind {first : Visit α} {next : α → Visit β}
    (start : first.Performs ctx a mid found) (rest : (next a).Performs mid b after more) :
    (first >>= next).Performs ctx b after (found ++ more) := by
  obtain ⟨rfl, rfl, rfl, before⟩ := start
  obtain ⟨rfl, rfl, rfl, beyond⟩ := rest
  refine ⟨rfl, rfl, rfl, ?_⟩
  intro leveled
  obtain ⟨midway, firstPoints⟩ := before leveled
  obtain ⟨last, otherPoints⟩ := beyond midway
  refine ⟨last, ?_⟩
  intro point passed
  rcases List.mem_append.mp passed with passed | passed
  · exact firstPoints point passed
  · exact otherPoints point passed

theorem Performs.bind_quiet {first : Visit α} {next : α → Visit β}
    (start : first.Performs ctx a mid found) (rest : (next a).Performs mid b after []) :
    (first >>= next).Performs ctx b after found := by
  have whole := start.bind rest
  rwa [List.append_nil] at whole

theorem performs_of_apply {visit : Visit α} (stays : visit ctx = ⟨a, ctx, found, []⟩) :
    visit.Performs ctx a ctx found := by
  refine ⟨?_, ?_, ?_, ?_⟩
  · rw [stays]
  · rw [stays]
  · rw [stays]
  · rw [stays]
    exact fun leveled => ⟨leveled, nofun⟩

theorem performs_pure : (pure a : Visit α).Performs ctx a ctx [] := performs_of_apply rfl

theorem performs_here : here.Performs ctx ctx ctx [] := performs_of_apply rfl

theorem performs_report : (report found).Performs ctx () ctx found := performs_of_apply rfl

theorem performs_checkType {ty : Ty} {line : Line} :
    (checkType ty line).Performs ctx () ctx (ty.scopeErrors ctx.inheritance line) :=
  performs_of_apply rfl

theorem Performs.returning {first : Visit α} (done : first.Performs ctx a after found)
    (f : α → β) : (first >>= fun a => pure (f a)).Performs ctx (f a) after found :=
  done.bind_quiet performs_pure

theorem performs_move (keeps : ctx.Leveled → after.Leveled) :
    (move after).Performs ctx () after [] where
  value := rfl
  context := rfl
  errors := rfl
  leveled := by
    intro leveled
    refine ⟨keeps leveled, ?_⟩
    intro point passed
    exact List.mem_singleton.mp passed ▸ keeps leveled

theorem performs_enter {table : Table Binding}
    (inside : ctx.Leveled → table.AtLevel ctx.scopes.tables.length) :
    (enter table).Performs ctx () { ctx with scopes := ctx.scopes.enter table } [] := by
  refine performs_here.bind (performs_move ?_)
  intro leveled
  exact ⟨leveled.scopes.enter (inside leveled), leveled.classes⟩

theorem performs_leave {outer : Scopes} {table : Table Binding}
    (entered : ctx.scopes = outer.enter table) :
    leave.Performs ctx () { ctx with scopes := outer } [] := by
  refine performs_here.bind ?_
  rw [entered]
  refine performs_move ?_
  intro leveled
  have scopes := leveled.scopes
  rw [entered] at scopes
  exact ⟨scopes.of_enter, leveled.classes⟩

theorem performs_setOffset {offset : Word} :
    (setOffset offset).Performs ctx () { ctx with nextOffset := offset } [] :=
  performs_here.bind (performs_move fun leveled => ⟨leveled.scopes, leveled.classes⟩)

theorem performs_takeOffset :
    takeOffset.Performs ctx ctx.nextOffset { ctx with nextOffset := ctx.nextOffset - 1 } [] :=
  performs_here.bind (performs_setOffset.bind performs_pure)

theorem performs_declare (opened : ctx.scopes.tables ≠ []) (kind : NameKind) (name : String)
    (ty : Ty) (offset : Word) (line : Line) :
    (declare kind name ty offset line).Performs ctx ()
      { ctx with scopes := ctx.scopes.declare name ⟨ctx.scopes.level, ty, offset⟩ }
      (if ctx.scopes.declaresHere name then [.duplicate kind name line] else []) := by
  refine performs_here.bind ?_
  rcases ctx.scopes.declare?_cases opened name ⟨ctx.scopes.level, ty, offset⟩ with
    ⟨free, done⟩ | ⟨taken, same, existing, failed⟩
  · rw [done, free]
    refine performs_move ?_
    intro leveled
    exact ⟨leveled.scopes.declare rfl, leveled.classes⟩
  · rw [failed, taken, same]
    exact performs_report

theorem performs_declareNext (opened : ctx.scopes.tables ≠ []) (kind : NameKind) (name : String)
    (ty : Ty) (line : Line) :
    (declareNext kind name ty line).Performs ctx () (ctx.declare name ty)
      (if ctx.scopes.declaresHere name then [.duplicate kind name line] else []) := by
  have taken : { ctx with nextOffset := ctx.nextOffset - 1 }.scopes.tables ≠ [] := opened
  exact performs_takeOffset.bind (performs_declare taken kind name ty ctx.nextOffset line)

theorem performs_declareParams (params : List Param) {ctx : Context} {offset : Word}
    (opened : ctx.scopes.tables ≠ []) :
    (declareParams offset params).Performs ctx ()
      { ctx with scopes := ctx.scopes.declareParams offset params }
      (ctx.scopes.paramErrors offset params) := by
  induction params generalizing ctx offset with
  | nil => exact performs_pure
  | cons p params ih =>
    refine (performs_declare opened .param p.name p.ty offset p.line).bind (ih ?_)
    rwa [← List.length_pos_iff, Scopes.length_declare, List.length_pos_iff]

theorem performs_recordClass {name : String} {table : Table Binding}
    (inside : ctx.Leveled → table.AtLevel 1) :
    (recordClass name table).Performs ctx ()
      { ctx with classes := ctx.classes.insert name table } [] := by
  refine performs_here.bind (performs_move ?_)
  intro leveled
  refine ⟨leveled.scopes, ?_⟩
  intro other known listed
  rcases Table.find?_insert_eq_some.mp listed with ⟨_, rfl⟩ | ⟨_, old⟩
  · exact inside leveled
  · exact leveled.classes other known old

end Visit

theorem Expr.visit_performs (e : Expr) (ctx : Context) :
    e.visit.Performs ctx (e.resolve ctx) ctx (e.scopeErrors ctx) :=
  performs_of_apply (visit_apply ctx e)

namespace Context

variable {ctx : Context}

def inScope (ctx : Context) (table : Table Binding) (offset : Word) : Context :=
  { ctx with scopes := ctx.scopes.enter table, nextOffset := offset }

theorem after_inScope (opened : ctx.scopes.tables ≠ []) (table : Table Binding) (offset : Word)
    (d : Decl) :
    ∃ table' offset', (ctx.inScope table offset).after d = ctx.inScope table' offset' := by
  have deep : (ctx.inScope table offset).isGlobal = false := by
    have := List.length_pos_iff.mpr opened
    simp only [isGlobal, inScope, Scopes.level, Scopes.tables_enter, List.length_cons,
      beq_eq_false_iff_ne]
    omega
  have declared : ∀ name ty, ∃ table' offset',
      (ctx.inScope table offset).declare name ty = ctx.inScope table' offset' := by
    intro name ty
    rw [declare, inScope, Scopes.enter, Scopes.declare_cons]
    exact ⟨_, _, rfl⟩
  cases d with
  | var decl => exact declared decl.name decl.ty
  | fn routine => exact declared routine.name (.arrow routine.signature)
  | cls c =>
    rw [after, deep]
    exact ⟨table, offset, rfl⟩

theorem foldl_inScope (opened : ctx.scopes.tables ≠ []) (table : Table Binding) (offset : Word)
    (ds : List Decl) :
    ∃ table' offset', ds.foldl after (ctx.inScope table offset) = ctx.inScope table' offset' := by
  induction ds generalizing table offset with
  | nil => exact ⟨table, offset, rfl⟩
  | cons d ds ih =>
    obtain ⟨next, count, step⟩ := after_inScope opened table offset d
    rw [List.foldl_cons, step]
    exact ih next count

theorem inRoutine_eq_inScope (ctx : Context) (params : List Param) :
    ∃ table, ctx.inRoutine params = ctx.inScope table firstOffset := by
  have entered : ∀ (table : Table Binding) (offset : Word), ∃ table',
      (ctx.scopes.enter table).declareParams offset params = ctx.scopes.enter table' := by
    induction params with
    | nil => exact fun table _ => ⟨table, rfl⟩
    | cons p params ih =>
      intro table offset
      rw [Scopes.declareParams, Scopes.enter, Scopes.declare_cons]
      exact ih _ _
  obtain ⟨table, same⟩ := entered {} 1
  exact ⟨table, by rw [inRoutine, same, inScope]⟩

theorem foldl_inRoutine (opened : ctx.scopes.tables ≠ []) (params : List Param)
    (locals : List Decl) :
    ∃ table offset, locals.foldl after (ctx.inRoutine params) = ctx.inScope table offset := by
  obtain ⟨table, same⟩ := ctx.inRoutine_eq_inScope params
  rw [same]
  exact foldl_inScope opened table firstOffset locals

theorem Leveled.members_of_declareClass {c : ClassDecl} (leveled : (ctx.declareClass c).Leveled) :
    (ctx.members c).table.AtLevel 1 := by
  cases known : ctx.inheritance.contains c.name with
  | true => exact ctx.members_atLevel ((declareClass_known known).1 ▸ leveled.classes) c
  | false => exact leveled.classes c.name _ (find?_declareClass_self known)

theorem length_of_isGlobal (opened : ctx.scopes.tables ≠ []) (global : ctx.isGlobal = true) :
    ctx.scopes.tables.length = 1 := by
  have := List.length_pos_iff.mpr opened
  rw [isGlobal, Scopes.level, beq_iff_eq] at global
  omega

end Context

theorem ClassDecl.visitHeader_performs (c : ClassDecl) {ctx : Context}
    (opened : ctx.scopes.tables ≠ []) :
    c.visitHeader.Performs ctx () (ctx.declareClass c) (c.headerErrors ctx) := by
  have counted : { ctx with
      inheritance := ctx.inheritanceWith c
      nextOffset := ctx.nextOffset - 1 }.scopes.tables ≠ [] := opened
  have recorded : (if ctx.inheritance.contains c.name then pure ()
      else recordClass c.name (ctx.members c).table).Performs
        { ctx.declareClass c with classes := ctx.classes } () (ctx.declareClass c) [] := by
    rw [Context.declareClass]
    split
    · exact performs_pure
    · refine performs_recordClass ?_
      intro leveled
      exact ctx.members_atLevel leveled.classes c
  have inherits : ctx.Leveled → { ctx with inheritance := ctx.inheritanceWith c }.Leveled :=
    fun leveled => ⟨leveled.scopes, leveled.classes⟩
  have declared := performs_declare counted .cls c.name (.cls (ctx.members c).layout)
    ctx.nextOffset c.line
  rw [visitHeader, headerErrors, List.append_assoc, List.append_assoc]
  exact performs_here.bind (performs_report.bind ((performs_move inherits).bind
    (performs_takeOffset.bind (performs_report.bind (performs_report.bind
      (declared.bind_quiet recorded))))))

/-- A class is visited if its methods are: they are walked in the class scope, which is left again
afterwards. -/
theorem ClassDecl.visit_performs (c : ClassDecl) {ctx : Context} (opened : ctx.scopes.tables ≠ [])
    (global : ctx.isGlobal = true) {visitMethods : Members → Visit (List Method)}
    (methods : (visitMethods ((ctx.inherited c).addFields c.fields)).Performs (ctx.inClass c)
      (c.resolve ctx).methods (ctx.inClass c)
      (Decl.methodsScopeErrors (ctx.inClass c) c.methods)) :
    (c.visit visitMethods).Performs ctx (c.resolve ctx) (ctx.declareClass c)
      (c.headerErrors ctx ++ Decl.methodsScopeErrors (ctx.inClass c) c.methods) := by
  have inside : (ctx.declareClass c).Leveled →
      (ctx.members c).table.AtLevel (ctx.declareClass c).scopes.tables.length := by
    -- Members are at level 1, also the inherited ones, and only the global scope is open here.
    intro leveled
    have single : (ctx.declareClass c).scopes.tables.length = 1 :=
      Scopes.length_declare.trans (Context.length_of_isGlobal opened global)
    rw [single]
    exact leveled.members_of_declareClass
  exact performs_here.bind ((c.visitHeader_performs opened).bind
    ((performs_enter inside).bind (methods.bind_quiet ((performs_leave rfl).returning _))))

namespace Decl

mutual

theorem visit_performs : (d : Decl) → ∀ {ctx : Context}, ctx.scopes.tables ≠ [] →
    d.visit.Performs ctx (d.resolve ctx) (ctx.after d) (d.scopeErrors ctx)
  | .var ⟨line, name, ty, init⟩, ctx => by
    intro opened
    rw [visit, resolve, scopeErrors, List.append_assoc]
    exact (init.visit_performs ctx).bind (performs_checkType.bind
      ((performs_declareNext opened .var name ty line).returning _))
  | .fn routine, ctx => by
    intro opened
    rw [visit, resolve, scopeErrors, List.append_assoc]
    exact performs_checkType.bind ((performs_declareNext opened .fn _ _ routine.line).bind
      ((visitRoutine_performs routine (Context.opened_after opened (.fn routine))).returning _))
  | .cls ⟨line, name, parent, fields, methods, binding, parentBinding⟩, ctx => by
    intro opened
    cases place : ctx.isGlobal with
    | false =>
      rw [visit, Context.after, place]
      simp only [resolve, scopeErrors, place]
      refine performs_here.bind ?_
      rw [place]
      exact performs_report.returning _
    | true =>
      rw [resolve_cls place, scopeErrors_cls place, Context.after, if_pos place, visit]
      refine performs_here.bind ?_
      rw [if_pos place]
      refine (ClassDecl.visit_performs _ opened place ?_).returning _
      exact visitMethods_performs methods (List.cons_ne_nil _ _)

theorem visitRoutine_performs : (r : Routine) → ∀ {ctx : Context}, ctx.scopes.tables ≠ [] →
    (visitRoutine r).Performs ctx (resolveRoutine ctx r) ctx (routineScopeErrors ctx r)
  | ⟨line, name, ret, params, locals, body⟩, ctx => by
    intro opened
    rw [visitRoutine, resolveRoutine, routineScopeErrors, List.append_assoc]
    have inside : (ctx.inRoutine params).scopes.tables ≠ [] := Context.opened_inRoutine params
    -- Closing the scope undoes all that the locals did but for the counter, which is set back last.
    obtain ⟨table, offset, inner⟩ := ctx.foldl_inRoutine opened params locals
    have back : leave.Performs (locals.foldl Context.after (ctx.inRoutine params)) ()
        { ctx with nextOffset := offset } [] := by
      rw [inner]
      exact performs_leave rfl
    exact (performs_enter fun _ => Table.every_empty).bind (performs_here.bind
      (performs_setOffset.bind ((performs_declareParams params (List.cons_ne_nil _ _)).bind
        ((visitAll_performs locals inside).bind ((body.visit_performs _).bind_quiet
          (back.bind (performs_setOffset.returning _)))))))

theorem visitMethods_performs : (methods : List Method) → ∀ {ctx : Context} {m : Members},
    ctx.scopes.tables ≠ [] →
    (visitMethods m methods).Performs ctx (resolveMethods ctx m methods) ctx
      (methodsScopeErrors ctx methods)
  | [], _, _ => fun _ => performs_pure
  | ⟨routine, _⟩ :: methods, ctx, m => by
    intro opened
    rw [visitMethods, resolveMethods, methodsScopeErrors]
    exact (visitRoutine_performs routine opened).bind
      ((visitMethods_performs methods opened).returning _)

theorem visitAll_performs : (ds : List Decl) → ∀ {ctx : Context}, ctx.scopes.tables ≠ [] →
    (visitAll ds).Performs ctx (resolveAll ctx ds) (ds.foldl Context.after ctx)
      (allScopeErrors ctx ds)
  | [], _ => fun _ => performs_pure
  | d :: ds, ctx => by
    intro opened
    rw [visitAll, resolveAll, allScopeErrors]
    exact (visit_performs d opened).bind
      ((visitAll_performs ds (Context.opened_after opened d)).returning _)

end

end Decl

def Decl.isNested (ctx : Context) : Decl → Bool
  | .cls _ => !ctx.isGlobal
  | _ => false

/-- What a declaration may change of the scopes and the count of offsets: it adds its name to the
innermost scope or adds nothing, and takes one offset. A nested class changes nothing. -/
structure Context.AddsAtMost (d : Decl) (before after : Context) : Prop where
  scopes : after.scopes = before.scopes ∨ ∃ table rest b,
    before.scopes.tables = table :: rest ∧ table.find? d.named.1 = none ∧ b.level = rest.length ∧
      after.scopes.tables = table.insert d.named.1 b :: rest
  offset : after.nextOffset =
    if d.isNested before then before.nextOffset else before.nextOffset - 1
  nested : d.isNested before = true → after = before

namespace Scopes

variable {s : Scopes} {name : String} {b : Binding}

theorem declare_addsAtMost (level : b.level = s.level) :
    s.declare name b = s ∨ ∃ table rest b', s.tables = table :: rest ∧ table.find? name = none ∧
      b'.level = rest.length ∧ (s.declare name b).tables = table.insert name b' :: rest := by
  obtain ⟨tables⟩ := s
  cases tables with
  | nil => exact .inl rfl
  | cons table rest =>
    rw [declare_cons]
    split
    · rename_i free
      exact .inr ⟨table, rest, b, rfl, free, level, rfl⟩
    · exact .inl rfl

end Scopes

theorem Context.after_addsAtMost (ctx : Context) (d : Decl) : ctx.AddsAtMost d (ctx.after d) := by
  cases d with
  | var decl => exact ⟨Scopes.declare_addsAtMost rfl, rfl, nofun⟩
  | fn routine => exact ⟨Scopes.declare_addsAtMost rfl, rfl, nofun⟩
  | cls c =>
    cases place : ctx.isGlobal with
    | true =>
      have outer : (Decl.cls c).isNested ctx = false := by rw [Decl.isNested, place]; rfl
      rw [after, if_pos place]
      refine ⟨Scopes.declare_addsAtMost rfl, ?_, ?_⟩
      · rw [outer]
        rfl
      · rw [outer]
        exact nofun
    | false =>
      have inner : (Decl.cls c).isNested ctx = true := by rw [Decl.isNested, place]; rfl
      have same : ctx.after (.cls c) = ctx := by rw [after, place]; rfl
      rw [same]
      exact ⟨.inl rfl, by rw [inner]; rfl, fun _ => rfl⟩

namespace Program

theorem visit_performs (p : Program) :
    p.visit.Performs Context.outside p.resolve.program { p.context with scopes := {} }
      p.resolve.errors := by
  have single := (p.reads_globals p.decls.length).scopes.length_eq
  rw [List.take_length] at single
  obtain ⟨table, global⟩ := List.length_eq_one_iff.mp single
  have entered : p.context.scopes = Scopes.enter {} table := congrArg Scopes.mk global
  have back : leave.Performs p.context () { p.context with scopes := {} } [] :=
    performs_leave entered
  exact (performs_enter fun _ => Table.every_empty).bind
    ((Decl.visitAll_performs p.decls (List.cons_ne_nil _ _)).bind
      ((p.body.visit_performs p.context).bind_quiet (back.returning _)))

/-- The walk is resolution. -/
theorem walk_resolved (p : Program) : p.walk.resolved = p.resolve := by
  obtain ⟨value, context, errors, _⟩ := p.visit_performs
  rw [Visited.resolved, walk, value, context, errors]
  rfl

theorem points_leveled (p : Program) : ∀ point ∈ p.points, point.Leveled := by
  have start : Context.outside.Leveled := ⟨Scopes.leveled_empty, nofun⟩
  intro point passed
  rcases List.mem_cons.mp passed with rfl | passed
  · exact start
  · exact (p.visit_performs.leveled start).2 point passed

/-- Levels are kept along the walk that resolution is. At every point of it each scope holds only
bindings of its own level, and every class only members of level 1. An expression leaves the context
as it is. A declaration adds at most its own name to the innermost scope and takes one offset; a
nested class does neither. So where a scope around a place declares the name that is used there, the
use that resolution attaches is at least as deep as its binding, and its hops are the scopes between
the two; elsewhere nothing is attached. -/
theorem walk_keeps_levels (p : Program) :
    p.walk.resolved = p.resolve ∧
    (∀ point ∈ p.points, point.Leveled) ∧
    (∀ (e : Expr) (ctx : Context), (e.visit ctx).context = ctx) ∧
    (∀ (d : Decl) (ctx : Context), ctx.scopes.tables ≠ [] →
      ctx.AddsAtMost d (d.visit ctx).context) ∧
    ∀ site e kind i, p.expr? site = some e → e.mention? = some (kind, i) →
      ∃ e' i', p.resolve.program.expr? site = some e' ∧ e'.mention? = some (kind, i') ∧
        if (p.regions site).any (Region.declares i.name) then
          ∃ u, i'.use = some u ∧ u.binding.level ≤ u.level ∧
            u.hops = (p.regions site).findIdx (Region.declares i.name)
        else i'.use = i.use := by
  refine ⟨p.walk_resolved, p.points_leveled, ?_, ?_, fun _ _ _ _ => use_at⟩
  · intro e ctx
    rw [Expr.visit_apply]
  · intro d ctx opened
    rw [(d.visit_performs opened).context]
    exact ctx.after_addsAtMost d

def reachesInherited : Program where
  decls := [
    .cls ⟨1, "A", none, [⟨1, "x", .int, 0⟩], [], none, none⟩,
    .cls ⟨2, "B", some "A", [],
      [⟨⟨3, "m", .int, [⟨3, "y", .int⟩],
        [.fn ⟨4, "g", .int, [], [.cls ⟨5, "C", none, [], [], none, none⟩], .id 6 ⟨"x", none⟩⟩],
        .call 7 ⟨"g", none⟩ []⟩, 0⟩], none, none⟩]
  body := .id 8 ⟨"x", some ⟨⟨5, .int, 0⟩, 2⟩⟩

theorem walk_keeps_levels_reachesInherited :
    (∃ e i u, reachesInherited.resolve.program.expr? (.method 1 0 (.inside 0 (.body []))) = some e ∧
      e.mention? = some (.var, i) ∧ i.use = some u ∧ u.binding.level ≤ u.level ∧ u.hops = 2) ∧
    (∃ e i, reachesInherited.resolve.program.expr? (.main (.body [])) = some e ∧
      e.mention? = some (.var, i) ∧ i.use = some ⟨⟨5, .int, 0⟩, 2⟩) ∧
    (Context.initial.inRoutine []).scopes.tables ≠ [] ∧
    ((Decl.cls ⟨5, "C", none, [], [], none, none⟩).visit (Context.initial.inRoutine [])).context =
      Context.initial.inRoutine [] := by
  obtain ⟨_, _, _, declared, uses⟩ := reachesInherited.walk_keeps_levels
  have opened : (Context.initial.inRoutine []).scopes.tables ≠ [] := List.cons_ne_nil _ _
  refine ⟨?_, ?_, opened, (declared _ _ opened).nested rfl⟩
  · obtain ⟨e, i, found, mentions, attached⟩ :=
      uses (.method 1 0 (.inside 0 (.body []))) _ .var _ rfl rfl
    rw [if_pos (by decide +kernel)] at attached
    obtain ⟨u, used, reaches, hops⟩ := attached
    exact ⟨e, i, u, found, mentions, used, reaches, hops.trans (by decide +kernel)⟩
  · obtain ⟨e, i, found, mentions, kept⟩ := uses (.main (.body [])) _ .var _ rfl rfl
    rw [if_neg (by decide +kernel)] at kept
    exact ⟨e, i, found, mentions, kept⟩

end Program

end ObjectLang
