import ObjectLang.Proofs.Scope.Annotations

/-!
Resolution only annotates, and doing it twice is doing it once. Without its annotations a resolved
tree is the tree it was resolved from, so both build up the same context. In the same context every
annotation is found again: a name that has a declaration gets the same binding, and a name that has
none keeps what it was left with the first time. This does not depend on the tree being accepted.
-/
namespace ObjectLang

/-- Resolving a tree leaves it as it is but for annotations, and once it is resolved, resolving it
again changes nothing and finds the same errors. -/
structure Stable {α : Type} (resolve : α → α) (errors : α → List ScopeError) (blank : α → α)
    (tree : α) : Prop where
  again : resolve (resolve tree) = resolve tree
  errors : errors (resolve tree) = errors tree
  blank : blank (resolve tree) = blank tree

/-- An annotation that is kept where nothing is found is kept the second time as well. -/
theorem or_or_self {α : Type} (found old : Option α) : found.or (found.or old) = found.or old := by
  cases found <;> rfl

theorem Ident.stable (s : Scopes) (kind : NameKind) (line : Line) (i : Ident) :
    Stable (Ident.resolve s) (Ident.scopeErrors s kind line) Ident.blank i where
  again := by
    rw [Ident.resolve, Ident.resolve, or_or_self]
  errors := rfl
  blank := rfl

namespace Expr

mutual

theorem stable (ctx : Context) : (e : Expr) →
    Stable (Expr.resolve ctx) (Expr.scopeErrors ctx) Expr.blank e
  | .int _ _ | .bool _ _ | .null _ => ⟨rfl, rfl, rfl⟩
  | .id line ident => by
    have ident := ident.stable ctx.scopes .var line
    exact ⟨by simp only [resolve, ident.again], by simp only [resolve, scopeErrors, ident.errors],
      by simp only [resolve, blank, ident.blank]⟩
  | .call line callee args => by
    have callee := callee.stable ctx.scopes .fn line
    have args := stable_all ctx args
    exact ⟨by simp only [resolve, callee.again, args.again],
      by simp only [resolve, scopeErrors, callee.errors, args.errors],
      by simp only [resolve, blank, callee.blank, args.blank]⟩
  | .binary line op lhs rhs => by
    have left := stable ctx lhs
    have right := stable ctx rhs
    exact ⟨by simp only [resolve, left.again, right.again],
      by simp only [resolve, scopeErrors, left.errors, right.errors],
      by simp only [resolve, blank, left.blank, right.blank]⟩
  | .not line operand => by
    have operand := stable ctx operand
    exact ⟨by simp only [resolve, operand.again],
      by simp only [resolve, scopeErrors, operand.errors],
      by simp only [resolve, blank, operand.blank]⟩
  | .cond line test yes no => by
    have test := stable ctx test
    have yes := stable ctx yes
    have no := stable ctx no
    exact ⟨by simp only [resolve, test.again, yes.again, no.again],
      by simp only [resolve, scopeErrors, test.errors, yes.errors, no.errors],
      by simp only [resolve, blank, test.blank, yes.blank, no.blank]⟩
  | .print line operand => by
    have operand := stable ctx operand
    exact ⟨by simp only [resolve, operand.again],
      by simp only [resolve, scopeErrors, operand.errors],
      by simp only [resolve, blank, operand.blank]⟩
  | .new line cls args binding => by
    have args := stable_all ctx args
    exact ⟨by simp only [resolve, or_or_self, args.again],
      by simp only [resolve, scopeErrors, args.errors],
      by simp only [resolve, blank, args.blank]⟩
  | .send line object method args binding => by
    -- The class of the receiver is read off its new annotation, which is the same both times.
    have object := object.stable ctx.scopes .var line
    have args := stable_all ctx args
    exact ⟨by simp only [resolve, object.again, args.again],
      by simp only [resolve, scopeErrors, object.again, object.errors, args.errors]; rfl,
      by simp only [resolve, blank, object.blank, args.blank]⟩
  | .get line object field binding => by
    have object := object.stable ctx.scopes .var line
    exact ⟨by simp only [resolve, object.again],
      by simp only [resolve, scopeErrors, object.again, object.errors]; rfl,
      by simp only [resolve, blank, object.blank]⟩

theorem stable_all (ctx : Context) : (es : List Expr) →
    Stable (Expr.resolveAll ctx) (Expr.allScopeErrors ctx) Expr.blankAll es
  | [] => ⟨rfl, rfl, rfl⟩
  | e :: es => by
    have head := stable ctx e
    have tail := stable_all ctx es
    exact ⟨by simp only [resolveAll, head.again, tail.again],
      by simp only [resolveAll, allScopeErrors, head.errors, tail.errors],
      by simp only [resolveAll, blankAll, head.blank, tail.blank]⟩

end

end Expr

/-! Trees that are alike but for annotations build up the same context. -/

namespace Context

variable (ctx : Context)

theorem after_congr {d d' : Decl} (alike : d.blank = d'.blank) : ctx.after d = ctx.after d' := by
  rw [← ctx.after_blank d, alike, ctx.after_blank d']

theorem foldl_after_congr {ds ds' : List Decl} (alike : Decl.blankAll ds = Decl.blankAll ds') :
    ds.foldl after ctx = ds'.foldl after ctx := by
  rw [← ctx.foldl_after_blank ds, alike, ctx.foldl_after_blank ds']

theorem inClass_congr {c c' : ClassDecl} (alike : c.blank = c'.blank) :
    ctx.inClass c = ctx.inClass c' := by
  rw [← ctx.inClass_blank c, alike, ctx.inClass_blank c']

theorem classBinding_congr {c c' : ClassDecl} (alike : c.blank = c'.blank) :
    ctx.classBinding c = ctx.classBinding c' := by
  rw [← ctx.classBinding_blank c, alike, ctx.classBinding_blank c']

end Context

theorem ClassDecl.headerErrors_congr (ctx : Context) {c c' : ClassDecl}
    (alike : c.blank = c'.blank) : c.headerErrors ctx = c'.headerErrors ctx := by
  rw [← headerErrors_blank, alike, headerErrors_blank]

namespace Members

theorem blank_placeFields (m : Members) (fields : List Field) :
    (m.placeFields fields).map Field.blank = fields.map Field.blank := by
  induction fields generalizing m with
  | nil => rfl
  | cons f fields ih =>
    rw [placeFields, List.map_cons, ih, List.map_cons]
    rfl

theorem placeFields_placeFields (m : Members) (fields : List Field) :
    m.placeFields (m.placeFields fields) = m.placeFields fields := by
  rw [← m.placeFields_blank (m.placeFields fields), m.blank_placeFields, m.placeFields_blank]

end Members

namespace ClassDecl

variable (ctx : Context) (c : ClassDecl)

theorem blank_resolve (methods : Decl.blankMethods (c.resolve ctx).methods =
    Decl.blankMethods c.methods) : (c.resolve ctx).blank = c.blank := by
  have fields : (c.resolve ctx).fields.map Field.blank = c.fields.map Field.blank :=
    Members.blank_placeFields _ _
  rw [blank, fields, methods]
  rfl

theorem resolve_resolve (alike : (c.resolve ctx).blank = c.blank)
    (methods : Decl.resolveMethods (ctx.inClass c) ((ctx.inherited c).addFields c.fields)
      (c.resolve ctx).methods = (c.resolve ctx).methods) :
    (c.resolve ctx).resolve ctx = c.resolve ctx := by
  have inherited : ctx.inherited (c.resolve ctx) = ctx.inherited c := rfl
  have fields : (ctx.inherited c).placeFields (c.resolve ctx).fields = (c.resolve ctx).fields :=
    Members.placeFields_placeFields _ _
  have added : (ctx.inherited c).addFields (c.resolve ctx).fields =
      (ctx.inherited c).addFields c.fields := by
    rw [← Members.addFields_blank, ← Members.addFields_blank _ c.fields]
    exact congrArg _ (Members.blank_placeFields _ _)
  have parent : ((ctx.parent? (c.resolve ctx)).map Parent.binding).or
      (c.resolve ctx).parentBinding = (c.resolve ctx).parentBinding := or_or_self _ _
  rw [resolve, inherited, fields, added, ctx.inClass_congr alike, ctx.classBinding_congr alike,
    parent, methods]
  rfl

end ClassDecl

namespace Decl

theorem stable_cls {ctx : Context} {c : ClassDecl}
    (methods : ∀ ctx m, Stable (Decl.resolveMethods ctx m) (Decl.methodsScopeErrors ctx)
      Decl.blankMethods c.methods) :
    Stable (Decl.resolve ctx) (Decl.scopeErrors ctx) Decl.blank (.cls c) := by
  cases place : ctx.isGlobal with
  | false =>
    have left : (Decl.cls c).resolve ctx = .cls c := by
      cases c
      simp [resolve, place]
    exact ⟨by rw [left, left], by rw [left], by rw [left]⟩
  | true =>
    have inside := methods (ctx.inClass c) ((ctx.inherited c).addFields c.fields)
    have alike := c.blank_resolve ctx inside.blank
    refine ⟨?_, ?_, ?_⟩
    · rw [resolve_cls place, resolve_cls place, c.resolve_resolve ctx alike inside.again]
    · rw [resolve_cls place, scopeErrors_cls place, scopeErrors_cls place,
        ClassDecl.headerErrors_congr ctx alike, ctx.inClass_congr alike]
      exact congrArg _ inside.errors
    · rw [resolve_cls place, blank_cls, blank_cls, alike]

mutual

theorem stable : (d : Decl) → (ctx : Context) →
    Stable (Decl.resolve ctx) (Decl.scopeErrors ctx) Decl.blank d
  | .var ⟨line, name, ty, init⟩, ctx => by
    have init := init.stable ctx
    exact ⟨by simp only [resolve, init.again], by simp only [resolve, scopeErrors, init.errors],
      by simp only [resolve, blank, init.blank]⟩
  | .fn routine, ctx => by
    have inside := stable_routine routine (ctx.after (.fn routine))
    have alike : ((Decl.fn routine).resolve ctx).blank = (Decl.fn routine).blank := by
      rw [resolve, blank, blank, inside.blank]
    have after := ctx.after_congr alike
    rw [resolve] at after
    refine ⟨?_, ?_, alike⟩
    · rw [resolve, resolve, after, inside.again]
    · rw [resolve, scopeErrors, scopeErrors, after, inside.errors, resolveRoutine_eq]
      rfl
  | .cls ⟨line, name, parent, fields, methods, binding, parentBinding⟩, ctx =>
    stable_cls (stable_methods methods)

theorem stable_routine : (r : Routine) → (ctx : Context) →
    Stable (Decl.resolveRoutine ctx) (Decl.routineScopeErrors ctx) Decl.blankRoutine r
  | ⟨line, name, ret, params, locals, body⟩, ctx => by
    have locals' := stable_all locals (ctx.inRoutine params)
    have body' := body.stable (locals.foldl Context.after (ctx.inRoutine params))
    have after := (ctx.inRoutine params).foldl_after_congr locals'.blank
    exact ⟨by simp only [resolveRoutine, after, locals'.again, body'.again],
      by simp only [resolveRoutine, routineScopeErrors, after, locals'.errors, body'.errors],
      by simp only [resolveRoutine, blankRoutine, locals'.blank, body'.blank]⟩

theorem stable_methods : (methods : List Method) → (ctx : Context) → (m : Members) →
    Stable (Decl.resolveMethods ctx m) (Decl.methodsScopeErrors ctx) Decl.blankMethods methods
  | [], _, _ => ⟨rfl, rfl, rfl⟩
  | ⟨routine, offset⟩ :: methods, ctx, m => by
    have head := stable_routine routine ctx
    have tail := stable_methods methods ctx (m.addMethod routine.name routine.signature)
    have name : (resolveRoutine ctx routine).name = routine.name := by
      rw [resolveRoutine_eq]
    have signature : (resolveRoutine ctx routine).signature = routine.signature := by
      rw [resolveRoutine_eq]
      rfl
    exact ⟨by simp only [resolveMethods, head.again, name, signature, tail.again],
      by simp only [resolveMethods, methodsScopeErrors, head.errors, tail.errors],
      by simp only [resolveMethods, blankMethods, head.blank, tail.blank]⟩

theorem stable_all : (ds : List Decl) → (ctx : Context) →
    Stable (Decl.resolveAll ctx) (Decl.allScopeErrors ctx) Decl.blankAll ds
  | [], _ => ⟨rfl, rfl, rfl⟩
  | d :: ds, ctx => by
    have head := stable d ctx
    have tail := stable_all ds (ctx.after d)
    have after := ctx.after_congr head.blank
    exact ⟨by simp only [resolveAll, after, head.again, tail.again],
      by simp only [resolveAll, allScopeErrors, after, head.errors, tail.errors],
      by simp only [resolveAll, blankAll, head.blank, tail.blank]⟩

end

end Decl

/-- Resolution only annotates, and resolving the resolved program again changes nothing: the
program, the inheritance, the classes and the errors are the same, whether or not there are
errors. -/
theorem Program.resolve_stable (p : Program) :
    p.resolve.program.blank = p.blank ∧ p.resolve.program.resolve = p.resolve := by
  have decls := Decl.stable_all p.decls Context.initial
  have body := p.body.stable p.context
  have context : p.resolve.program.context = p.context :=
    Context.initial.foldl_after_congr decls.blank
  refine ⟨congrArg₂ Program.mk decls.blank body.blank, ?_⟩
  have program : Program.mk (Decl.resolveAll Context.initial p.resolve.program.decls)
      (p.resolve.program.body.resolve p.context) = p.resolve.program :=
    congrArg₂ Program.mk decls.again body.again
  have errors : Decl.allScopeErrors Context.initial p.resolve.program.decls ++
      p.resolve.program.body.scopeErrors p.context = p.resolve.errors :=
    congrArg₂ List.append decls.errors body.errors
  rw [resolve, context, program, errors]
  rfl

end ObjectLang
