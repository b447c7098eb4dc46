import ObjectLang.Proofs.Scope.Acceptance

/-!
What a tree was annotated with before it is resolved does not matter. The context that declarations
build up never reads annotations. A name that has a declaration gets a new annotation, and a name
that has none keeps its old one, but then the tree is refused. So a program and the same program
with all annotations removed are both refused or both accepted, with the same classes. If they are
accepted they resolve to the same program, up to one place that resolution leaves alone: the
binding of the parent in a class without a parent.
-/
namespace ObjectLang

/-- Two runs of resolution both accept or both refuse, and what they accept becomes the same. -/
structure Agree {α : Type} (errors : List ScopeError) (tree : α) (errors' : List ScopeError)
    (tree' : α) : Prop where
  accepted : errors = [] ↔ errors' = []
  same : errors = [] → tree = tree'

namespace Agree

variable {α β γ : Type} {e e' f f' : List ScopeError} {a a' : α} {b b' : β}

theorem refl (e : List ScopeError) (a : α) : Agree e a e a := ⟨Iff.rfl, fun _ => rfl⟩

theorem refused (first : e ≠ []) (second : e' ≠ []) : Agree e a e' a' :=
  ⟨iff_of_false first second, fun clean => absurd clean first⟩

theorem map (agree : Agree e a e' a') (build : α → β) : Agree e (build a) e' (build a') :=
  ⟨agree.accepted, fun clean => congrArg build (agree.same clean)⟩

theorem append (first : Agree e a e' a') (second : Agree f b f' b') (build : α → β → γ) :
    Agree (e ++ f) (build a b) (e' ++ f') (build a' b') := by
  constructor
  · rw [List.append_eq_nil_iff, List.append_eq_nil_iff, first.accepted, second.accepted]
  · intro clean
    obtain ⟨left, right⟩ := List.append_eq_nil_iff.mp clean
    rw [first.same left, second.same right]

theorem prepend (errors : List ScopeError) (agree : Agree e a e' a') :
    Agree (errors ++ e) a (errors ++ e') a' :=
  (refl errors ()).append agree fun _ a => a

theorem extend (agree : Agree e a e' a') (errors : List ScopeError) :
    Agree (e ++ errors) a (e' ++ errors) a' :=
  agree.append (refl errors ()) fun a _ => a

end Agree

def Ident.blank (i : Ident) : Ident := { i with use := none }

namespace Expr

mutual

def blank : Expr → Expr
  | .id line ident => .id line ident.blank
  | .call line callee args => .call line callee.blank (blankAll args)
  | .binary line op lhs rhs => .binary line op (blank lhs) (blank rhs)
  | .not line operand => .not line (blank operand)
  | .cond line test yes no => .cond line (blank test) (blank yes) (blank no)
  | .print line operand => .print line (blank operand)
  | .new line cls args _ => .new line cls (blankAll args) none
  | .send line object method args _ => .send line object.blank method (blankAll args) none
  | .get line object field _ => .get line object.blank field none
  | .int line value => .int line value
  | .bool line value => .bool line value
  | .null line => .null line

def blankAll : List Expr → List Expr
  | [] => []
  | e :: es => blank e :: blankAll es

end

end Expr

def Field.blank (f : Field) : Field := { f with offset := 0 }

namespace Decl

mutual

def blank : Decl → Decl
  | .var ⟨line, name, ty, init⟩ => .var ⟨line, name, ty, init.blank⟩
  | .fn routine => .fn (blankRoutine routine)
  | .cls ⟨line, name, parent, fields, methods, _, _⟩ =>
    .cls ⟨line, name, parent, fields.map Field.blank, blankMethods methods, none, none⟩

def blankRoutine : Routine → Routine
  | ⟨line, name, ret, params, locals, body⟩ =>
    ⟨line, name, ret, params, blankAll locals, body.blank⟩

def blankMethods : List Method → List Method
  | [] => []
  | ⟨routine, _⟩ :: methods => ⟨blankRoutine routine, 0⟩ :: blankMethods methods

def blankAll : List Decl → List Decl
  | [] => []
  | d :: ds => blank d :: blankAll ds

end

def clearRoot : Decl → Decl
  | .cls c => .cls { c with parentBinding := c.parent.bind fun _ => c.parentBinding }
  | d => d

end Decl

def ClassDecl.blank (c : ClassDecl) : ClassDecl where
  line := c.line
  name := c.name
  parent := c.parent
  fields := c.fields.map Field.blank
  methods := Decl.blankMethods c.methods
  binding := none
  parentBinding := none

def Program.blank (p : Program) : Program := ⟨Decl.blankAll p.decls, p.body.blank⟩

/-! Expressions. -/

theorem Ident.resolve_blank {s : Scopes} {i : Ident} {b : Binding}
    (found : s.lookup i.name = some b) : i.resolve s = i.blank.resolve s := by
  simp [Ident.resolve, Ident.blank, Scopes.use?, found]

theorem Ident.agree (s : Scopes) (kind : NameKind) (line : Line) (i : Ident) :
    Agree (i.scopeErrors s kind line) (i.resolve s) (i.blank.scopeErrors s kind line)
      (i.blank.resolve s) := by
  refine ⟨Iff.rfl, fun clean => ?_⟩
  obtain ⟨b, found⟩ := Ident.scopeErrors_eq_nil.mp clean
  exact Ident.resolve_blank found

/-- An object that means nothing is refused, so its annotation never chooses a class. -/
theorem Context.agree_member (ctx : Context) (object : Ident) (member : String) (line : Line) :
    Agree
      (object.scopeErrors ctx.scopes .var line ++
        (ctx.member (object.resolve ctx.scopes) member).errors object.name member line)
      (object.resolve ctx.scopes, (ctx.member (object.resolve ctx.scopes) member).binding?)
      (object.blank.scopeErrors ctx.scopes .var line ++
        (ctx.member (object.blank.resolve ctx.scopes) member).errors object.name member line)
      (object.blank.resolve ctx.scopes,
        (ctx.member (object.blank.resolve ctx.scopes) member).binding?) := by
  cases found : ctx.scopes.lookup object.name with
  | none =>
    have undeclared : object.scopeErrors ctx.scopes .var line ≠ [] := by
      simp [Ident.scopeErrors, found]
    apply Agree.refused
    · exact List.append_ne_nil_of_left_ne_nil undeclared _
    · exact List.append_ne_nil_of_left_ne_nil undeclared _
  | some b =>
    rw [Ident.resolve_blank found]
    exact Agree.refl _ _

theorem Context.agree_new (ctx : Context) (cls : String) (line : Line) (binding : Option Binding) :
    Agree
      (match ctx.scopes.lookupGlobal cls with
        | some _ => []
        | none => [ScopeError.undeclaredClass cls line])
      ((ctx.scopes.lookupGlobal cls).or binding)
      (match ctx.scopes.lookupGlobal cls with
        | some _ => []
        | none => [ScopeError.undeclaredClass cls line])
      ((ctx.scopes.lookupGlobal cls).or none) := by
  cases ctx.scopes.lookupGlobal cls with
  | none => exact Agree.refused (by simp) (by simp)
  | some b => exact Agree.refl _ _

namespace Expr

variable (ctx : Context)

mutual

theorem agree : (e : Expr) →
    Agree (e.scopeErrors ctx) (e.resolve ctx) (e.blank.scopeErrors ctx) (e.blank.resolve ctx)
  | .int _ _ | .bool _ _ | .null _ => Agree.refl _ _
  | .id line ident => (ident.agree ctx.scopes .var line).map (Expr.id line)
  | .call line callee args =>
    (callee.agree ctx.scopes .fn line).append (agree_all args) (Expr.call line)
  | .binary line op lhs rhs => (agree lhs).append (agree rhs) (Expr.binary line op)
  | .not line operand => (agree operand).map (Expr.not line)
  | .cond line test yes no =>
    ((agree test).append (agree yes) Prod.mk).append (agree no)
      fun chosen no => Expr.cond line chosen.1 chosen.2 no
  | .print line operand => (agree operand).map (Expr.print line)
  | .new line cls args binding =>
    (ctx.agree_new cls line binding).append (agree_all args) fun binding args =>
      Expr.new line cls args binding
  | .send line object method args _ =>
    (ctx.agree_member object method line).append (agree_all args) fun receiver args =>
      Expr.send line receiver.1 method args receiver.2
  | .get line object field _ =>
    (ctx.agree_member object field line).map fun receiver =>
      Expr.get line receiver.1 field receiver.2

theorem agree_all : (es : List Expr) →
    Agree (allScopeErrors ctx es) (resolveAll ctx es) (allScopeErrors ctx (blankAll es))
      (resolveAll ctx (blankAll es))
  | [] => Agree.refl _ _
  | e :: es => (agree e).append (agree_all es) List.cons

end

end Expr

/-! Headers of declarations. -/

namespace Decl

theorem signature_blankRoutine (r : Routine) : (blankRoutine r).signature = r.signature := by
  cases r
  rfl

theorem name_blankRoutine (r : Routine) : (blankRoutine r).name = r.name := by
  cases r
  rfl

theorem line_blankRoutine (r : Routine) : (blankRoutine r).line = r.line := by
  cases r
  rfl

theorem blankMethods_cons (method : Method) (methods : List Method) :
    blankMethods (method :: methods) =
      ⟨blankRoutine method.routine, 0⟩ :: blankMethods methods := by
  cases method
  rfl

theorem blank_cls (c : ClassDecl) : (Decl.cls c).blank = .cls c.blank := by
  cases c
  rfl

end Decl

namespace Members

theorem addFields_blank (m : Members) (fields : List Field) :
    m.addFields (fields.map Field.blank) = m.addFields fields := by
  rw [addFields, addFields, List.foldl_map]
  rfl

theorem placeFields_blank (m : Members) (fields : List Field) :
    m.placeFields (fields.map Field.blank) = m.placeFields fields := by
  induction fields generalizing m with
  | nil => rfl
  | cons f fields ih =>
    rw [List.map_cons, placeFields, ih]
    rfl

theorem fieldsErrors_blank (h : Inheritance) (cls : String) (m : Members) (fields : List Field) :
    m.fieldsErrors h cls (fields.map Field.blank) = m.fieldsErrors h cls fields := by
  induction fields generalizing m with
  | nil => rfl
  | cons f fields ih =>
    rw [List.map_cons, fieldsErrors, ih]
    rfl

theorem addMethods_blank (m : Members) (methods : List Method) :
    m.addMethods (Decl.blankMethods methods) = m.addMethods methods := by
  induction methods generalizing m with
  | nil => rfl
  | cons method methods ih =>
    unfold addMethods at ih ⊢
    rw [Decl.blankMethods_cons, List.foldl_cons, ih, Method.name, Decl.name_blankRoutine,
      Decl.signature_blankRoutine, List.foldl_cons]
    rfl

theorem methodsErrors_blank (h : Inheritance) (cls : String) (m : Members)
    (methods : List Method) :
    m.methodsErrors h cls (Decl.blankMethods methods) = m.methodsErrors h cls methods := by
  induction methods generalizing m with
  | nil => rfl
  | cons method methods ih =>
    rw [Decl.blankMethods_cons, methodsErrors, methodsErrors]
    simp only [methodErrors, Method.name, Decl.name_blankRoutine, Decl.signature_blankRoutine,
      Decl.line_blankRoutine, ih]

end Members

namespace Context

variable (ctx : Context) (c : ClassDecl)

theorem members_blank : ctx.members c.blank = ctx.members c := by
  show ((ctx.inherited c).addFields (c.fields.map Field.blank)).addMethods
    (Decl.blankMethods c.methods) = _
  rw [Members.addFields_blank, Members.addMethods_blank]
  rfl

theorem classBinding_blank : ctx.classBinding c.blank = ctx.classBinding c := by
  rw [classBinding, members_blank]
  rfl

theorem declareClass_blank : ctx.declareClass c.blank = ctx.declareClass c := by
  rw [declareClass, members_blank, classBinding_blank]
  rfl

theorem inClass_blank : ctx.inClass c.blank = ctx.inClass c := by
  rw [inClass, members_blank, declareClass_blank]
  rfl

theorem after_blank (d : Decl) : ctx.after d.blank = ctx.after d := by
  cases d with
  | var decl => rfl
  | fn routine =>
    rw [Decl.blank, after, Decl.name_blankRoutine, Decl.signature_blankRoutine]
    rfl
  | cls c =>
    rw [Decl.blank_cls, after, declareClass_blank]
    rfl

theorem foldl_after_blank (ds : List Decl) :
    (Decl.blankAll ds).foldl Context.after ctx = ds.foldl Context.after ctx := by
  induction ds generalizing ctx with
  | nil => rfl
  | cons d ds ih => rw [Decl.blankAll, List.foldl_cons, ih, after_blank, List.foldl_cons]

end Context

theorem ClassDecl.headerErrors_blank (ctx : Context) (c : ClassDecl) :
    c.blank.headerErrors ctx = c.headerErrors ctx := by
  have fields : c.blank.fields = c.fields.map Field.blank := rfl
  have methods : c.blank.methods = Decl.blankMethods c.methods := rfl
  simp only [headerErrors, fields, methods, Members.fieldsErrors_blank, Members.addFields_blank,
    Members.methodsErrors_blank]
  rfl

theorem ClassDecl.resolve_blank (ctx : Context) (c : ClassDecl) :
    c.blank.resolve ctx = { c.resolve ctx with
      methods := Decl.resolveMethods (ctx.inClass c) ((ctx.inherited c).addFields c.fields)
        (Decl.blankMethods c.methods)
      parentBinding := (ctx.parent? c).map Parent.binding } := by
  have fields : c.blank.fields = c.fields.map Field.blank := rfl
  have parent : ((ctx.parent? c.blank).map Parent.binding).or c.blank.parentBinding =
      (ctx.parent? c).map Parent.binding := Option.or_none
  rw [resolve, fields, Members.placeFields_blank, Members.addFields_blank, ctx.inClass_blank,
    ctx.classBinding_blank, parent]
  rfl

theorem ClassDecl.parentBinding_of_clean {ctx : Context} {c : ClassDecl}
    (clean : c.headerErrors ctx = []) (stale : Option Binding) :
    (c.parent.bind fun _ => ((ctx.parent? c).map Parent.binding).or stale) =
      (ctx.parent? c).map Parent.binding := by
  cases named : c.parent with
  | none => simp [Context.parent?, named]
  | some name =>
    cases found : ctx.parent? c with
    | none => simp [headerErrors, named, found] at clean
    | some parent => rfl

namespace Decl

theorem clearRoot_resolve {ctx : Context} (inner : ctx.isGlobal = false) (d : Decl)
    (clean : d.scopeErrors ctx = []) : (d.resolve ctx).clearRoot = d.resolve ctx := by
  cases d with
  | var decl => rfl
  | fn routine => rfl
  | cls c =>
    cases c
    simp [scopeErrors, inner] at clean

theorem map_clearRoot_resolveAll {ctx : Context} (inner : ctx.isGlobal = false) (ds : List Decl)
    (clean : allScopeErrors ctx ds = []) :
    (resolveAll ctx ds).map clearRoot = resolveAll ctx ds := by
  induction ds generalizing ctx with
  | nil => rfl
  | cons d ds ih =>
    obtain ⟨first, rest⟩ := List.append_eq_nil_iff.mp clean
    have later : (ctx.after d).isGlobal = false := by rw [ctx.isGlobal_after, inner]
    rw [resolveAll, List.map_cons, clearRoot_resolve inner d first, ih later rest]

/-! Declarations. The scopes that are open tell global declarations from those in a routine. -/

theorem agree_cls {ctx : Context} (c : ClassDecl)
    (methods : ∀ m, Agree (methodsScopeErrors (ctx.inClass c) c.methods)
      (resolveMethods (ctx.inClass c) m c.methods)
      (methodsScopeErrors (ctx.inClass c) (blankMethods c.methods))
      (resolveMethods (ctx.inClass c) m (blankMethods c.methods))) :
    Agree ((Decl.cls c).scopeErrors ctx) ((Decl.cls c).resolve ctx).clearRoot
      ((Decl.cls c).blank.scopeErrors ctx) ((Decl.cls c).blank.resolve ctx) := by
  rw [blank_cls]
  cases place : ctx.isGlobal with
  | false =>
    cases c
    exact Agree.refused (by simp [scopeErrors, place]) (by simp [ClassDecl.blank, scopeErrors, place])
  | true =>
    rw [scopeErrors_cls place, scopeErrors_cls place, resolve_cls place, resolve_cls place,
      ClassDecl.headerErrors_blank, Context.inClass_blank]
    have whole := (methods ((ctx.inherited c).addFields c.fields)).prepend (c.headerErrors ctx)
    refine ⟨whole.accepted, fun clean => ?_⟩
    have sameParent :=
      ClassDecl.parentBinding_of_clean (List.append_eq_nil_iff.mp clean).1 c.parentBinding
    rw [ClassDecl.resolve_blank, ← whole.same clean, ← sameParent]
    rfl

theorem agree_inner {ctx : Context} (inner : ctx.isGlobal = false) {ds : List Decl}
    {errors : List ScopeError} {trees : List Decl}
    (agree : Agree (allScopeErrors ctx ds) ((resolveAll ctx ds).map clearRoot) errors trees) :
    Agree (allScopeErrors ctx ds) (resolveAll ctx ds) errors trees := by
  refine ⟨agree.accepted, fun clean => ?_⟩
  rw [← agree.same clean, map_clearRoot_resolveAll inner ds clean]

mutual

theorem agree : (d : Decl) → ∀ {ctx : Context}, 0 < ctx.scopes.tables.length →
    Agree (d.scopeErrors ctx) (d.resolve ctx).clearRoot (d.blank.scopeErrors ctx)
      (d.blank.resolve ctx)
  | .var ⟨line, name, ty, init⟩, ctx, _ =>
    (((init.agree ctx).extend _).extend _).map fun init => Decl.var ⟨line, name, ty, init⟩
  | .fn routine, ctx, opened => by
    have outside : 0 < (ctx.after (.fn routine)).scopes.tables.length := by
      rwa [ctx.length_after]
    have inside := agree_routine routine outside
    have after : ctx.after (.fn (blankRoutine routine)) = ctx.after (.fn routine) :=
      ctx.after_blank (.fn routine)
    rw [blank, scopeErrors, scopeErrors, resolve, resolve, name_blankRoutine,
      signature_blankRoutine, line_blankRoutine, after]
    exact (inside.prepend _).map Decl.fn
  | .cls ⟨line, name, parent, fields, methods, binding, parentBinding⟩, ctx, opened => by
    apply agree_cls
    intro m
    exact agree_methods methods (by simp [Context.inClass]) m

theorem agree_routine : (r : Routine) → ∀ {ctx : Context}, 0 < ctx.scopes.tables.length →
    Agree (routineScopeErrors ctx r) (resolveRoutine ctx r)
      (routineScopeErrors ctx (blankRoutine r)) (resolveRoutine ctx (blankRoutine r))
  | ⟨line, name, ret, params, locals, body⟩, ctx, opened => by
    have level := ctx.level_inRoutine params
    have inner : (ctx.inRoutine params).isGlobal = false := by
      rw [Context.isGlobal, level, beq_eq_false_iff_ne]
      omega
    have inside : 0 < (ctx.inRoutine params).scopes.tables.length := by
      rw [Scopes.level] at level
      omega
    have sameLocals := agree_inner inner (agree_all locals inside)
    have sameBody := body.agree (locals.foldl Context.after (ctx.inRoutine params))
    rw [blankRoutine, routineScopeErrors, routineScopeErrors, resolveRoutine, resolveRoutine]
    simp only [Context.foldl_after_blank]
    exact (sameLocals.prepend _).append sameBody (Routine.mk line name ret params)

theorem agree_methods : (methods : List Method) → ∀ {ctx : Context},
    0 < ctx.scopes.tables.length → ∀ m,
      Agree (methodsScopeErrors ctx methods) (resolveMethods ctx m methods)
        (methodsScopeErrors ctx (blankMethods methods))
        (resolveMethods ctx m (blankMethods methods))
  | [], _, _, _ => Agree.refl _ _
  | ⟨routine, offset⟩ :: methods, ctx, opened, m => by
    have head := (agree_routine routine opened).map fun routine' =>
      Method.mk routine' (m.methodPlacement routine.name).offset
    have tail := agree_methods methods opened (m.addMethod routine.name routine.signature)
    rw [blankMethods, methodsScopeErrors, methodsScopeErrors, resolveMethods, resolveMethods,
      name_blankRoutine, signature_blankRoutine]
    exact head.append tail List.cons

theorem agree_all : (ds : List Decl) → ∀ {ctx : Context}, 0 < ctx.scopes.tables.length →
    Agree (allScopeErrors ctx ds) ((resolveAll ctx ds).map clearRoot)
      (allScopeErrors ctx (blankAll ds)) (resolveAll ctx (blankAll ds))
  | [], _, _ => Agree.refl _ _
  | d :: ds, ctx, opened => by
    have later : 0 < (ctx.after d).scopes.tables.length := by rwa [ctx.length_after]
    rw [blankAll, allScopeErrors, allScopeErrors, resolveAll, resolveAll, ctx.after_blank]
    exact (agree d opened).append (agree_all ds later) List.cons

end

end Decl

theorem Program.context_blank (p : Program) : p.blank.context = p.context :=
  Context.initial.foldl_after_blank p.decls

/-- Annotations from before have no effect. The program without them has the same inheritance and
the same classes, and both are accepted or none is. If they are accepted they resolve to the same
program, up to the binding of the parent in classes that have none. -/
theorem Program.resolve_ignores_annotations (p : Program) :
    p.blank.resolve.inheritance = p.resolve.inheritance ∧
      p.blank.resolve.classes = p.resolve.classes ∧
      (p.resolve.errors = [] ↔ p.blank.resolve.errors = []) ∧
      (p.resolve.errors = [] → p.blank.resolve.program =
        ⟨p.resolve.program.decls.map Decl.clearRoot, p.resolve.program.body⟩) := by
  have opened : 0 < Context.initial.scopes.tables.length := by decide
  have whole := (Decl.agree_all p.decls opened).append (p.body.agree p.context) Program.mk
  have context := p.context_blank
  have errors : p.blank.resolve.errors = Decl.allScopeErrors Context.initial (Decl.blankAll p.decls)
      ++ p.body.blank.scopeErrors p.context := by
    rw [resolve, context]
    rfl
  have program : p.blank.resolve.program = ⟨Decl.resolveAll Context.initial (Decl.blankAll p.decls),
      p.body.blank.resolve p.context⟩ := by
    rw [resolve, context]
    rfl
  refine ⟨?_, ?_, ?_, ?_⟩
  · rw [resolve, context]
    rfl
  · rw [resolve, context]
    rfl
  · rw [errors]
    exact whole.accepted
  · intro clean
    rw [program]
    exact (whole.same clean).symm

def staleBinding : Binding := ⟨7, .int, 9⟩

def staleAnnotations : Program where
  decls := [
    .cls ⟨1, "A", none, [⟨1, "x", .int, 5⟩],
      [⟨⟨2, "m", .int, [], [], .id 2 ⟨"x", some ⟨staleBinding, 3⟩⟩⟩, 8⟩],
      some staleBinding, some staleBinding⟩,
    .cls ⟨3, "B", some "A", [], [], none, some staleBinding⟩,
    .var ⟨4, "b", .ref "B", .new 4 "B" [.int 4 1] (some staleBinding)⟩]
  body := .send 5 ⟨"b", some ⟨staleBinding, 3⟩⟩ "m" [] (some staleBinding)

theorem Program.resolve_ignores_annotations_stale :
    staleAnnotations.resolve.errors = [] ∧ staleAnnotations.blank.resolve.errors = [] ∧
      staleAnnotations.blank.resolve.program =
        ⟨staleAnnotations.resolve.program.decls.map Decl.clearRoot,
          staleAnnotations.resolve.program.body⟩ ∧
      ∃ root others, staleAnnotations.resolve.program.decls = .cls root :: others ∧
        root.parent = none ∧ root.parentBinding = some staleBinding := by
  have clean : staleAnnotations.resolve.errors = [] := by decide
  obtain ⟨_, _, accepted, same⟩ := Program.resolve_ignores_annotations staleAnnotations
  exact ⟨clean, accepted.mp clean, same clean, _, _, rfl, rfl, rfl⟩

end ObjectLang
