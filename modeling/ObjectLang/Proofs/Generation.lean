import ObjectLang.Proofs.Code.Layout
import ObjectLang.Proofs.Typing.Declarations

/-!
Compilation never fails. Code generation asks of a tree that its names are resolved and that `new`
names a class, and layout asks that labels are marked; a program without a report has all of this.
-/
namespace ObjectLang

open Lower

theorem BinaryOp.lowers (op : BinaryOp) (line : Line) (s : Supply) :
    ∃ c t, Yields (op.code line) s c t := by
  cases op <;> simp only [BinaryOp.code, yields_bind, yields_pure, yields_selectCode]
  case ge => exact ⟨_, _, _, _, ⟨rfl, rfl⟩, rfl, rfl⟩
  all_goals exact ⟨_, _, rfl, rfl⟩

namespace Expr

variable {h : Inheritance} {ctx : Context} {g : Word}

mutual

theorem lowers : (e : Expr) → ∀ {ty : Ty}, e.Typed h ctx ty → ∀ s : Supply,
    ∃ c t, Yields ((e.resolve ctx).code g) s c t
  | .int _ _ | .bool _ _ | .null _ => by
    intro _ s
    simp only [resolve, yields_int, yields_bool, yields_null]
    exact ⟨_, _, rfl, rfl⟩
  | .id line ident => by
    intro typed s
    cases typed with
    | id found alone => exact ⟨_, _, yields_id.mpr ⟨_, Ident.resolve_use found, rfl, rfl⟩⟩
  | .call line callee args => by
    intro typed s
    cases typed with
    | call found callable typed =>
      obtain ⟨c, t, done⟩ := lowersBackward args typed s
      exact ⟨_, _, yields_call.mpr ⟨_, c, Ident.resolve_use found, done, rfl⟩⟩
  | .binary line op lhs rhs => by
    intro typed s
    cases typed with
    | binary first second accepted =>
      cases logical : op.isLogical with
      | true =>
        obtain ⟨c, u, left⟩ := lowers lhs first { s with next := s.next + 2 }
        obtain ⟨d, t, right⟩ := lowers rhs second u
        exact ⟨_, _, (yields_logical logical).mpr ⟨c, d, u, left, right, rfl⟩⟩
      | false =>
        obtain ⟨c, u, left⟩ := lowers lhs first s
        obtain ⟨d, v, right⟩ := lowers rhs second u
        obtain ⟨e, t, last⟩ := op.lowers (rhs.resolve ctx).endLine v
        exact ⟨_, _, (yields_binary logical).mpr ⟨c, d, e, u, v, left, right, last, rfl⟩⟩
  | .not line operand => by
    intro typed s
    cases typed with
    | not typed bool =>
      obtain ⟨c, u, done⟩ := lowers operand typed s
      exact ⟨_, _, yields_not.mpr ⟨c, u, done, rfl, rfl⟩⟩
  | .cond line test yes no => by
    intro typed s
    cases typed with
    | cond typed bool first second joined =>
      obtain ⟨c, u, one⟩ := lowers test typed { s with next := s.next + 2 }
      obtain ⟨d, v, two⟩ := lowers no second u
      obtain ⟨e, t, three⟩ := lowers yes first v
      exact ⟨_, _, yields_cond.mpr ⟨c, d, e, u, v, one, two, three, rfl⟩⟩
  | .print line operand => by
    intro typed s
    cases typed with
    | print typed =>
      obtain ⟨c, t, done⟩ := lowers operand typed s
      exact ⟨_, _, yields_print.mpr ⟨c, done, rfl⟩⟩
  | .new line cls args binding => by
    intro typed s
    cases typed with
    | new found isClass typed =>
      obtain ⟨c, t, done⟩ := lowersForward args typed s
      rw [resolve, found, Option.some_or]
      exact ⟨_, _, yields_new.mpr ⟨_, _, c, rfl, isClass, done, rfl⟩⟩
  | .send line object method args binding => by
    intro typed s
    cases typed with
    | send found isMethod typed =>
      obtain ⟨c, t, done⟩ := lowersBackward args typed s
      rw [resolve, Context.member_of_memberOf found]
      obtain ⟨receiver, _, _, known, _⟩ := found
      exact ⟨_, _, yields_send.mpr ⟨_, _, c, rfl, Ident.resolve_use known, done, rfl⟩⟩
  | .get line object field binding => by
    intro typed s
    cases typed with
    | get found isField =>
      rw [resolve, Context.member_of_memberOf found]
      obtain ⟨receiver, _, _, known, _⟩ := found
      exact ⟨_, _, yields_get.mpr ⟨_, _, rfl, Ident.resolve_use known, rfl, rfl⟩⟩

theorem lowersForward : (args : List Expr) → ∀ {formals : List Ty}, TypedArgs h ctx formals args →
    ∀ s : Supply, ∃ c t, Yields (argsForward g (resolveAll ctx args)) s c t
  | [] => by
    intro _ s
    exact ⟨_, _, yields_argsForward_nil.mpr ⟨rfl, rfl⟩⟩
  | arg :: args => by
    intro typed s
    cases typed with
    | cons typed fits rest =>
      obtain ⟨c, u, head⟩ := lowers arg typed s
      obtain ⟨d, t, tail⟩ := lowersForward args rest u
      exact ⟨_, _, yields_argsForward_cons.mpr ⟨c, d, u, head, tail, rfl⟩⟩

theorem lowersBackward : (args : List Expr) → ∀ {formals : List Ty}, TypedArgs h ctx formals args →
    ∀ s : Supply, ∃ c t, Yields (argsBackward g (resolveAll ctx args)) s c t
  | [] => by
    intro _ s
    exact ⟨_, _, yields_argsBackward_nil.mpr ⟨rfl, rfl⟩⟩
  | arg :: args => by
    intro typed s
    cases typed with
    | cons typed fits rest =>
      obtain ⟨d, u, tail⟩ := lowersBackward args rest s
      obtain ⟨c, t, head⟩ := lowers arg typed u
      exact ⟨_, _, yields_argsBackward_cons.mpr ⟨c, d, u, tail, head, rfl⟩⟩

end

end Expr

namespace Decl

variable {h : Inheritance} {g : Word}

mutual

theorem lowers : (d : Decl) → ∀ {ctx : Context}, d.Typed h ctx → ∀ s : Supply,
    ∃ f t, Yields ((d.resolve ctx).code g) s f t
  | .var ⟨line, name, ty, init⟩ => by
    intro typed s
    cases typed with
    | var free typed fits =>
      obtain ⟨c, t, done⟩ := Expr.lowers init typed s
      exact ⟨_, _, yields_var.mpr ⟨c, done, rfl⟩⟩
  | .fn routine => by
    intro typed s
    cases typed with
    | fn free typed =>
      obtain ⟨bodies, t, done⟩ := lowersRoutine routine typed ⟨s.next⟩ { s with next := s.next + 1 }
      exact ⟨_, _, yields_fn.mpr ⟨bodies, done, rfl⟩⟩
  | .cls ⟨line, name, parent, fields, methods, binding, parentBinding⟩ => by
    intro typed s
    cases typed with
    | cls global header overrides typed =>
      rw [resolve_cls global]
      obtain ⟨bodies, t, done⟩ := lowersMethods methods typed _ s.next (methodSupply s _)
      exact ⟨_, _, yields_cls.mpr ⟨bodies, done, rfl⟩⟩

theorem lowersRoutine : (r : Routine) → ∀ {ctx : Context}, RoutineTyped h ctx r →
    ∀ (entry : Label) (s : Supply),
      ∃ bodies t, Yields (routineCode g entry (resolveRoutine ctx r)) s bodies t
  | ⟨line, name, ret, params, locals, body⟩ => by
    intro typed entry s
    cases typed with
    | intro free typed result fits =>
      obtain ⟨inner, u, first⟩ := lowersAll locals typed s
      obtain ⟨c, t, second⟩ := Expr.lowers body result u
      exact ⟨_, _, yields_routineCode.mpr ⟨inner, c, u, first, second, rfl⟩⟩

theorem lowersMethods : (methods : List Method) → ∀ {ctx : Context}, MethodsTyped h ctx methods →
    ∀ (m : Members) (first : Nat) (s : Supply),
      ∃ bodies t, Yields (methodsCode g first (resolveMethods ctx m methods)) s bodies t
  | [] => by
    intro _ m first s
    exact ⟨_, _, yields_methodsCode_nil.mpr ⟨rfl, rfl⟩⟩
  | ⟨routine, offset⟩ :: methods => by
    intro typed m first s
    cases typed with
    | cons head tail =>
      obtain ⟨own, u, one⟩ := lowersRoutine routine head ⟨first⟩ s
      obtain ⟨others, t, rest⟩ := lowersMethods methods tail
        (m.addMethod routine.name routine.signature) (first + 1) u
      exact ⟨_, _, yields_methodsCode_cons.mpr ⟨own, others, u, one, rest, rfl⟩⟩

theorem lowersAll : (ds : List Decl) → ∀ {ctx : Context}, AllTyped h ctx ds → ∀ s : Supply,
    ∃ f t, Yields (allCode g (resolveAll ctx ds)) s f t
  | [] => by
    intro _ s
    exact ⟨_, _, yields_allCode_nil.mpr ⟨rfl, rfl⟩⟩
  | d :: ds => by
    intro typed s
    cases typed with
    | cons head tail =>
      obtain ⟨f, u, one⟩ := lowers d head s
      obtain ⟨e, t, rest⟩ := lowersAll ds tail u
      exact ⟨_, _, yields_allCode_cons.mpr ⟨f, e, u, one, rest, rfl⟩⟩

end

end Decl

namespace Program

theorem lowers {p : Program} {ty : Ty} (typed : p.Typed ty) (g : Word) :
    ∃ f t, Yields (p.resolve.program.code g) {} f t := by
  obtain ⟨decls, u, first⟩ := Decl.lowersAll (g := g) p.decls typed.decls {}
  obtain ⟨c, t, second⟩ := Expr.lowers (g := g) p.body typed.body u
  exact ⟨_, _, yields_code.mpr ⟨decls, c, u, first, second, rfl⟩⟩

/-- Compilation ends with a compilation for every program whose declared types are known: with
machine words exactly if nothing is reported, and then with a known type. A part that the check
skips comes with a scope fault. -/
theorem compile_total (p : Program) (options : Options)
    (types : ∀ ty ∈ p.declaredTypes, ty.containsIncomplete = false) :
    ∃ c, p.compile options = .ok c ∧ (c.image.isSome = true ↔ c.report.isEmpty = true) ∧
      (c.report.isEmpty = true → ∃ ty, c.ty = some ty ∧ ty.isIncomplete = false) ∧
      (p.resolve.errors = [] →
        .incomplete ∉ (p.resolve.program.check p.resolve.inheritance).findings) := by
  unfold Program.compile
  cases silent : p.report.isEmpty with
  | false => exact ⟨_, rfl, by simp [silent], by simp [silent], check_settled types⟩
  | true =>
    obtain ⟨ty, typed, checked⟩ := typed_of_report types silent
    obtain ⟨f, t, done⟩ := lowers typed (Word.ofSize options.memorySize)
    obtain ⟨image, laid, _⟩ := layout_code done
    have words : p.resolve.program.lower options.memorySize = .ok image := by
      rw [lower_eq done, laid]
    refine ⟨⟨p.resolve.program, p.report, some image, some ty⟩, ?_, by simp [silent], ?_,
      check_settled types⟩
    · simp [words, checked, bind, Except.bind]
    · intro _
      exact ⟨ty, rfl, typed.body.isIncomplete_eq (context_known types)⟩

/-- Two classes, the second overriding a method of the first, and a call through a variable whose
node still carries a use from elsewhere. -/
def staleSend : Program where
  decls := [
    .cls ⟨1, "A", none, [⟨1, "x", .int, 5⟩],
      [⟨⟨2, "get", .int, [], [], .id 2 ⟨"x", none⟩⟩, 0⟩], none, none⟩,
    .cls ⟨3, "B", some "A", [⟨3, "y", .bool, 0⟩],
      [⟨⟨4, "get", .int, [], [], .binary 4 .add (.id 4 ⟨"x", none⟩) (.int 4 1)⟩, 7⟩], none, none⟩,
    .var ⟨5, "b", .ref "A", .new 5 "B" [.int 5 1, .bool 5 true] none⟩]
  body := .send 6 ⟨"b", some ⟨⟨3, .incomplete, 9⟩, 0⟩⟩ "get" [] none

theorem compile_total_staleSend :
    (∀ ty ∈ staleSend.declaredTypes, ty.containsIncomplete = false) ∧
      staleSend.report.isEmpty = true ∧
      ∃ c, staleSend.compile {} = .ok c ∧ (c.image.isSome = true ↔ c.report.isEmpty = true) ∧
        (c.report.isEmpty = true → ∃ ty, c.ty = some ty ∧ ty.isIncomplete = false) ∧
        (staleSend.resolve.errors = [] → .incomplete ∉
          (staleSend.resolve.program.check staleSend.resolve.inheritance).findings) :=
  ⟨by decide, by decide +kernel, compile_total staleSend {} (by decide)⟩

end Program

end ObjectLang
