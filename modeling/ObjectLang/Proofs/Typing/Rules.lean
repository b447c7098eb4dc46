import ObjectLang.Proofs.Subtyping
import ObjectLang.Scope.Resolve
import ObjectLang.Typing.Program

/-!
Typing rules for trees as they are written, before scope resolution. A rule looks names up in the
context itself, so a derivation shows at every node what its names mean. The check of a resolved
expression is sound for these rules: if its scope faults are none and it has a type, then the
expression has that type by the rules.
-/
namespace ObjectLang

def Ty.isValue : Ty → Bool
  | .int | .bool | .null | .ref _ => true
  | _ => false

def Context.memberOf (ctx : Context) (object member : String) (b : Binding) : Prop :=
  ∃ receiver cls table, ctx.scopes.lookup object = some receiver ∧ receiver.ty = .ref cls ∧
    ctx.classes.find? cls = some table ∧ table.find? member = some b

namespace Expr

mutual

inductive Typed (h : Inheritance) (ctx : Context) : Expr → Ty → Prop
  | int {line value} : Typed h ctx (.int line value) .int
  | bool {line value} : Typed h ctx (.bool line value) .bool
  | null {line} : Typed h ctx (.null line) .null
  | id {line ident b} (found : ctx.scopes.lookup ident.name = some b)
      (alone : b.ty.isValue = true) : Typed h ctx (.id line ident) b.ty
  | call {line callee args b sig} (found : ctx.scopes.lookup callee.name = some b)
      (callable : b.ty.signature? = some sig) (typed : TypedArgs h ctx sig.params args) :
      Typed h ctx (.call line callee args) sig.ret
  | binary {line op lhs rhs left right} (first : Typed h ctx lhs left)
      (second : Typed h ctx rhs right) (accepted : op.accepts h left right = true) :
      Typed h ctx (.binary line op lhs rhs) op.result
  | not {line operand ty} (typed : Typed h ctx operand ty) (bool : ty.subtype h .bool = true) :
      Typed h ctx (.not line operand) .bool
  | cond {line test yes no ty left right result} (typed : Typed h ctx test ty)
      (bool : ty.subtype h .bool = true) (first : Typed h ctx yes left)
      (second : Typed h ctx no right) (joined : left.join h right = some result) :
      Typed h ctx (.cond line test yes no) result
  | print {line operand ty} (typed : Typed h ctx operand ty) :
      Typed h ctx (.print line operand) ty
  | new {line cls args binding b layout} (found : ctx.scopes.lookupGlobal cls = some b)
      (isClass : b.ty = .cls layout) (typed : TypedArgs h ctx layout.fields args) :
      Typed h ctx (.new line cls args binding) (.ref cls)
  | send {line object method args binding b sig} (found : ctx.memberOf object.name method b)
      (isMethod : b.ty = .method sig) (typed : TypedArgs h ctx sig.params args) :
      Typed h ctx (.send line object method args binding) sig.ret
  | get {line object field binding b} (found : ctx.memberOf object.name field b)
      (isField : b.ty.isMethod = false) : Typed h ctx (.get line object field binding) b.ty

inductive TypedArgs (h : Inheritance) (ctx : Context) : List Ty → List Expr → Prop
  | nil : TypedArgs h ctx [] []
  | cons {formal formals arg args ty} (typed : Typed h ctx arg ty)
      (fits : ty.subtype h formal = true) (rest : TypedArgs h ctx formals args) :
      TypedArgs h ctx (formal :: formals) (arg :: args)

end

end Expr

theorem Ident.scopeErrors_eq_nil {s : Scopes} {kind : NameKind} {line : Line} {i : Ident} :
    i.scopeErrors s kind line = [] ↔ ∃ b, s.lookup i.name = some b := by
  unfold Ident.scopeErrors
  cases s.lookup i.name <;> simp

@[simp] theorem Ident.resolve_name {s : Scopes} {i : Ident} : (i.resolve s).name = i.name := rfl

theorem Ident.resolve_use {s : Scopes} {i : Ident} {b : Binding} (found : s.lookup i.name = some b) :
    (i.resolve s).use = some ⟨b, s.level⟩ := by
  simp [Ident.resolve, Scopes.use?, found]

theorem Context.member_found {ctx : Context} {object : Ident} {member : String} {line : Line}
    (clean : object.scopeErrors ctx.scopes .var line = [])
    (known : (ctx.member (object.resolve ctx.scopes) member).errors object.name member line = []) :
    ∃ b, ctx.member (object.resolve ctx.scopes) member = .found b ∧
      ctx.memberOf object.name member b := by
  obtain ⟨receiver, found⟩ := Ident.scopeErrors_eq_nil.mp clean
  unfold Context.member at known ⊢
  rw [Ident.resolve_use found] at known ⊢
  cases shape : receiver.ty with
  | ref cls =>
    simp only [shape] at known ⊢
    cases entry : (ctx.classes.find? cls).bind fun table => table.find? member with
    | none => simp [entry, MemberLookup.errors] at known
    | some b =>
      obtain ⟨table, listed, isMember⟩ := Option.bind_eq_some_iff.mp entry
      exact ⟨b, rfl, receiver, cls, table, found, shape, listed, isMember⟩
  | _ => simp [shape, MemberLookup.errors] at known

theorem Context.member_of_memberOf {ctx : Context} {object : Ident} {member : String} {b : Binding}
    (found : ctx.memberOf object.name member b) :
    ctx.member (object.resolve ctx.scopes) member = .found b := by
  obtain ⟨receiver, cls, table, known, shape, listed, entry⟩ := found
  simp [Context.member, Ident.resolve_use known, shape, listed, entry]

theorem Except.bind_eq_ok {ε α β : Type} {x : Except ε α} {f : α → Except ε β} {b : β} :
    (x >>= f) = .ok b ↔ ∃ a, x = .ok a ∧ f a = .ok b := by
  cases x with
  | error e => simp [bind, Except.bind]
  | ok a => simp [bind, Except.bind]

theorem Ty.settled_eq_ok {ty result : Ty} :
    ty.settled = .ok result ↔ ty.isIncomplete = false ∧ result = ty := by
  unfold Ty.settled
  cases ty.isIncomplete with
  | true => simp
  | false => simp [eq_comm]

theorem checkArity_eq_ok {callee : String} {line : Line} {expected found : Nat} {done : Unit} :
    checkArity callee line expected found = .ok done ↔ expected = found := by
  unfold checkArity
  split <;> simp_all

theorem Ident.typeOf_eq_ok {line : Line} {i : Ident} {use : Use} {ty : Ty} (used : i.use = some use)
    (typed : i.typeOf line = .ok ty) (known : ty.isIncomplete = false) :
    use.binding.ty = ty ∧ ty.isValue = true := by
  unfold Ident.typeOf at typed
  rw [used] at typed
  cases shape : use.binding.ty with
  | arrow | method | cls => simp [shape] at typed
  | incomplete =>
    simp only [shape, Except.ok.injEq] at typed
    subst typed
    cases known
  | _ =>
    simp only [shape, Except.ok.injEq] at typed
    subst typed
    exact ⟨rfl, rfl⟩

namespace Expr

variable {h : Inheritance} {ctx : Context}

mutual

theorem typed_of_typeOf : (e : Expr) → ∀ {ty : Ty}, e.scopeErrors ctx = [] →
    (e.resolve ctx).typeOf h = .ok ty → Typed h ctx e ty
  | .int _ _ => by
    intro _ typed
    cases typed
    exact .int
  | .bool _ _ => by
    intro _ typed
    cases typed
    exact .bool
  | .null _ => by
    intro _ typed
    cases typed
    exact .null
  | .id line ident => by
    intro clean typed
    obtain ⟨b, found⟩ := Ident.scopeErrors_eq_nil.mp clean
    simp only [resolve, typeOf, Except.bind_eq_ok, Ty.settled_eq_ok] at typed
    obtain ⟨_, typed, known, rfl⟩ := typed
    obtain ⟨same, alone⟩ := Ident.typeOf_eq_ok (Ident.resolve_use found) typed known
    subst same
    exact .id found alone
  | .call line callee args => by
    intro clean typed
    simp only [scopeErrors, List.append_eq_nil_iff] at clean
    obtain ⟨b, found⟩ := Ident.scopeErrors_eq_nil.mp clean.1
    simp only [resolve, typeOf, Ident.resolve_use found] at typed
    cases callable : b.ty.signature? with
    | none => simp [callable] at typed
    | some sig =>
      simp only [callable, Except.bind_eq_ok, checkArity_eq_ok, Ty.settled_eq_ok] at typed
      obtain ⟨_, arity, _, checked, _, rfl⟩ := typed
      exact .call found callable (typedArgs_of_checkArgs args clean.2 arity checked)
  | .binary line op lhs rhs => by
    intro clean typed
    simp only [scopeErrors, List.append_eq_nil_iff] at clean
    simp only [resolve, typeOf, Except.bind_eq_ok] at typed
    obtain ⟨left, first, right, second, typed⟩ := typed
    split at typed
    · rename_i accepted
      cases typed
      exact .binary (typed_of_typeOf lhs clean.1 first) (typed_of_typeOf rhs clean.2 second)
        accepted
    · cases typed
  | .not line operand => by
    intro clean typed
    simp only [resolve, typeOf, Except.bind_eq_ok] at typed
    obtain ⟨inner, first, typed⟩ := typed
    split at typed
    · rename_i isBool
      cases typed
      exact .not (typed_of_typeOf operand clean first) isBool
    · cases typed
  | .cond line test yes no => by
    intro clean typed
    simp only [scopeErrors, List.append_eq_nil_iff] at clean
    simp only [resolve, typeOf, Except.bind_eq_ok] at typed
    obtain ⟨inner, first, typed⟩ := typed
    split at typed
    · rename_i isBool
      simp only [Except.bind_eq_ok] at typed
      obtain ⟨left, second, right, third, typed⟩ := typed
      split at typed
      · rename_i result joined
        cases typed
        exact .cond (typed_of_typeOf test clean.1.1 first) isBool
          (typed_of_typeOf yes clean.1.2 second) (typed_of_typeOf no clean.2 third) joined
      · cases typed
    · cases typed
  | .print line operand => by
    intro clean typed
    exact .print (typed_of_typeOf operand clean typed)
  | .new line cls args binding => by
    intro clean typed
    simp only [scopeErrors, List.append_eq_nil_iff] at clean
    cases found : ctx.scopes.lookupGlobal cls with
    | none => simp [found] at clean
    | some b =>
      simp only [resolve, found, Option.some_or, typeOf] at typed
      cases shape : b.ty with
      | cls layout =>
        simp only [shape, Except.bind_eq_ok, checkArity_eq_ok] at typed
        obtain ⟨_, arity, _, checked, typed⟩ := typed
        cases typed
        exact .new found shape (typedArgs_of_checkArgs args clean.2 arity checked)
      | _ => simp [shape] at typed
  | .send line object method args binding => by
    intro clean typed
    simp only [scopeErrors, List.append_eq_nil_iff] at clean
    obtain ⟨b, found, member⟩ := Context.member_found clean.1.1 clean.1.2
    simp only [resolve, found, MemberLookup.binding?, typeOf] at typed
    cases shape : b.ty with
    | method sig =>
      simp only [shape, Except.bind_eq_ok, checkArity_eq_ok, Ty.settled_eq_ok] at typed
      obtain ⟨_, arity, _, checked, _, rfl⟩ := typed
      exact .send member shape (typedArgs_of_checkArgs args clean.2 arity checked)
    | _ => simp [shape] at typed
  | .get line object field binding => by
    intro clean typed
    simp only [scopeErrors, List.append_eq_nil_iff] at clean
    obtain ⟨b, found, member⟩ := Context.member_found clean.1 clean.2
    simp only [resolve, found, MemberLookup.binding?, typeOf] at typed
    split at typed
    · cases typed
    · rename_i isField
      obtain ⟨_, rfl⟩ := Ty.settled_eq_ok.mp typed
      exact .get member (by simpa using isField)

theorem typedArgs_of_checkArgs : (args : List Expr) →
    ∀ {callee : String} {line : Line} {index : Nat} {formals : List Ty} {done : Unit},
      allScopeErrors ctx args = [] → formals.length = (resolveAll ctx args).length →
      checkArgs h callee line index formals (resolveAll ctx args) = .ok done →
      TypedArgs h ctx formals args
  | [] => by
    rename_i formals _
    intro _ arity _
    cases formals with
    | nil => exact .nil
    | cons formal formals => simp [resolveAll] at arity
  | arg :: args => by
    rename_i formals _
    intro clean arity checked
    simp only [allScopeErrors, List.append_eq_nil_iff] at clean
    cases formals with
    | nil => simp [resolveAll] at arity
    | cons formal formals =>
      simp only [resolveAll, List.length_cons, Nat.add_right_cancel_iff] at arity
      simp only [resolveAll, checkArgs, Except.bind_eq_ok] at checked
      obtain ⟨ty, first, checked⟩ := checked
      split at checked
      · rename_i fits
        exact .cons (typed_of_typeOf arg clean.1 first) fits
          (typedArgs_of_checkArgs args clean.2 arity checked)
      · cases checked

end

end Expr

end ObjectLang
