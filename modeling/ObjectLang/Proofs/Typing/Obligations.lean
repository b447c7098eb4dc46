import ObjectLang.Proofs.Typing.Declarations

/-!
The check of a program as a list of obligations, one for each variable, each function or method,
each own member of a class and the body of the program, in the order of the tree. An obligation
holds all that its outcome depends on, apart from the inheritance, and gives rise to one error at
most. The errors of a program are those of its obligations; so an error in one part of a tree cannot
hide or change one in another part.
-/
namespace ObjectLang

inductive Obligation where
  /-- The initial value of a variable has the type of the variable. -/
  | initial (decl : VarDecl)
  /-- The body of a function or method has the type of its result. -/
  | result (line : Line) (name : String) (ret : Ty) (body : Expr)
  /-- A member of a class has the type of the member whose offset it takes over, if there is one. -/
  | override (cls member : String) (line : Line) (own : Ty) (inherited : Option Ty)
  /-- The body of the program has some type. -/
  | main (body : Expr)

/-- The error of an obligation that is not met. A part that scope resolution has not settled gives
none. -/
def Obligation.error? (h : Inheritance) : Obligation → Option TypeError
  | .initial decl =>
    match decl.init.typeOf h with
    | .error finding => finding.error?
    | .ok ty =>
      if decl.ty.containsIncomplete || ty.subtype h decl.ty then none
      else some (.incompatibleValue decl.name decl.line)
  | .result line name ret body =>
    match body.typeOf h with
    | .error finding => finding.error?
    | .ok ty => if ty.subtype h ret then none else some (.wrongReturnType name line)
  | .override cls member line own inherited =>
    if inherited.all fun old => own.subtype h old then none
    else some (.badOverride cls member line)
  | .main body =>
    match body.typeOf h with
    | .error finding => finding.error?
    | .ok _ => none

def Routine.obligation (r : Routine) : Obligation := .result r.line r.name r.ret r.body

def Field.obligation (cls : String) (inherited : Option Layout) (f : Field) : Obligation :=
  .override cls f.name f.line f.ty (inherited.bind fun l => l.fieldAt? f.offset)

def Method.obligation (cls : String) (inherited : Option Layout) (m : Method) : Obligation :=
  .override cls m.name m.routine.line (.method m.routine.signature)
    ((inherited.bind fun l => l.methodAt? m.offset).map Ty.method)

def ClassDecl.memberObligations (c : ClassDecl) : List Obligation :=
  c.fields.map (Field.obligation c.name c.parentLayout?) ++
    c.methods.map (Method.obligation c.name c.parentLayout?)

namespace Decl

mutual

def obligations : Decl → List Obligation
  | .var decl => [.initial decl]
  | .fn routine => routineObligations routine
  | .cls ⟨line, name, parent, fields, methods, binding, parentBinding⟩ =>
    methodsObligations methods ++
      ClassDecl.memberObligations ⟨line, name, parent, fields, methods, binding, parentBinding⟩

def routineObligations : Routine → List Obligation
  | ⟨line, name, ret, _, locals, body⟩ => allObligations locals ++ [.result line name ret body]

def methodsObligations : List Method → List Obligation
  | [] => []
  | ⟨routine, _⟩ :: methods => routineObligations routine ++ methodsObligations methods

def allObligations : List Decl → List Obligation
  | [] => []
  | d :: ds => obligations d ++ allObligations ds

end

end Decl

def Program.obligations (p : Program) : List Obligation :=
  Decl.allObligations p.decls ++ [.main p.body]

/-! The check finds what the obligations say. -/

def Finding.errors (found : List Finding) : List TypeError := found.filterMap Finding.error?

def Obligation.errors (h : Inheritance) (obligations : List Obligation) : List TypeError :=
  obligations.filterMap (Obligation.error? h)

@[simp] theorem Finding.errors_append (found more : List Finding) :
    errors (found ++ more) = errors found ++ errors more := List.filterMap_append

@[simp] theorem Obligation.errors_append (h : Inheritance) (os more : List Obligation) :
    errors h (os ++ more) = errors h os ++ errors h more := List.filterMap_append

@[simp] theorem Obligation.errors_singleton (h : Inheritance) (o : Obligation) :
    errors h [o] = (o.error? h).toList := by
  cases met : o.error? h <;> simp [errors, met]

theorem Finding.errors_ofCheck (check : Except Finding Unit) :
    errors (ofCheck check) =
      (match check with | .ok _ => none | .error finding => finding.error?).toList := by
  cases check with
  | ok done => rfl
  | error finding => cases finding <;> rfl

theorem Finding.errors_flatMap {α : Type} {h : Inheritance} {find : α → List Finding}
    {owed : α → Obligation} (each : ∀ a, errors (find a) = Obligation.errors h [owed a])
    (parts : List α) : errors (parts.flatMap find) = Obligation.errors h (parts.map owed) := by
  induction parts with
  | nil => rfl
  | cons a parts ih =>
    rw [List.flatMap_cons, errors_append, each, ih, ← Obligation.errors_append]
    rfl

theorem VarDecl.errors_check (h : Inheritance) (decl : VarDecl) :
    Finding.errors (Finding.ofCheck (decl.check h)) = Obligation.errors h [.initial decl] := by
  rw [Finding.errors_ofCheck, Obligation.errors_singleton, Obligation.error?, VarDecl.check]
  cases decl.init.typeOf h with
  | error finding => rfl
  | ok ty =>
    simp only [bind, Except.bind]
    cases decl.ty.containsIncomplete with
    | true => rfl
    | false => cases ty.subtype h decl.ty <;> rfl

theorem Routine.errors_checkResult (h : Inheritance) (r : Routine) :
    Finding.errors (Finding.ofCheck (r.checkResult h)) = Obligation.errors h [r.obligation] := by
  rw [Finding.errors_ofCheck, Obligation.errors_singleton, obligation, Obligation.error?,
    Routine.checkResult]
  cases r.body.typeOf h with
  | error finding => rfl
  | ok ty =>
    simp only [bind, Except.bind]
    cases ty.subtype h r.ret <;> rfl

theorem Obligation.errors_override (h : Inheritance) (cls member : String) (line : Line) (own : Ty)
    (inherited : Option Ty) :
    Finding.errors (match inherited with
      | none => []
      | some old => if own.subtype h old then [] else [.error (.badOverride cls member line)]) =
      errors h [.override cls member line own inherited] := by
  rw [errors_singleton, error?]
  cases inherited with
  | none => rfl
  | some old =>
    simp only [Option.all_some]
    split <;> rfl

namespace ClassDecl

theorem errors_fieldFindings (h : Inheritance) (c : ClassDecl) {inherited : Layout}
    (parent : c.parentLayout? = some inherited) (f : Field) :
    Finding.errors (c.fieldFindings h inherited f) =
      Obligation.errors h [f.obligation c.name c.parentLayout?] := by
  rw [Field.obligation, parent, Option.bind_some, ← Obligation.errors_override]
  rfl

theorem errors_methodFindings (h : Inheritance) (c : ClassDecl) {inherited : Layout}
    (parent : c.parentLayout? = some inherited) (m : Method) :
    Finding.errors (c.methodFindings h inherited m) =
      Obligation.errors h [m.obligation c.name c.parentLayout?] := by
  rw [Method.obligation, parent, Option.bind_some, ← Obligation.errors_override, methodFindings]
  cases inherited.methodAt? m.offset <;> rfl

theorem errors_memberObligations_root (h : Inheritance) {c : ClassDecl}
    (root : c.parentLayout? = none) : Obligation.errors h c.memberObligations = [] := by
  refine List.filterMap_eq_nil_iff.mpr fun o listed => ?_
  rcases List.mem_append.mp listed with field | method
  · obtain ⟨f, _, rfl⟩ := List.mem_map.mp field
    simp [Field.obligation, Obligation.error?, root]
  · obtain ⟨m, _, rfl⟩ := List.mem_map.mp method
    simp [Method.obligation, Obligation.error?, root]

theorem errors_overrideFindings (h : Inheritance) (c : ClassDecl) :
    Finding.errors (c.overrideFindings h) = Obligation.errors h c.memberObligations := by
  unfold overrideFindings
  cases parent : c.parentLayout? with
  | none => exact (errors_memberObligations_root h parent).symm
  | some inherited =>
    rw [memberObligations, Obligation.errors_append, Finding.errors_append,
      Finding.errors_flatMap (c.errors_fieldFindings h parent),
      Finding.errors_flatMap (c.errors_methodFindings h parent)]

end ClassDecl

namespace Decl

variable {h : Inheritance}

theorem obligations_cls (c : ClassDecl) :
    (Decl.cls c).obligations = methodsObligations c.methods ++ c.memberObligations := by
  cases c
  rfl

theorem routineObligations_eq (r : Routine) :
    routineObligations r = allObligations r.locals ++ [r.obligation] := by
  cases r
  rfl

mutual

theorem errors_findings : (d : Decl) →
    Finding.errors (d.findings h) = Obligation.errors h d.obligations
  | .var decl => decl.errors_check h
  | .fn routine => errors_routineFindings routine
  | .cls ⟨line, name, parent, fields, methods, binding, parentBinding⟩ => by
    rw [findings, obligations, Finding.errors_append, Obligation.errors_append,
      errors_methodsFindings methods, ClassDecl.errors_overrideFindings]

theorem errors_routineFindings : (r : Routine) →
    Finding.errors (routineFindings h r) = Obligation.errors h (routineObligations r)
  | ⟨line, name, ret, params, locals, body⟩ => by
    rw [routineFindings, routineObligations, Finding.errors_append, Obligation.errors_append,
      errors_allFindings locals, Routine.errors_checkResult]
    rfl

theorem errors_methodsFindings : (methods : List Method) →
    Finding.errors (methodsFindings h methods) = Obligation.errors h (methodsObligations methods)
  | [] => rfl
  | ⟨routine, _⟩ :: methods => by
    rw [methodsFindings, methodsObligations, Finding.errors_append, Obligation.errors_append,
      errors_routineFindings routine, errors_methodsFindings methods]

theorem errors_allFindings : (ds : List Decl) →
    Finding.errors (allFindings h ds) = Obligation.errors h (allObligations ds)
  | [] => rfl
  | d :: ds => by
    rw [allFindings, allObligations, Finding.errors_append, Obligation.errors_append,
      errors_findings d, errors_allFindings ds]

end

end Decl

theorem Program.errors_check (h : Inheritance) (p : Program) :
    (p.check h).errors = Obligation.errors h p.obligations := by
  have decls := Decl.errors_allFindings (h := h) p.decls
  rw [obligations, Obligation.errors_append, ← decls, Obligation.errors_singleton,
    Obligation.error?]
  show Finding.errors (p.check h).findings = _
  unfold Program.check
  cases p.body.typeOf h with
  | ok ty => simp
  | error finding =>
    rw [Finding.errors_append]
    cases finding <;> rfl

/-! Other declarations in the place of one. -/

/-- The place of a declaration: in a list of declarations, or among the locals of a function or of a
method that is declared there. -/
inductive DeclSite where
  | here (index : Nat)
  | inside (index : Nat) (site : DeclSite)
  | method (index position : Nat) (site : DeclSite)

def Routine.mapLocals (change : List Decl → List Decl) (r : Routine) : Routine :=
  { r with locals := change r.locals }

namespace DeclSite

def decl? : DeclSite → List Decl → Option Decl
  | .here index, ds => ds[index]?
  | .inside index site, ds =>
    match ds[index]? with
    | some (.fn r) => site.decl? r.locals
    | _ => none
  | .method index position site, ds =>
    match ds[index]? with
    | some (.cls c) => c.methods[position]?.bind fun m => site.decl? m.routine.locals
    | _ => none

def put (new : Decl) : DeclSite → List Decl → List Decl
  | .here index, ds => ds.modify index fun _ => new
  | .inside index site, ds =>
    ds.modify index fun
      | .fn r => .fn (r.mapLocals (site.put new))
      | d => d
  | .method index position site, ds =>
    ds.modify index fun
      | .cls c => .cls { c with methods := c.methods.modify position fun m =>
          ⟨m.routine.mapLocals (site.put new), m.offset⟩ }
      | d => d

end DeclSite

namespace Decl

theorem allObligations_eq (ds : List Decl) : allObligations ds = ds.flatMap obligations := by
  induction ds with
  | nil => rfl
  | cons d ds ih => rw [allObligations, ih, List.flatMap_cons]

theorem methodsObligations_eq (methods : List Method) :
    methodsObligations methods = methods.flatMap fun m => routineObligations m.routine := by
  induction methods with
  | nil => rfl
  | cons m methods ih =>
    obtain ⟨routine, offset⟩ := m
    rw [methodsObligations, ih, List.flatMap_cons]

theorem flatMap_modify {α β : Type} {items : List α} {index : Nat} {a : α}
    (listed : items[index]? = some a) (f : α → α) (g : α → List β) :
    (items.modify index f).flatMap g =
      (items.take index).flatMap g ++ g (f a) ++ (items.drop (index + 1)).flatMap g := by
  obtain ⟨bound, rfl⟩ := List.getElem?_eq_some_iff.mp listed
  rw [List.modify_eq_take_cons_drop bound, List.flatMap_append, List.flatMap_cons,
    List.append_assoc]

def Surrounded (owed : Decl → List Obligation) : Prop :=
  ∃ before after, ∀ d, owed d = before ++ d.obligations ++ after

theorem Surrounded.append {owed : Decl → List Obligation} (inner : Surrounded owed)
    (first last : List Obligation) : Surrounded fun d => first ++ owed d ++ last := by
  obtain ⟨before, after, eq⟩ := inner
  exact ⟨first ++ before, after ++ last, fun d => by simp [eq]⟩

theorem Surrounded.routine {change : Decl → List Decl → List Decl} {r : Routine}
    (inner : Surrounded fun d => allObligations (change d r.locals)) :
    Surrounded fun d => routineObligations (r.mapLocals (change d)) := by
  simp only [routineObligations_eq]
  exact inner.append [] [r.obligation]

/-- The members of a class owe the same whatever is declared inside its methods. -/
theorem memberObligations_modify (c : ClassDecl) (position : Nat)
    (change : List Decl → List Decl) :
    ClassDecl.memberObligations { c with methods := c.methods.modify position fun m =>
      ⟨m.routine.mapLocals change, m.offset⟩ } = c.memberObligations := by
  have methods : (c.methods.modify position fun m =>
      ⟨m.routine.mapLocals change, m.offset⟩).map (Method.obligation c.name c.parentLayout?) =
        c.methods.map (Method.obligation c.name c.parentLayout?) := by
    apply List.ext_getElem?
    intro i
    rw [List.getElem?_map, List.getElem?_map, List.getElem?_modify]
    cases c.methods[i]? with
    | none => rfl
    | some m =>
      simp only [Functor.map, Option.map_some]
      split <;> rfl
  exact congrArg (c.fields.map (Field.obligation c.name c.parentLayout?) ++ ·) methods

theorem surrounded_put {site : DeclSite} {ds : List Decl} {d : Decl}
    (found : site.decl? ds = some d) : Surrounded fun new => allObligations (site.put new ds) := by
  induction site generalizing ds with
  | here index =>
    have listed : ds[index]? = some d := found
    simp only [DeclSite.put, allObligations_eq, flatMap_modify listed]
    exact ⟨_, _, fun _ => rfl⟩
  | inside index site ih =>
    rw [DeclSite.decl?] at found
    split at found
    · rename_i r listed
      simp only [DeclSite.put, allObligations_eq, flatMap_modify listed]
      exact (ih found).routine.append _ _
    · cases found
  | method index position site ih =>
    rw [DeclSite.decl?] at found
    split at found
    · rename_i c listed
      obtain ⟨m, declared, found⟩ := Option.bind_eq_some_iff.mp found
      simp only [DeclSite.put, allObligations_eq, flatMap_modify listed, obligations_cls,
        memberObligations_modify, methodsObligations_eq, flatMap_modify declared]
      exact (((ih found).routine.append _ _).append [] _).append _ _
    · cases found

theorem modify_same {α : Type} {items : List α} {index : Nat} {a : α} {f : α → α}
    (listed : items[index]? = some a) (same : f a = a) : items.modify index f = items := by
  apply List.ext_getElem?
  intro i
  rw [List.getElem?_modify]
  by_cases here : index = i
  · subst here
    simp [listed, same]
  · simp [here]

theorem mapLocals_same {change : List Decl → List Decl} {r : Routine}
    (same : change r.locals = r.locals) : r.mapLocals change = r := by
  rw [Routine.mapLocals, same]
  cases r
  rfl

theorem put_self {site : DeclSite} {ds : List Decl} {d : Decl} (found : site.decl? ds = some d) :
    site.put d ds = ds := by
  induction site generalizing ds with
  | here index => exact modify_same found rfl
  | inside index site ih =>
    rw [DeclSite.decl?] at found
    split at found
    · rename_i r listed
      exact modify_same listed (congrArg Decl.fn (mapLocals_same (ih found)))
    · cases found
  | method index position site ih =>
    rw [DeclSite.decl?] at found
    split at found
    · rename_i c listed
      obtain ⟨m, declared, found⟩ := Option.bind_eq_some_iff.mp found
      have kept : (⟨m.routine.mapLocals (site.put d), m.offset⟩ : Method) = m := by
        rw [mapLocals_same (ih found)]
        cases m
        rfl
      have methods : (c.methods.modify position fun m =>
          ⟨m.routine.mapLocals (site.put d), m.offset⟩) = c.methods := modify_same declared kept
      refine modify_same listed ?_
      simp only [methods]
      cases c
      rfl
    · cases found

end Decl

/-! Errors by declaration. -/

def Decl.errors (h : Inheritance) (d : Decl) : List TypeError := Obligation.errors h d.obligations

def Routine.errors (h : Inheritance) (r : Routine) : List TypeError :=
  Obligation.errors h (Decl.routineObligations r)

namespace Obligation

variable {h : Inheritance}

theorem errors_flatMap {α : Type} (parts : List α) (owed : α → List Obligation) :
    errors h (parts.flatMap owed) = parts.flatMap fun a => errors h (owed a) :=
  List.filterMap_flatMap

theorem errors_map {α : Type} (parts : List α) (owed : α → Obligation) :
    errors h (parts.map owed) = parts.filterMap fun a => (owed a).error? h :=
  List.filterMap_map

end Obligation

theorem Routine.errors_eq (h : Inheritance) (r : Routine) :
    r.errors h = r.locals.flatMap (Decl.errors h) ++ (r.obligation.error? h).toList := by
  rw [errors, Decl.routineObligations_eq, Obligation.errors_append, Obligation.errors_singleton,
    Decl.allObligations_eq, Obligation.errors_flatMap]
  rfl

theorem Decl.errors_cls (h : Inheritance) (c : ClassDecl) :
    (Decl.cls c).errors h = c.methods.flatMap (fun m => m.routine.errors h) ++
      (c.fields.filterMap (fun f => (f.obligation c.name c.parentLayout?).error? h) ++
        c.methods.filterMap fun m => (m.obligation c.name c.parentLayout?).error? h) := by
  rw [errors, obligations_cls, Obligation.errors_append, methodsObligations_eq,
    Obligation.errors_flatMap, ClassDecl.memberObligations, Obligation.errors_append,
    Obligation.errors_map, Obligation.errors_map]
  rfl

theorem Obligation.eq_badOverride {h : Inheritance} {cls member : String} {line : Line} {own : Ty}
    {inherited : Option Ty} {e : TypeError}
    (unmet : (override cls member line own inherited).error? h = some e) :
    e = .badOverride cls member line := by
  rw [error?] at unmet
  split at unmet
  · cases unmet
  · exact (Option.some.inj unmet).symm

namespace Program

def put (p : Program) (site : DeclSite) (new : Decl) : Program := ⟨site.put new p.decls, p.body⟩

theorem ty_check_eq_none {h : Inheritance} {p : Program} :
    (p.check h).ty = none ↔ (∃ e, (Obligation.main p.body).error? h = some e) ∨
      p.body.typeOf h = .error .incomplete := by
  cases typed : p.body.typeOf h with
  | ok ty => simp [check, Obligation.error?, typed]
  | error finding => cases finding <;> simp [check, Obligation.error?, typed, Finding.error?]

theorem ty_check_put (h : Inheritance) (p : Program) (site : DeclSite) (new : Decl) :
    ((p.put site new).check h).ty = (p.check h).ty := by
  unfold check put
  cases p.body.typeOf h <;> rfl

/-- Errors are found part by part, and no part hides another. The errors of a program are those of
its declarations in order, then one at most for its body. A variable has one error at most. A
function or method has those of its locals in order, then one at most for its own body. A class has
those of its methods in order, then for each own field and after that for each own method one at
most, about the override. No type is given exactly if the body has an error or is not settled. With
another declaration in the place of one, wherever it stands, all other obligations and their errors
are the same, and so is the type. -/
theorem check_errors_local (h : Inheritance) (p : Program) :
    (p.check h).errors = p.decls.flatMap (Decl.errors h) ++
      ((Obligation.main p.body).error? h).toList ∧
    (∀ decl : VarDecl, (Decl.var decl).errors h = ((Obligation.initial decl).error? h).toList) ∧
    (∀ r : Routine, (Decl.fn r).errors h = r.errors h ∧
      r.errors h = r.locals.flatMap (Decl.errors h) ++ (r.obligation.error? h).toList) ∧
    (∀ c : ClassDecl, (Decl.cls c).errors h = c.methods.flatMap (fun m => m.routine.errors h) ++
      (c.fields.filterMap (fun f => (f.obligation c.name c.parentLayout?).error? h) ++
        c.methods.filterMap fun m => (m.obligation c.name c.parentLayout?).error? h)) ∧
    (∀ (cls : String) (inherited : Option Layout) (e : TypeError),
      (∀ f : Field, (f.obligation cls inherited).error? h = some e →
        e = .badOverride cls f.name f.line) ∧
      ∀ m : Method, (m.obligation cls inherited).error? h = some e →
        e = .badOverride cls m.name m.routine.line) ∧
    ((p.check h).ty = none ↔ (∃ e, (Obligation.main p.body).error? h = some e) ∨
      p.body.typeOf h = .error .incomplete) ∧
    ∀ (site : DeclSite) (d : Decl), site.decl? p.decls = some d →
      ∃ before after, p.obligations = before ++ d.obligations ++ after ∧
        (p.check h).errors =
          Obligation.errors h before ++ d.errors h ++ Obligation.errors h after ∧
        ∀ new, ((p.put site new).check h).errors =
            Obligation.errors h before ++ new.errors h ++ Obligation.errors h after ∧
          ((p.put site new).check h).ty = (p.check h).ty := by
  refine ⟨?_, fun decl => Obligation.errors_singleton h _, fun r => ⟨rfl, r.errors_eq h⟩,
    Decl.errors_cls h, ?_, ty_check_eq_none, ?_⟩
  · rw [errors_check, obligations, Obligation.errors_append, Obligation.errors_singleton,
      Decl.allObligations_eq, Obligation.errors_flatMap]
    rfl
  · exact fun _ _ _ => ⟨fun _ => Obligation.eq_badOverride, fun _ => Obligation.eq_badOverride⟩
  · intro site d found
    obtain ⟨before, after, whole⟩ := Decl.surrounded_put found
    have owed : ∀ new, (p.put site new).obligations =
        before ++ new.obligations ++ (after ++ [.main p.body]) := by
      intro new
      simp [obligations, put, whole new]
    have same : p.put site d = p := by rw [put, Decl.put_self found]
    have errors : ∀ new, ((p.put site new).check h).errors = Obligation.errors h before ++
        new.errors h ++ Obligation.errors h (after ++ [.main p.body]) := by
      intro new
      rw [errors_check, owed, Obligation.errors_append, Obligation.errors_append]
      rfl
    have self := owed d
    have selfErrors := errors d
    rw [same] at self selfErrors
    exact ⟨before, after ++ [.main p.body], self, selfErrors, fun new =>
      ⟨errors new, ty_check_put h p site new⟩⟩

def manyFaults : Program where
  decls := [
    .var ⟨1, "x", .bool, .int 1 1⟩,
    .fn ⟨2, "f", .bool, [], [.var ⟨3, "y", .bool, .int 3 2⟩], .int 4 3⟩,
    .cls ⟨5, "A", none, [], [⟨⟨6, "m", .int, [], [
      .fn ⟨7, "g", .int, [], [.var ⟨8, "z", .bool, .int 8 4⟩], .id 9 ⟨"u", none⟩⟩],
      .not 10 (.int 10 5)⟩, 0⟩], none, none⟩]
  body := .binary 11 .and (.int 11 6) (.bool 11 true)

theorem check_errors_local_manyFaults :
    let innermost : DeclSite := .method 2 0 (.inside 0 (.here 0))
    let repaired := manyFaults.put innermost (.var ⟨8, "z", .bool, .bool 8 true⟩)
    (manyFaults.check {}).errors = [.incompatibleValue "x" 1, .incompatibleValue "y" 3,
      .wrongReturnType "f" 2, .incompatibleValue "z" 8, .mismatch "Non boolean in not" 10,
      .mismatch "Non booleans in and" 11] ∧
    (repaired.check {}).errors = [.incompatibleValue "x" 1, .incompatibleValue "y" 3,
      .wrongReturnType "f" 2, .mismatch "Non boolean in not" 10,
      .mismatch "Non booleans in and" 11] ∧
    (repaired.check {}).ty = (manyFaults.check {}).ty := by
  intro innermost repaired
  obtain ⟨_, _, _, _, _, _, replaced⟩ := check_errors_local {} manyFaults
  obtain ⟨_, _, _, _, others⟩ := replaced innermost (.var ⟨8, "z", .bool, .int 8 4⟩) rfl
  exact ⟨by decide +kernel, by decide +kernel, (others _).2⟩

end Program

end ObjectLang
