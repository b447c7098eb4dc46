import ObjectLang.Proofs.Classes.Lineage

/-!
Overrides. The check of a class knows nothing of names: it compares a member with whatever stands at
the offset of the member in the layout of the parent. Scope resolution gives a member the offset of
the inherited member of the same name, or one behind all inherited members; so what is compared is
the member with its namesake, and a member without a namesake is compared with nothing.
-/
namespace ObjectLang

def TypeError.overriding? : TypeError → Option (String × String)
  | .badOverride cls member _ => some (cls, member)
  | _ => none

def TypeError.isBadOverride (e : TypeError) : Bool := e.overriding?.isSome

def Finding.overrides (found : List Finding) : List TypeError :=
  (found.filterMap Finding.error?).filter TypeError.isBadOverride

def Ty.breaks (h : Inheritance) (inherited : Table Binding) (name : String) (ty : Ty) : Bool :=
  (inherited.find? name).any fun b => !ty.subtype h b.ty

def ClassDecl.badOverrides (h : Inheritance) (inherited : Table Binding) (c : ClassDecl) :
    List TypeError :=
  (c.fields.filter fun f => f.ty.breaks h inherited f.name).map
      (fun f => .badOverride c.name f.name f.line) ++
    (c.methods.filter fun m => (Ty.method m.routine.signature).breaks h inherited m.name).map
      fun m => .badOverride c.name m.name m.routine.line

/-- The bad overrides of a declaration, with the member tables of all classes; a class without a
parent has none. -/
def Decl.badOverrides (h : Inheritance) (classes : Table (Table Binding)) : Decl → List TypeError
  | .cls c =>
    match c.parent.bind classes.find? with
    | some inherited => c.badOverrides h inherited
    | none => []
  | _ => []

namespace Finding

@[simp] theorem overrides_nil : overrides [] = [] := rfl

@[simp] theorem overrides_append (found more : List Finding) :
    overrides (found ++ more) = overrides found ++ overrides more := by
  simp [overrides]

theorem overrides_map_error (errors : List TypeError) :
    overrides (errors.map .error) = errors.filter TypeError.isBadOverride := by
  have same : (errors.map Finding.error).filterMap Finding.error? = errors := by
    rw [List.filterMap_map]
    exact List.filterMap_some
  rw [overrides, same]

end Finding

theorem ClassDecl.overriding?_badOverrides {h : Inheritance} {inherited : Table Binding}
    (c : ClassDecl) {e : TypeError} (mem : e ∈ c.badOverrides h inherited) :
    ∃ member, e.overriding? = some (c.name, member) := by
  rcases List.mem_append.mp mem with listed | listed
  · obtain ⟨f, _, rfl⟩ := List.mem_map.mp listed
    exact ⟨f.name, rfl⟩
  · obtain ⟨m, _, rfl⟩ := List.mem_map.mp listed
    exact ⟨m.name, rfl⟩

theorem ClassDecl.overrides_badOverrides (h : Inheritance) (inherited : Table Binding)
    (c : ClassDecl) : Finding.overrides ((c.badOverrides h inherited).map .error) =
      c.badOverrides h inherited := by
  rw [Finding.overrides_map_error, List.filter_eq_self]
  intro e mem
  obtain ⟨member, about⟩ := c.overriding?_badOverrides mem
  rw [TypeError.isBadOverride, about, Option.isSome_some]

theorem Decl.overriding?_badOverrides {h : Inheritance} {classes : Table (Table Binding)} {d : Decl}
    {e : TypeError} (mem : e ∈ d.badOverrides h classes) :
    ∃ member, e.overriding? = some (d.named.1, member) := by
  cases d with
  | var | fn => cases mem
  | cls c =>
    simp only [badOverrides] at mem
    split at mem
    · exact c.overriding?_badOverrides mem
    · cases mem

theorem ClassDecl.nodup_badOverrides {h : Inheritance} {inherited : Table Binding} {c : ClassDecl}
    (distinct : c.own.Distinct) : (c.badOverrides h inherited).Nodup := by
  have names : (c.badOverrides h inherited).map TypeError.overriding? =
      ((c.fields.filter fun f => f.ty.breaks h inherited f.name).map Field.name ++
        (c.methods.filter fun m =>
          (Ty.method m.routine.signature).breaks h inherited m.name).map Method.name).map
        fun member => some (c.name, member) := by
    simp only [badOverrides, List.map_append, List.map_map]
    rfl
  have listed : c.own.map Prod.fst = c.fields.map Field.name ++ c.methods.map Method.name := by
    simp only [own, List.map_append, List.map_map]
    rfl
  rw [Roles.Distinct, listed] at distinct
  apply List.Nodup.of_map TypeError.overriding?
  rw [names]
  refine List.Nodup.map (fun _ _ same => by simpa using same) (distinct.sublist ?_)
  exact (List.filter_sublist.map _).append (List.filter_sublist.map _)

/-! Expressions. -/

def Ordinary {α : Type} (check : Except Finding α) : Prop :=
  ∀ finding, check = .error finding → Finding.overrides [finding] = []

namespace Ordinary

variable {α β : Type}

theorem ok (a : α) : Ordinary (.ok a) := by
  intro finding failed
  cases failed

theorem error {finding : Finding} (other : Finding.overrides [finding] = []) :
    Ordinary (.error finding : Except Finding α) := by
  intro found failed
  cases failed
  exact other

theorem bind {x : Except Finding α} {f : α → Except Finding β} (first : Ordinary x)
    (second : ∀ a, Ordinary (f a)) : Ordinary (x >>= f) := by
  intro finding failed
  rcases Except.bind_eq_error.mp failed with failed | ⟨a, _, failed⟩
  · exact first finding failed
  · exact second a finding failed

theorem ite {test : Prop} [Decidable test] {x y : Except Finding α} (yes : Ordinary x)
    (no : Ordinary y) : Ordinary (if test then x else y) := by
  split
  · exact yes
  · exact no

theorem settled (ty : Ty) : Ordinary ty.settled := .ite (.error rfl) (.ok _)

theorem arity (callee : String) (line : Line) (expected found : Nat) :
    Ordinary (checkArity callee line expected found) := .ite (.ok _) (.error rfl)

theorem ident (line : Line) (i : Ident) : Ordinary (i.typeOf line) := by
  unfold Ident.typeOf
  split
  · exact .error rfl
  · split
    · exact .error rfl
    · exact .error rfl
    · exact .error rfl
    · exact .ok _

theorem overrides_ofCheck {check : Except Finding Unit} (ordinary : Ordinary check) :
    Finding.overrides (Finding.ofCheck check) = [] := by
  cases check with
  | ok done => rfl
  | error finding => exact ordinary finding rfl

end Ordinary

namespace Expr

variable {h : Inheritance}

mutual

theorem ordinary_typeOf : (e : Expr) → Ordinary (e.typeOf h)
  | .int _ _ | .bool _ _ | .null _ => .ok _
  | .id line ident => .bind (.ident line ident) Ordinary.settled
  | .call line callee args => by
    unfold typeOf
    split
    · exact .error rfl
    · split
      · exact .error rfl
      · exact .bind (.arity _ _ _ _) fun _ => .bind (ordinary_checkArgs args) fun _ => .settled _
  | .binary line op lhs rhs =>
    .bind (ordinary_typeOf lhs) fun _ => .bind (ordinary_typeOf rhs) fun _ =>
      .ite (.ok _) (.error rfl)
  | .not line operand => .bind (ordinary_typeOf operand) fun _ => .ite (.ok _) (.error rfl)
  | .cond line test yes no => by
    refine .bind (ordinary_typeOf test) fun _ => .ite ?_ (.error rfl)
    refine .bind (ordinary_typeOf yes) fun _ => .bind (ordinary_typeOf no) fun _ => ?_
    split
    · exact .ok _
    · exact .error rfl
  | .print line operand => ordinary_typeOf operand
  | .new line cls args binding => by
    unfold typeOf
    split
    · exact .error rfl
    · split
      · exact .bind (.arity _ _ _ _) fun _ => .bind (ordinary_checkArgs args) fun _ => .ok _
      · exact .error rfl
  | .send line object method args binding => by
    unfold typeOf
    split
    · exact .error rfl
    · split
      · exact .bind (.arity _ _ _ _) fun _ => .bind (ordinary_checkArgs args) fun _ => .settled _
      · exact .error rfl
  | .get line object field binding => by
    unfold typeOf
    split
    · exact .error rfl
    · exact .ite (.error rfl) (.settled _)

theorem ordinary_checkArgs : (args : List Expr) → ∀ {callee : String} {line : Line} {index : Nat}
    {formals : List Ty}, Ordinary (checkArgs h callee line index formals args)
  | [] => by
    rename_i formals
    cases formals <;> exact .ok _
  | arg :: args => by
    rename_i formals
    cases formals with
    | nil => exact .ok _
    | cons formal formals =>
      exact .bind (ordinary_typeOf arg) fun _ => .ite (ordinary_checkArgs args) (.error rfl)

end

end Expr

/-! Signatures. -/

theorem Ty.supertypes_iff {h : Inheritance} {ps qs : List Ty} :
    ps.length = qs.length ∧ supertypes h ps qs = true ↔
      List.Forall₂ (fun new old => old.subtype h new = true) ps qs := by
  induction ps generalizing qs with
  | nil => cases qs <;> simp [supertypes]
  | cons p ps ih =>
    cases qs with
    | nil => simp
    | cons q qs =>
      rw [List.forall₂_cons, ← ih, supertypes, Bool.and_eq_true, supertype_eq, List.length_cons,
        List.length_cons, Nat.add_right_cancel_iff, and_left_comm]

theorem Ty.subtype_method_iff {h : Inheritance} {sig old : Signature} :
    (Ty.method sig).subtype h (.method old) = true ↔
      List.Forall₂ (fun new old => old.subtype h new = true) sig.params old.params ∧
        sig.ret.subtype h old.ret = true := by
  rw [subtype_method, Signature.subtype, Bool.and_eq_true, Bool.and_eq_true, ← supertypes_iff,
    beq_iff_eq, and_right_comm]

/-! Declarations other than classes. -/

theorem VarDecl.ordinary_check {h : Inheritance} (decl : VarDecl) : Ordinary (decl.check h) :=
  .bind decl.init.ordinary_typeOf fun _ => .ite (.error rfl) (.ite (.ok _) (.error rfl))

theorem Routine.ordinary_checkResult {h : Inheritance} (r : Routine) : Ordinary (r.checkResult h) :=
  .bind r.body.ordinary_typeOf fun _ => .ite (.ok _) (.error rfl)

namespace Decl

variable {h : Inheritance}

abbrev Flat (routines : List Routine) : Prop := ∀ r ∈ routines, ∀ c, .cls c ∉ r.locals

mutual

theorem overrides_resolve : (d : Decl) → ∀ {ctx : Context}, (∀ c, d ≠ .cls c) → Flat d.routines →
    Finding.overrides ((d.resolve ctx).findings h) = []
  | .var decl => by
    intro _ _
    exact (VarDecl.ordinary_check _).overrides_ofCheck
  | .fn routine => by
    intro _ flat
    exact overrides_resolveRoutine routine flat
  | .cls c => by
    intro other
    exact absurd rfl (other c)

theorem overrides_resolveRoutine : (r : Routine) → ∀ {ctx : Context}, Flat (nestedRoutines r) →
    Finding.overrides (routineFindings h (resolveRoutine ctx r)) = []
  | ⟨line, name, ret, params, locals, body⟩ => by
    intro flat
    rw [Flat, nestedRoutines, List.forall_mem_append] at flat
    obtain ⟨inner, outer⟩ := flat
    have noClass := outer _ (List.mem_singleton.mpr rfl)
    rw [resolveRoutine, routineFindings, Finding.overrides_append,
      overrides_resolveAll locals noClass inner, (Routine.ordinary_checkResult _).overrides_ofCheck]
    rfl

theorem overrides_resolveAll : (ds : List Decl) → ∀ {ctx : Context}, (∀ c, .cls c ∉ ds) →
    Flat (allRoutines ds) → Finding.overrides (allFindings h (resolveAll ctx ds)) = []
  | [] => fun _ _ => rfl
  | d :: ds => by
    intro noClass flat
    rw [Flat, allRoutines, List.forall_mem_append] at flat
    have first : ∀ c, d ≠ .cls c := fun c same => noClass c (same ▸ List.mem_cons_self)
    have others : ∀ c, .cls c ∉ ds := fun c mem => noClass c (List.mem_cons_of_mem _ mem)
    rw [resolveAll, allFindings, Finding.overrides_append, overrides_resolve d first flat.1,
      overrides_resolveAll ds others flat.2]
    rfl

end

theorem overrides_resolveMethods {ctx : Context} {m : Members} {methods : List Method}
    (flat : Flat (methodRoutines methods)) :
    Finding.overrides (methodsFindings h (resolveMethods ctx m methods)) = [] := by
  induction methods generalizing m with
  | nil => rfl
  | cons method methods ih =>
    obtain ⟨routine, _⟩ := method
    rw [Flat, methodRoutines, List.forall_mem_append] at flat
    rw [resolveMethods, methodsFindings, Finding.overrides_append,
      overrides_resolveRoutine routine flat.1, ih flat.2]
    rfl

end Decl

/-! Members and their namesakes. -/

theorem Layout.typeAt?_slotOffset {l : Layout} {kind : Bool} {i : Nat} (small : i < Word.limit)
    (past : l.slots kind ≤ i) : l.typeAt? kind (slotOffset kind i) = none := by
  cases kind with
  | true =>
    have none : l.methods[i]? = none := List.getElem?_eq_none past
    rw [typeAt?, slotOffset, methodAt?_ofNat _ small, none, Option.map_none]
  | false =>
    have none : l.fields[i]? = none := List.getElem?_eq_none past
    rw [typeAt?, slotOffset, fieldAt?_fieldOffset _ small, none]

namespace Members

variable {h : Inheritance} {cls name : String} {ty : Ty} {clean : Prop} {offset : Word}
  {base m m' : Members}

/-- The members of a class so far: names that the class has not declared mean what they mean in the
parent, and the slots of the parent are still there. -/
structure Extends (base m : Members) : Prop where
  names : ∀ name, m.own.contains name = false → m.table.find? name = base.table.find? name
  slots : ∀ kind, base.layout.slots kind ≤ m.layout.slots kind

theorem extends_refl (m : Members) : Extends m m := ⟨fun _ _ => rfl, fun _ => Nat.le_refl _⟩

theorem Extends.declares (extending : Extends base m) (declares : Declares clean name ty m m')
    (holds : clean) (own : m'.own = name :: m.own) : Extends base m' where
  names := by
    intro other free
    rw [own, List.contains_cons, Bool.or_eq_false_iff] at free
    have ne : other ≠ name := by simpa using free.1
    rw [← extending.names other free.2]
    cases declares with
    | unnamed faulty => exact absurd holds faulty
    | override _ _ table | fresh _ table => rw [table, Table.find?_insert_of_ne _ ne]
  slots := fun kind => Nat.le_trans (extending.slots kind) (declares.keeps.slots kind)

theorem Extends.typeAt? (extending : Extends base m) (coherent : base.Coherent)
    (declares : Declares clean name ty m m') (holds : clean) (new : m.own.contains name = false)
    (entered : m'.table.find? name = some ⟨level, ty, offset⟩) (fits : m'.layout.Fits) :
    base.layout.typeAt? ty.isMethod offset = (base.table.find? name).map Binding.ty := by
  have same := extending.names name new
  cases declares with
  | unnamed faulty => exact absurd holds faulty
  | @override inherited found kind table slots =>
    rw [table, Table.find?_insert_self, Option.some.injEq, Binding.mk.injEq] at entered
    rw [found] at same
    rw [← same, ← entered.2.2, ← kind, Option.map_some]
    exact coherent.slot name inherited same.symm
  | fresh free table slots =>
    rw [table, Table.find?_insert_self, Option.some.injEq, Binding.mk.injEq] at entered
    rw [free] at same
    rw [← same, ← entered.2.2, Option.map_none]
    have grown := slots ty.isMethod
    rw [if_pos rfl] at grown
    have small : m'.layout.slots ty.isMethod ≤ Word.limit := by
      cases ty.isMethod with
      | true => exact fits.methods
      | false => exact fits.fields
    exact Layout.typeAt?_slotOffset (by omega) (extending.slots _)

theorem entered_addField {f : Field} (silent : m.fieldErrors h cls f = []) :
    m.own.contains f.name = false ∧ (m.addField f).own = f.name :: m.own ∧
      (m.addField f).table.find? f.name =
        some ⟨level, f.ty, (m.fieldPlacement f.name).offset⟩ := by
  have placement := (List.append_eq_nil_iff.mp silent).2
  have new : m.own.contains f.name = false := by
    by_contra repeated
    rw [Bool.not_eq_false] at repeated
    simp only [fieldPlacement, repeated, if_true] at placement
    cases placement
  refine ⟨new, ?_⟩
  unfold addField
  cases placed : m.fieldPlacement f.name with
  | duplicate _ | clash _ =>
    rw [placed] at placement
    cases placement
  | override _ | fresh _ => exact ⟨rfl, Table.find?_insert_self _ _ _⟩

end Members

namespace ClassDecl

open Members

variable {h k : Inheritance} {c : ClassDecl} {base m : Members}

theorem findings_namesake {ty : Ty} {name : String} {line : Line} {inherited : Option Ty}
    (namesake : inherited = (base.table.find? name).map Binding.ty) :
    (match inherited with
      | none => []
      | some old => if ty.subtype h old then [] else
          [Finding.error (.badOverride c.name name line)]) =
      if ty.breaks h base.table name then [.error (.badOverride c.name name line)] else [] := by
  subst namesake
  unfold Ty.breaks
  cases base.table.find? name with
  | none => rfl
  | some b => cases below : ty.subtype h b.ty <;> simp [below]

theorem fieldFindings_place (coherent : base.Coherent) (extending : Extends base m) {f : Field}
    (plain : f.ty.isMethod = false) (silent : m.fieldErrors k c.name f = [])
    (fits : (m.addField f).layout.Fits) :
    c.fieldFindings h base.layout { f with offset := (m.fieldPlacement f.name).offset } =
      if f.ty.breaks h base.table f.name then [.error (.badOverride c.name f.name f.line)]
      else [] := by
  obtain ⟨new, _, entered⟩ := entered_addField silent
  have namesake := extending.typeAt? coherent (addField_declares k c.name plain) silent new entered
    fits
  rw [plain] at namesake
  exact findings_namesake namesake

theorem fieldFindings_places {fields : List Field} (coherent : base.Coherent)
    (extending : Extends base m) (plain : ∀ f ∈ fields, f.ty.isMethod = false)
    (silent : m.fieldsErrors k c.name fields = []) (fits : (m.addFields fields).layout.Fits) :
    (m.placeFields fields).flatMap (c.fieldFindings h base.layout) =
      (((fields.filter fun f => f.ty.breaks h base.table f.name).map
        fun f => TypeError.badOverride c.name f.name f.line).map Finding.error) ∧
      Extends base (m.addFields fields) := by
  induction fields generalizing m with
  | nil => exact ⟨rfl, extending⟩
  | cons f fields ih =>
    obtain ⟨one, others⟩ := List.append_eq_nil_iff.mp silent
    have isField := plain f List.mem_cons_self
    obtain ⟨_, own, _⟩ := entered_addField one
    have first := fieldFindings_place (h := h) coherent extending isField one
      (fits_of_addFields fits)
    obtain ⟨rest, extends'⟩ := ih (extending.declares (addField_declares k c.name isField) one own)
      (fun g mem => plain g (List.mem_cons_of_mem _ mem)) others fits
    refine ⟨?_, extends'⟩
    rw [placeFields, List.flatMap_cons, first, rest, List.filter_cons]
    split <;> simp

theorem methodFindings_place (ctx : Context) (coherent : base.Coherent)
    (extending : Extends base m) {method : Method}
    (silent : m.methodErrors k c.name method = [])
    (fits : (m.addMethod method.name method.routine.signature).layout.Fits) :
    c.methodFindings h base.layout
        ⟨Decl.resolveRoutine ctx method.routine, (m.methodPlacement method.name).offset⟩ =
      if (Ty.method method.routine.signature).breaks h base.table method.name then
        [.error (.badOverride c.name method.name method.routine.line)] else [] := by
  have namesake := extending.typeAt? coherent (addMethod_declares k c.name) silent
    (own_of_methodErrors silent) (entered_addMethod silent).2 fits
  rw [← findings_namesake (c := c) namesake, Decl.resolveRoutine_eq]
  show _ = match (base.layout.methodAt? _).map Ty.method with | none => _ | some old => _
  simp only [methodFindings]
  cases base.layout.methodAt? (m.methodPlacement method.name).offset <;> rfl

theorem methodFindings_places (ctx : Context) {methods : List Method} (coherent : base.Coherent)
    (extending : Extends base m) (silent : m.methodsErrors k c.name methods = [])
    (fits : (m.addMethods methods).layout.Fits) :
    (Decl.resolveMethods ctx m methods).flatMap (c.methodFindings h base.layout) =
      ((methods.filter fun method =>
          (Ty.method method.routine.signature).breaks h base.table method.name).map
        fun method => TypeError.badOverride c.name method.name method.routine.line).map
          Finding.error := by
  induction methods generalizing m with
  | nil => rfl
  | cons method methods ih =>
    obtain ⟨one, others⟩ := List.append_eq_nil_iff.mp silent
    obtain ⟨own, _⟩ := entered_addMethod one
    have first := methodFindings_place (h := h) ctx coherent extending one
      (fits_of_addMethods fits)
    have rest := ih (extending.declares (addMethod_declares k c.name) one own) others fits
    have placed : Decl.resolveMethods ctx m (method :: methods) =
        ⟨Decl.resolveRoutine ctx method.routine, (m.methodPlacement method.name).offset⟩ ::
          Decl.resolveMethods ctx (m.addMethod method.name method.routine.signature) methods := by
      cases method
      rfl
    rw [placed, List.flatMap_cons, first, rest, List.filter_cons]
    split <;> simp

/-- The check of a class with a parent finds the members that break with the parent's table. -/
theorem overrideFindings_resolve {ctx : Context} {parent : Parent}
    (up : ctx.parent? c = some parent) (plain : ∀ f ∈ c.fields, f.ty.isMethod = false)
    (header : c.headerErrors ctx = []) (coherent : (ctx.inherited c).Coherent)
    (fits : (ctx.members c).layout.Fits) :
    (c.resolve ctx).overrideFindings h =
      (c.badOverrides h (ctx.inherited c).table).map Finding.error := by
  simp only [headerErrors, List.append_eq_nil_iff] at header
  obtain ⟨⟨⟨_, fields⟩, methods⟩, _⟩ := header
  have layout : (c.resolve ctx).parentLayout? = some (ctx.inherited c).layout := by
    rw [parentLayout?_resolve up, Context.inherited, up]
  obtain ⟨foundFields, extending⟩ := fieldFindings_places (h := h) coherent (extends_refl _) plain
    fields (fits_of_addMethods fits)
  have foundMethods := methodFindings_places (h := h) (ctx.inClass c) coherent extending methods
    fits
  rw [overrideFindings, layout, badOverrides, List.map_append, ← foundFields, ← foundMethods]
  rfl

end ClassDecl

namespace Program

variable {p : Program}

section

variable (plain : Decl.Plain p.declaredTypes) (accepted : p.resolve.errors = [])

include plain accepted

theorem overrides_class {i : Nat} {c : ClassDecl} (listed : p.decls[i]? = some (.cls c))
    (root : c.parent = none → c.parentBinding = none)
    (fits : (p.membersAt i c).layout.Fits) :
    Finding.overrides (((Decl.cls c).resolve (Context.following (p.decls.take i))).findings
      p.resolve.inheritance) =
      (Decl.cls c).badOverrides p.resolve.inheritance p.resolve.classes := by
  have flat := (distinct_and_flat plain accepted).2 i _ listed
  have header := headerErrors_eq_nil accepted listed
  have methods : Finding.overrides (Decl.methodsFindings p.resolve.inheritance
      (c.resolve (Context.following (p.decls.take i))).methods) = [] :=
    Decl.overrides_resolveMethods (by cases c; exact flat)
  rw [Decl.resolve_cls (p.isGlobal_following i), Decl.findings_cls, Finding.overrides_append,
    methods, List.nil_append]
  cases names : c.parent with
  | none =>
    have alone : (Context.following (p.decls.take i)).parent? c = none := by
      rw [Context.parent?, names, Option.bind_none]
    simp [ClassDecl.overrideFindings, ClassDecl.parentLayout?, ClassDecl.resolve, alone, root names,
      Decl.badOverrides, names]
  | some name =>
    obtain ⟨j, d, _, isClass, rfl, inherited⟩ := parent_class plain accepted listed names
    have named := Context.name_parent? header
    rw [names] at named
    obtain ⟨parent, up, _⟩ := Option.map_eq_some_iff.mp named
    have arranged := Context.arranged_following (plain_split plain listed).1
    have coherent := (arranged.inherited c).1
      (Members.fits_of_addFields (Members.fits_of_addMethods fits))
    have table := (class_recorded plain accepted isClass).1
    rw [ClassDecl.overrideFindings_resolve up (isMethod_fields plain listed) header coherent fits,
      ClassDecl.overrides_badOverrides, inherited]
    simp only [Decl.badOverrides, names, Option.bind_some, table]

theorem distinct_own {i : Nat} {c : ClassDecl} (listed : p.decls[i]? = some (.cls c)) :
    c.own.Distinct := by
  obtain ⟨accepts, _⟩ := Decl.globals_scopeErrors Context.mirrors_initial plain
  obtain ⟨_, wellScoped⟩ := accepts.mp (List.append_eq_nil_iff.mp accepted).1
  exact ((wellScoped _ _ _ (decls_split listed)).header c rfl).distinct

theorem nodup_badOverrides : (p.decls.flatMap
    (Decl.badOverrides p.resolve.inheritance p.resolve.classes)).Nodup := by
  rw [List.nodup_flatMap]
  constructor
  · intro d mem
    obtain ⟨i, listed⟩ := List.mem_iff_getElem?.mp mem
    cases d with
    | var | fn => exact List.nodup_nil
    | cls c =>
      simp only [Decl.badOverrides]
      split
      · exact ClassDecl.nodup_badOverrides (distinct_own plain accepted listed)
      · exact List.nodup_nil
  · have distinct := (distinct_and_flat plain accepted).1
    rw [Roles.Distinct, List.map_map, List.Nodup, List.pairwise_map] at distinct
    refine distinct.imp fun {d e} apart error inFirst inSecond => apart ?_
    -- An error names the class that it was found in.
    obtain ⟨member, first⟩ := Decl.overriding?_badOverrides inFirst
    obtain ⟨other, second⟩ := Decl.overriding?_badOverrides inSecond
    rw [first, Option.some.injEq, Prod.mk.injEq] at second
    exact second.1

variable (roots : ∀ c, .cls c ∈ p.decls → c.parent = none → c.parentBinding = none)
  (sized : ∀ c layout, .cls c ∈ p.resolve.program.decls → c.layout? = some layout → layout.Fits)

include roots sized

theorem overrides_decls (before rest : List Decl) (split : p.decls = before ++ rest) :
    Finding.overrides (Decl.allFindings p.resolve.inheritance
      (Decl.resolveAll (Context.following before) rest)) =
      rest.flatMap (Decl.badOverrides p.resolve.inheritance p.resolve.classes) := by
  induction rest generalizing before with
  | nil => rfl
  | cons d rest ih =>
    have listed : p.decls[before.length]? = some d := by simp [split]
    have prior : p.decls.take before.length = before := by simp [split]
    have first : Finding.overrides ((d.resolve (Context.following before)).findings
        p.resolve.inheritance) = d.badOverrides p.resolve.inheritance p.resolve.classes := by
      have flat := (distinct_and_flat plain accepted).2 _ d listed
      cases d with
      | var decl => exact Decl.overrides_resolve _ (by simp) flat
      | fn r => exact Decl.overrides_resolve _ (by simp) flat
      | cls c =>
        have resolved := class_resolve listed
        have fits := sized _ _ (List.mem_of_getElem? resolved) (ClassDecl.layout?_resolve _ c)
        have found := overrides_class plain accepted listed
          (roots c (List.mem_of_getElem? listed)) fits
        rw [prior] at found
        exact found
    have others := ih (before ++ [d]) (by rw [split, List.append_assoc, List.singleton_append])
    rw [Context.following_concat] at others
    rw [Decl.resolveAll, Decl.allFindings, Finding.overrides_append, first, others,
      List.flatMap_cons]

end

/-- Errors about overrides are reported for exactly the members that break with the parent: for
each field and each method that the member table of the parent has with a type that is not a
supertype, once and in order, and for no other. Methods have the order of signatures. Offsets are
words, so each class is asked to have at most 2 ^ 31 fields and as many methods. -/
theorem badOverrides_exact (p : Program) (plain : ∀ ty ∈ p.declaredTypes, ty.isPlain = true)
    (roots : ∀ c, .cls c ∈ p.decls → c.parent = none → c.parentBinding = none)
    (accepted : p.resolve.errors = [])
    (sized : ∀ c layout, .cls c ∈ p.resolve.program.decls → c.layout? = some layout →
      layout.Fits) :
    (p.resolve.program.check p.resolve.inheritance).errors.filter TypeError.isBadOverride =
      p.decls.flatMap (Decl.badOverrides p.resolve.inheritance p.resolve.classes) ∧
    (p.decls.flatMap (Decl.badOverrides p.resolve.inheritance p.resolve.classes)).Nodup ∧
    (∀ c parent, .cls c ∈ p.decls → c.parent = some parent →
      ∃ table, p.resolve.classes.find? parent = some table) ∧
    ∀ sig old : Signature, (Ty.method sig).subtype p.resolve.inheritance (.method old) = true ↔
      List.Forall₂ (fun new old => old.subtype p.resolve.inheritance new = true) sig.params
        old.params ∧ sig.ret.subtype p.resolve.inheritance old.ret = true := by
  refine ⟨?_, nodup_badOverrides plain accepted, ?_, fun sig old => Ty.subtype_method_iff⟩
  · have decls := overrides_decls plain accepted roots sized [] p.decls rfl
    rw [← decls]
    show Finding.overrides (p.resolve.program.check p.resolve.inheritance).findings = _
    unfold Program.check
    split
    · rfl
    · rename_i finding failed
      rw [Finding.overrides_append, Expr.ordinary_typeOf _ finding failed, List.append_nil]
      rfl
  · intro c parent mem names
    obtain ⟨i, listed⟩ := List.mem_iff_getElem?.mp mem
    obtain ⟨j, d, _, isClass, rfl, _⟩ := parent_class plain accepted listed names
    exact ⟨_, (class_recorded plain accepted isClass).1⟩

def widened : Program where
  decls := [
    .cls ⟨1, "A", none, [⟨1, "x", .bool, 0⟩, ⟨1, "y", .int, 0⟩],
      [⟨⟨2, "m", .int, [⟨2, "n", .bool⟩], [], .int 2 0⟩, 0⟩], none, none⟩,
    .cls ⟨3, "B", some "A", [⟨4, "z", .int, 0⟩, ⟨5, "y", .bool, 0⟩, ⟨6, "x", .int, 0⟩],
      [⟨⟨7, "k", .int, [], [], .int 7 0⟩, 0⟩,
        ⟨⟨8, "m", .bool, [⟨8, "n", .int⟩], [], .bool 8 true⟩, 0⟩], none, none⟩,
    .cls ⟨9, "C", some "B", [],
      [⟨⟨10, "m", .bool, [⟨10, "n", .bool⟩], [], .bool 10 true⟩, 0⟩], none, none⟩]
  body := .null 11

theorem badOverrides_exact_widened :
    widened.resolve.errors = [] ∧
    (widened.resolve.program.check widened.resolve.inheritance).errors.filter
        TypeError.isBadOverride =
      [.badOverride "B" "x" 6, .badOverride "C" "m" 10] := by
  have accepted : widened.resolve.errors = [] := by decide +kernel
  have roots : ∀ c, .cls c ∈ widened.decls → c.parent = none → c.parentBinding = none := by
    intro c mem _
    simp only [widened, List.mem_cons, Decl.cls.injEq, List.not_mem_nil, or_false] at mem
    rcases mem with rfl | rfl | rfl <;> rfl
  have sized : ∀ c layout, .cls c ∈ widened.resolve.program.decls → c.layout? = some layout →
      layout.Fits := by
    intro c layout mem carried
    have all : (widened.resolve.program.decls.all fun
        | .cls c => c.layout?.all fun layout => decide layout.Fits
        | _ => true) = true := by decide +kernel
    have fits := List.all_eq_true.mp all _ mem
    simpa only [carried, Option.all_some, decide_eq_true_eq] using fits
  have reported := (widened.badOverrides_exact (by decide) roots accepted sized).1
  refine ⟨accepted, reported.trans ?_⟩
  decide +kernel

/-- A member at position 2 ^ 31 that is made wider is a bad override, and it is not reported. -/
theorem missed_redeclaring {names : List String} {name : String} (kind : Bool)
    (distinct : names.Nodup) (listed : names[Word.limit]? = some name) :
    ((redeclaring names name kind).resolve.program.check
        (redeclaring names name kind).resolve.inheritance).errors.filter TypeError.isBadOverride =
      [] ∧
    (redeclaring names name kind).decls.flatMap (Decl.badOverrides
        (redeclaring names name kind).resolve.inheritance
        (redeclaring names name kind).resolve.classes) = [.badOverride "B" name 2] := by
  constructor
  · rw [Checked.errors, findings_redeclaring kind distinct listed]
    rfl
  · have found := find?_upperMembers kind distinct listed
    have upper := (classes_redeclaring names name kind).1
    generalize (redeclaring names name kind).resolve.classes = classes at upper ⊢
    generalize (redeclaring names name kind).resolve.inheritance = h
    cases kind with
    | true =>
      simp [redeclaring, booleans, widening, Decl.badOverrides, upper, ClassDecl.badOverrides,
        Ty.breaks, found, constant, Method.name, Routine.signature, memberTy, Signature.subtype,
        Ty.subtype]
    | false =>
      simp [redeclaring, booleans, widening, Decl.badOverrides, upper, ClassDecl.badOverrides,
        Ty.breaks, found, memberTy, Ty.subtype]

theorem roots_redeclaring (names : List String) (name : String) (kind : Bool) :
    ∀ c, .cls c ∈ (redeclaring names name kind).decls → c.parent = none →
      c.parentBinding = none := by
  intro c mem _
  simp only [redeclaring, List.mem_cons, Decl.cls.injEq, List.not_mem_nil, or_false] at mem
  rcases mem with rfl | rfl <;> cases kind <;> rfl

theorem badOverrides_missed :
    ((∀ ty ∈ (oneTooMany false).declaredTypes, ty.isPlain = true) ∧
      (∀ c, .cls c ∈ (oneTooMany false).decls → c.parent = none → c.parentBinding = none) ∧
      (oneTooMany false).resolve.errors = [] ∧
      ((oneTooMany false).resolve.program.check
        (oneTooMany false).resolve.inheritance).errors.filter TypeError.isBadOverride = [] ∧
      (oneTooMany false).decls.flatMap (Decl.badOverrides (oneTooMany false).resolve.inheritance
        (oneTooMany false).resolve.classes) = [.badOverride "B" (seriesName Word.limit) 2]) ∧
    (∀ ty ∈ (oneTooMany true).declaredTypes, ty.isPlain = true) ∧
      (∀ c, .cls c ∈ (oneTooMany true).decls → c.parent = none → c.parentBinding = none) ∧
      (oneTooMany true).resolve.errors = [] ∧
      ((oneTooMany true).resolve.program.check
        (oneTooMany true).resolve.inheritance).errors.filter TypeError.isBadOverride = [] ∧
      (oneTooMany true).decls.flatMap (Decl.badOverrides (oneTooMany true).resolve.inheritance
        (oneTooMany true).resolve.classes) = [.badOverride "B" (seriesName Word.limit) 2] :=
  have listed := getElem?_series (Nat.lt_succ_self Word.limit)
  ⟨⟨plain_oneTooMany false, roots_redeclaring _ _ false, accepted_oneTooMany false,
      missed_redeclaring false (nodup_series _) listed⟩,
    plain_oneTooMany true, roots_redeclaring _ _ true, accepted_oneTooMany true,
    missed_redeclaring true (nodup_series _) listed⟩

end Program

end ObjectLang
