import ObjectLang.Proofs.Classes.Hierarchy

/-!
Slots of the classes of a program, with or without scope faults. The member table and the layout of
a class are two views of one arrangement: each name has a slot of its own with its type in it, and
a subclass keeps the slots of its parent. Without faults every slot has a name as well; a member
that clashes with an inherited one of the other kind leaves a slot without a name.

Nothing here asks for well-typed overrides. Declarations are read one after another, and the
invariant ties the context after them to the resolved declarations themselves.
-/
namespace ObjectLang

namespace Members

/-- What declaring a member does to the names and to the number of slots; `clean` says that it is
no fault. -/
inductive Declares (clean : Prop) (name : String) (ty : Ty) (m m' : Members) : Prop
  | unnamed (faulty : ¬ clean) (table : m'.table = m.table)
      (slots : ∀ kind, m.layout.slots kind ≤ m'.layout.slots kind)
  | override {inherited : Binding} (found : m.table.find? name = some inherited)
      (kind : inherited.ty.isMethod = ty.isMethod)
      (table : m'.table = m.table.insert name ⟨level, ty, inherited.offset⟩)
      (slots : ∀ kind, m'.layout.slots kind = m.layout.slots kind)
  | fresh (free : m.table.find? name = none)
      (table : m'.table = m.table.insert name
        ⟨level, ty, Layout.slotOffset ty.isMethod (m.layout.slots ty.isMethod)⟩)
      (slots : ∀ kind, m'.layout.slots kind =
        m.layout.slots kind + if kind = ty.isMethod then 1 else 0)

theorem addField_declares {m : Members} {f : Field} (h : Inheritance) (cls : String)
    (plain : f.ty.isMethod = false) :
    Declares (m.fieldErrors h cls f = []) f.name f.ty m (m.addField f) := by
  unfold addField fieldErrors
  unfold fieldPlacement
  by_cases own : m.own.contains f.name = true
  · rw [if_pos own]
    exact .unnamed (by simp) rfl fun _ => Nat.le_refl _
  rw [if_neg own]
  cases known : m.table.find? f.name with
  | none =>
    refine .fresh known (by rw [plain]; rfl) ?_
    rintro (_ | _)
    · simp [Layout.slots, appendField, plain]
    · simp [Layout.slots, appendField, plain]
  | some inherited =>
    cases kind : inherited.ty.isMethod with
    | true =>
      simp only [kind, if_true]
      refine .unnamed (by simp) rfl ?_
      rintro (_ | _)
      · simp [Layout.slots, appendField]
      · simp [Layout.slots, appendField]
    | false =>
      simp only [kind, Bool.false_eq_true, if_false]
      refine .override known (by rw [kind, plain]) rfl ?_
      rintro (_ | _)
      · simp [Layout.slots, replaceField]
      · simp [Layout.slots, replaceField]

theorem addMethod_declares {m : Members} {method : Method} (h : Inheritance) (cls : String) :
    Declares (m.methodErrors h cls method = []) method.name (.method method.routine.signature) m
      (m.addMethod method.name method.routine.signature) := by
  unfold addMethod methodErrors
  unfold methodPlacement
  have isMethod : (Ty.method method.routine.signature).isMethod = true := rfl
  by_cases own : m.own.contains method.name = true
  · rw [if_pos own]
    exact .unnamed (by simp) rfl fun _ => Nat.le_refl _
  rw [if_neg own]
  cases known : m.table.find? method.name with
  | none =>
    refine .fresh known rfl ?_
    rintro (_ | _)
    · simp [Layout.slots, appendMethod, isMethod]
    · simp [Layout.slots, appendMethod, isMethod]
  | some inherited =>
    cases kind : inherited.ty.isMethod with
    | false =>
      simp only [kind, Bool.false_eq_true, if_false]
      refine .unnamed (by simp) rfl ?_
      rintro (_ | _)
      · simp [Layout.slots, appendMethod]
      · simp [Layout.slots, appendMethod]
    | true =>
      simp only [kind, if_true]
      refine .override known kind rfl ?_
      unfold replaceMethod
      rintro (_ | _)
      · split <;> rfl
      · split <;> simp [Layout.slots]

/-- The second members have every name of the first, with its offset and kind, and at least as many
slots. -/
structure Keeps (base m : Members) : Prop where
  names : ∀ name b, base.table.find? name = some b →
    ∃ b', m.table.find? name = some b' ∧ b'.offset = b.offset ∧ b'.ty.isMethod = b.ty.isMethod
  slots : ∀ kind, base.layout.slots kind ≤ m.layout.slots kind

theorem Keeps.refl (m : Members) : Keeps m m :=
  ⟨fun _ b found => ⟨b, found, rfl, rfl⟩, fun _ => Nat.le_refl _⟩

theorem Keeps.trans {low mid high : Members} (first : Keeps high mid) (second : Keeps mid low) :
    Keeps high low where
  names := by
    intro name b found
    obtain ⟨c, found, place, kind⟩ := first.names name b found
    obtain ⟨d, found, place', kind'⟩ := second.names name c found
    exact ⟨d, found, place'.trans place, kind'.trans kind⟩
  slots := fun kind => Nat.le_trans (first.slots kind) (second.slots kind)

def Covered (m : Members) : Prop :=
  ∀ kind i, i < m.layout.slots kind → ∃ name b, m.table.find? name = some b ∧
    b.ty.isMethod = kind ∧ b.offset = Layout.slotOffset kind i

variable {clean : Prop} {name : String} {ty : Ty} {m m' : Members}

theorem Declares.keeps (declares : Declares clean name ty m m') : Keeps m m' := by
  cases declares with
  | unnamed _ table slots =>
    exact ⟨fun other b found => ⟨b, by rw [table, found], rfl, rfl⟩, slots⟩
  | @override inherited found kind table slots =>
    refine ⟨?_, fun kind => Nat.le_of_eq (slots kind).symm⟩
    intro other b known
    rw [table]
    by_cases same : other = name
    · subst same
      rw [found, Option.some.injEq] at known
      subst known
      exact ⟨_, Table.find?_insert_self _ _ _, rfl, kind.symm⟩
    · exact ⟨b, by rw [Table.find?_insert_of_ne _ same, known], rfl, rfl⟩
  | fresh free table slots =>
    refine ⟨?_, fun kind => by rw [slots kind]; omega⟩
    intro other b known
    have ne : other ≠ name := by
      rintro rfl
      rw [free] at known
      cases known
    exact ⟨b, by rw [table, Table.find?_insert_of_ne _ ne, known], rfl, rfl⟩

theorem Declares.covered (declares : Declares clean name ty m m') (holds : clean)
    (covered : m.Covered) : m'.Covered := by
  -- A slot that had a name keeps it, whatever is declared.
  have kept : ∀ kind i, i < m.layout.slots kind → ∃ name b, m'.table.find? name = some b ∧
      b.ty.isMethod = kind ∧ b.offset = Layout.slotOffset kind i := by
    intro kind i bound
    obtain ⟨other, b, found, isKind, place⟩ := covered kind i bound
    obtain ⟨b', found', place', kind'⟩ := declares.keeps.names other b found
    exact ⟨other, b', found', kind'.trans isKind, place'.trans place⟩
  intro kind i bound
  cases declares with
  | unnamed faulty => exact absurd holds faulty
  | override _ _ _ slots => exact kept kind i (by rwa [slots kind] at bound)
  | fresh _ table slots =>
    rw [slots kind] at bound
    by_cases old : i < m.layout.slots kind
    · exact kept kind i old
    · have new : kind = ty.isMethod := by
        by_contra other
        rw [if_neg other] at bound
        omega
      subst new
      rw [if_pos rfl] at bound
      have last : i = m.layout.slots ty.isMethod := by omega
      subst last
      exact ⟨name, _, by rw [table, Table.find?_insert_self], rfl, rfl⟩

section

variable {h : Inheritance} {cls : String}

theorem keeps_addFields {fields : List Field} (plain : ∀ f ∈ fields, f.ty.isMethod = false) :
    Keeps m (m.addFields fields) := by
  induction fields generalizing m with
  | nil => exact .refl m
  | cons f fields ih =>
    have first := (addField_declares (m := m) {} "" (plain f List.mem_cons_self)).keeps
    exact first.trans (ih fun g mem => plain g (List.mem_cons_of_mem _ mem))

theorem keeps_addMethods (methods : List Method) : Keeps m (m.addMethods methods) := by
  induction methods generalizing m with
  | nil => exact .refl m
  | cons method methods ih => exact (addMethod_declares {} "").keeps.trans ih

theorem covered_addFields {fields : List Field} (plain : ∀ f ∈ fields, f.ty.isMethod = false)
    (clean : m.fieldsErrors h cls fields = []) (covered : m.Covered) :
    (m.addFields fields).Covered := by
  induction fields generalizing m with
  | nil => exact covered
  | cons f fields ih =>
    obtain ⟨one, others⟩ := List.append_eq_nil_iff.mp clean
    have declares := addField_declares (m := m) h cls (plain f List.mem_cons_self)
    exact ih (fun g mem => plain g (List.mem_cons_of_mem _ mem)) others
      (declares.covered one covered)

theorem covered_addMethods {methods : List Method} (clean : m.methodsErrors h cls methods = [])
    (covered : m.Covered) : (m.addMethods methods).Covered := by
  induction methods generalizing m with
  | nil => exact covered
  | cons method methods ih =>
    obtain ⟨one, others⟩ := List.append_eq_nil_iff.mp clean
    exact ih others ((addMethod_declares h cls).covered one covered)

theorem coherent_addFields {fields : List Field} (coherent : m.Coherent)
    (plain : ∀ f ∈ fields, f.ty.isMethod = false) (fits : (m.addFields fields).layout.Fits) :
    (m.addFields fields).Coherent := by
  induction fields generalizing m with
  | nil => exact coherent
  | cons f fields ih =>
    have adds := addField_adds coherent (plain f List.mem_cons_self) (fits_of_addFields fits)
    exact ih (coherent.adds adds) (fun g mem => plain g (List.mem_cons_of_mem _ mem)) fits

theorem coherent_addMethods {methods : List Method} (coherent : m.Coherent)
    (fits : (m.addMethods methods).layout.Fits) : (m.addMethods methods).Coherent := by
  induction methods generalizing m with
  | nil => exact coherent
  | cons method methods ih =>
    have adds := addMethod_adds coherent (fits_of_addMethods fits)
    exact ih (coherent.adds adds) fits

end

end Members

def ClassDecl.layout? (c : ClassDecl) : Option Layout :=
  c.binding.bind fun b =>
    match b.ty with
    | .cls layout => some layout
    | _ => none

@[simp] theorem ClassDecl.layout?_resolve (ctx : Context) (c : ClassDecl) :
    (c.resolve ctx).layout? = some (ctx.members c).layout := rfl

def Decl.class? (name : String) : Decl → Option ClassDecl
  | .cls c => if c.name = name then some c else none
  | _ => none

def Decl.firstClass? (name : String) (ds : List Decl) : Option ClassDecl :=
  ds.findSome? (Decl.class? name)

def Program.class? (p : Program) (name : String) : Option ClassDecl :=
  Decl.firstClass? name p.decls

namespace Decl

theorem firstClass?_concat (name : String) (ds : List Decl) (d : Decl) :
    firstClass? name (ds ++ [d]) = (firstClass? name ds).or (d.class? name) := by
  simp [firstClass?, List.findSome?_append, List.findSome?_cons]
  cases d.class? name <;> rfl

theorem allDeclaredTypes_append (ds es : List Decl) :
    allDeclaredTypes (ds ++ es) = allDeclaredTypes ds ++ allDeclaredTypes es := by
  induction ds with
  | nil => simp [allDeclaredTypes]
  | cons d ds ih => simp [allDeclaredTypes, ih]

theorem class?_resolve_var (ctx : Context) (name : String) (decl : VarDecl) :
    ((Decl.var decl).resolve ctx).class? name = none := by
  cases decl
  rfl

theorem class?_resolve_fn (ctx : Context) (name : String) (r : Routine) :
    ((Decl.fn r).resolve ctx).class? name = none := rfl

end Decl

namespace Context

def following (ds : List Decl) : Context := ds.foldl Context.after initial

theorem following_concat (ds : List Decl) (d : Decl) :
    following (ds ++ [d]) = (following ds).after d := by
  rw [following, List.foldl_concat, following]

def Records (ds : List Decl) (ctx : Context) (name : String) (m : Members) : Prop :=
  ctx.classes.find? name = some m.table ∧
    (Decl.firstClass? name ds).bind ClassDecl.layout? = some m.layout

/-- What holds of the context after the declarations that resolution turned into `ds`; `clean` says
that none of them was faulty. -/
structure Arranged (clean : Prop) (ds : List Decl) (ctx : Context) : Prop where
  global : ∃ table, ctx.scopes.tables = [table]
  recorded : ∀ name, ctx.inheritance.contains name = ctx.classes.contains name
  declared : ∀ name, (Decl.firstClass? name ds).isSome = ctx.classes.contains name
  visible : ∀ name, ctx.scopes.lookupGlobal name = none → ctx.classes.contains name = false
  bound : ∀ name b layout, ctx.scopes.lookupGlobal name = some b → b.ty = .cls layout →
    (Decl.firstClass? name ds).bind ClassDecl.layout? = some layout
  classes : ∀ name table, ctx.classes.find? name = some table →
    ∃ layout, ctx.Records ds name ⟨layout, table, []⟩ ∧
      (layout.Fits → Members.Coherent ⟨layout, table, []⟩) ∧
      (clean → Members.Covered ⟨layout, table, []⟩)
  parents : ∀ name parent, ctx.inheritance.parent? name = some parent →
    ∃ low high, ctx.Records ds name low ∧ ctx.Records ds parent high ∧ high.Keeps low

theorem arranged_initial (clean : Prop) : Arranged clean [] initial where
  global := ⟨{}, rfl⟩
  recorded := fun _ => rfl
  declared := fun _ => rfl
  visible := fun _ _ => rfl
  bound := by
    intro name b layout found
    cases found
  classes := by
    intro name table found
    cases found
  parents := by
    intro name parent found
    cases found

namespace Arranged

variable {clean clean' : Prop} {ds : List Decl} {ctx : Context} {c : ClassDecl}

theorem isGlobal (sound : ctx.Arranged clean ds) : ctx.isGlobal = true := by
  obtain ⟨table, single⟩ := sound.global
  simp [Context.isGlobal, Scopes.level, single]

theorem weaken (sound : ctx.Arranged clean ds) (le : clean' → clean) :
    ctx.Arranged clean' ds where
  global := sound.global
  recorded := sound.recorded
  declared := sound.declared
  visible := sound.visible
  bound := sound.bound
  classes := by
    intro name table found
    obtain ⟨layout, records, coherent, covered⟩ := sound.classes name table found
    exact ⟨layout, records, coherent, fun holds => covered (le holds)⟩
  parents := sound.parents

theorem congr {ds' : List Decl} (sound : ctx.Arranged clean ds)
    (same : ∀ name, Decl.firstClass? name ds' = Decl.firstClass? name ds) :
    ctx.Arranged clean ds' where
  global := sound.global
  recorded := sound.recorded
  declared := fun name => by rw [same]; exact sound.declared name
  visible := sound.visible
  bound := fun name => by rw [same]; exact sound.bound name
  classes := by
    intro name table found
    simp only [Records, same]
    exact sound.classes name table found
  parents := by
    intro name parent up
    simp only [Records, same]
    exact sound.parents name parent up

theorem declare (sound : ctx.Arranged clean ds) (name : String) {ty : Ty}
    (plain : ty.isPlain = true) : (ctx.declare name ty).Arranged clean ds where
  global := by
    obtain ⟨⟨tables⟩, _, _, _⟩ := ctx
    obtain ⟨table, rfl⟩ := sound.global
    simp only [Context.declare, Scopes.declare_cons]
    exact ⟨_, rfl⟩
  recorded := sound.recorded
  declared := sound.declared
  visible := by
    intro cls hidden
    apply sound.visible cls
    cases before : ctx.scopes.lookupGlobal cls with
    | none => rfl
    | some b =>
      rw [Context.declare, Scopes.lookupGlobal_declare before] at hidden
      cases hidden
  bound := by
    intro cls b layout found shape
    rcases Scopes.lookupGlobal_of_declare found with before | ⟨_, rfl⟩
    · exact sound.bound cls b layout before shape
    · have isClass : ty = .cls layout := shape
      subst isClass
      simp [Ty.isPlain] at plain
  classes := sound.classes
  parents := sound.parents

theorem records_parent (sound : ctx.Arranged clean ds) {parent : Parent}
    (up : ctx.parent? c = some parent) :
    ctx.Records ds parent.name (ctx.inherited c) := by
  obtain ⟨_, _, listed, b, found, shape⟩ := parent?_eq_some up
  simp only [Context.inherited, up]
  exact ⟨listed, sound.bound parent.name b parent.layout found shape⟩

theorem inherited (sound : ctx.Arranged clean ds) (c : ClassDecl) :
    ((ctx.inherited c).layout.Fits → (ctx.inherited c).Coherent) ∧
      (clean → (ctx.inherited c).Covered) := by
  cases up : ctx.parent? c with
  | none =>
    simp only [Context.inherited, up]
    refine ⟨fun _ => Members.coherent_empty, ?_⟩
    rintro _ (_ | _) i bound
    · simp [Layout.slots, Layout.empty] at bound
    · simp [Layout.slots, Layout.empty] at bound
  | some parent =>
    obtain ⟨listed, carried⟩ := sound.records_parent up
    simp only [Context.inherited, up] at listed carried ⊢
    obtain ⟨layout, records, coherent, covered⟩ := sound.classes _ _ listed
    have same : layout = parent.layout := by
      have := records.2
      rw [carried, Option.some.injEq] at this
      exact this.symm
    subst same
    exact ⟨coherent, covered⟩

theorem members (sound : ctx.Arranged clean ds)
    (plain : ∀ f ∈ c.fields, f.ty.isMethod = false) :
    ((ctx.members c).layout.Fits → (ctx.members c).Coherent) ∧
      (clean → c.headerErrors ctx = [] → (ctx.members c).Covered) ∧
      (ctx.inherited c).Keeps (ctx.members c) := by
  obtain ⟨coherent, covered⟩ := sound.inherited c
  refine ⟨?_, ?_, ?_⟩
  · intro fits
    have fitsFields : ((ctx.inherited c).addFields c.fields).layout.Fits :=
      Members.fits_of_addMethods fits
    have solid := coherent (Members.fits_of_addFields fitsFields)
    exact Members.coherent_addMethods (Members.coherent_addFields solid plain fitsFields) fits
  · intro holds header
    simp only [ClassDecl.headerErrors, List.append_eq_nil_iff] at header
    exact Members.covered_addMethods header.1.2
      (Members.covered_addFields plain header.1.1.2 (covered holds))
  · exact (Members.keeps_addFields plain).trans (Members.keeps_addMethods c.methods)

theorem declareClass_known (sound : ctx.Arranged clean ds)
    (known : ctx.classes.contains c.name = true) :
    ctx.declareClass c = { ctx with nextOffset := ctx.nextOffset - 1 } := by
  obtain ⟨table, single⟩ := sound.global
  have scopes : ctx.scopes = ⟨[table]⟩ := by rw [← single]
  have taken : table.find? c.name ≠ none := by
    intro free
    have hidden := sound.visible c.name (by rw [scopes, Scopes.lookupGlobal_singleton, free])
    rw [known] at hidden
    cases hidden
  have recorded : ctx.inheritance.contains c.name = true := by rw [sound.recorded, known]
  simp [Context.declareClass, Context.inheritanceWith, Inheritance.declare, Inheritance.declare?,
    recorded, scopes, Scopes.declare_cons, taken]

section

variable (sound : ctx.Arranged clean ds) (new : ctx.classes.contains c.name = false)

include sound new

theorem unrecorded : ctx.inheritance.contains c.name = false := by
  rw [sound.recorded, new]

theorem firstClass?_declareClass (name : String) :
    Decl.firstClass? name (ds ++ [.cls (c.resolve ctx)]) =
      if c.name = name then some (c.resolve ctx) else Decl.firstClass? name ds := by
  rw [Decl.firstClass?_concat]
  by_cases same : c.name = name
  · subst same
    have none : Decl.firstClass? c.name ds = none := by
      rw [← Option.not_isSome_iff_eq_none, sound.declared, new]
      decide
    simp [none, Decl.class?, ClassDecl.resolve]
  · simp [Decl.class?, ClassDecl.resolve, same]

theorem records_new :
    (ctx.declareClass c).Records (ds ++ [.cls (c.resolve ctx)]) c.name (ctx.members c) := by
  refine ⟨find?_declareClass_self (sound.unrecorded new), ?_⟩
  rw [sound.firstClass?_declareClass new, if_pos rfl, Option.bind_some, ClassDecl.layout?_resolve]

theorem records_old {name : String} {m : Members} (records : ctx.Records ds name m) :
    (ctx.declareClass c).Records (ds ++ [.cls (c.resolve ctx)]) name m := by
  have ne : name ≠ c.name := by
    rintro rfl
    rw [Table.contains, records.1] at new
    cases new
  refine ⟨find?_declareClass_of_find? sound.recorded records.1 c, ?_⟩
  rw [sound.firstClass?_declareClass new, if_neg ne.symm, records.2]

theorem declareClass_new (plain : ∀ f ∈ c.fields, f.ty.isMethod = false)
    (le : clean' → clean ∧ c.headerErrors ctx = []) :
    (ctx.declareClass c).Arranged clean' (ds ++ [.cls (c.resolve ctx)]) where
  global := by
    obtain ⟨table, single⟩ := sound.global
    have scopes : ctx.scopes = ⟨[table]⟩ := by rw [← single]
    simp only [Context.declareClass, scopes, Scopes.declare_cons]
    exact ⟨_, rfl⟩
  recorded := recorded_declareClass sound.recorded c
  declared := by
    intro name
    rw [sound.firstClass?_declareClass new, classes_declareClass (sound.unrecorded new),
      Table.contains_insert, ← sound.declared]
    by_cases same : c.name = name
    · simp [same]
    · simp [same, Ne.symm same]
  visible := by
    intro name hidden
    have ne : name ≠ c.name := by
      rintro rfl
      obtain ⟨table, single⟩ := sound.global
      have scopes : ctx.scopes = ⟨[table]⟩ := by rw [← single]
      simp only [Context.declareClass, scopes, Scopes.declare_cons,
        Scopes.lookupGlobal_singleton] at hidden
      split at hidden
      · rw [Table.find?_insert_self] at hidden
        cases hidden
      · rename_i taken
        exact taken hidden
    have before : ctx.classes.contains name = false := by
      apply sound.visible name
      rwa [Context.declareClass, Scopes.lookupGlobal_declare_of_ne ne] at hidden
    simp [classes_declareClass (sound.unrecorded new), Table.contains_insert, ne, before]
  bound := by
    intro name b layout found shape
    rw [sound.firstClass?_declareClass new]
    rcases Scopes.lookupGlobal_of_declare found with before | ⟨rfl, rfl⟩
    · have carried := sound.bound name b layout before shape
      have ne : c.name ≠ name := by
        rintro rfl
        have declared := sound.declared c.name
        obtain ⟨first, isFirst, _⟩ := Option.bind_eq_some_iff.mp carried
        rw [isFirst, new] at declared
        cases declared
      rwa [if_neg ne]
    · rw [if_pos rfl, Option.bind_some, ClassDecl.layout?_resolve]
      have same : (ctx.members c).layout = layout := by simpa [Context.classBinding] using shape
      rw [same]
  classes := by
    intro name table found
    rcases find?_declareClass found with old | ⟨rfl, rfl⟩
    · obtain ⟨layout, records, coherent, covered⟩ := sound.classes name table old
      exact ⟨layout, sound.records_old new records, coherent, fun holds => covered (le holds).1⟩
    · obtain ⟨coherent, covered, _⟩ := sound.members plain
      refine ⟨(ctx.members c).layout, sound.records_new new, ?_, ?_⟩
      · intro fits
        exact ⟨(coherent fits).slot, (coherent fits).apart⟩
      · intro holds
        exact covered (le holds).1 (le holds).2
  parents := by
    intro name parent up
    rcases parent?_declareClass (sound.unrecorded new) up with old | ⟨rfl, above, found, rfl⟩
    · obtain ⟨low, high, isLow, isHigh, keeps⟩ := sound.parents name parent old
      exact ⟨low, high, sound.records_old new isLow, sound.records_old new isHigh, keeps⟩
    · exact ⟨ctx.members c, ctx.inherited c, sound.records_new new,
        sound.records_old new (sound.records_parent found), (sound.members plain).2.2⟩

end

theorem after (sound : ctx.Arranged clean ds) {d : Decl} (plain : Decl.Plain d.declaredTypes)
    (le : clean' → clean ∧ d.scopeErrors ctx = []) :
    (ctx.after d).Arranged clean' (ds ++ [d.resolve ctx]) := by
  have narrower := sound.weaken fun holds => (le holds).1
  cases d with
  | var decl =>
    refine (narrower.declare decl.name (plain _ ?_)).congr ?_
    · simp [Decl.declaredTypes]
    · intro name
      rw [Decl.firstClass?_concat, Decl.class?_resolve_var, Option.or_none]
  | fn routine =>
    obtain ⟨⟨params, ret⟩, _⟩ := Decl.types_routine (r := routine) plain
    refine (narrower.declare routine.name ?_).congr ?_
    · simp only [Routine.signature, Ty.isPlain, Bool.and_eq_true, Ty.allPlain_iff]
      refine ⟨?_, ret⟩
      intro ty mem
      obtain ⟨p, listed, rfl⟩ := List.mem_map.mp mem
      exact params p listed
    · intro name
      rw [Decl.firstClass?_concat, Decl.class?_resolve_fn, Option.or_none]
  | cls c =>
    rw [Context.after, if_pos sound.isGlobal, Decl.resolve_cls sound.isGlobal]
    cases known : ctx.classes.contains c.name with
    | true =>
      rw [sound.declareClass_known known]
      have kept : Context.Arranged clean' ds { ctx with nextOffset := ctx.nextOffset - 1 } :=
        ⟨narrower.global, narrower.recorded, narrower.declared, narrower.visible, narrower.bound,
          narrower.classes, narrower.parents⟩
      refine kept.congr ?_
      intro name
      rw [Decl.firstClass?_concat]
      by_cases same : c.name = name
      · subst same
        have declared := sound.declared c.name
        rw [known] at declared
        obtain ⟨first, isFirst⟩ := Option.isSome_iff_exists.mp declared
        rw [isFirst]
        rfl
      · simp [Decl.class?, ClassDecl.resolve, same]
    | false =>
      have fields : ∀ f ∈ c.fields, f.ty.isMethod = false :=
        fun f mem => Ty.isMethod_of_isPlain ((Decl.types_cls plain).1 f mem)
      refine sound.declareClass_new known fields ?_
      intro holds
      obtain ⟨before, silent⟩ := le holds
      obtain ⟨line, name, parent, fields, methods, binding, parentBinding⟩ := c
      simp only [Decl.scopeErrors, sound.isGlobal, if_true, List.append_eq_nil_iff] at silent
      exact ⟨before, silent.1⟩

theorem foldl {rest : List Decl} (sound : ctx.Arranged clean ds)
    (plain : Decl.Plain (Decl.allDeclaredTypes rest))
    (le : clean' → clean ∧ Decl.allScopeErrors ctx rest = []) :
    (rest.foldl Context.after ctx).Arranged clean' (ds ++ Decl.resolveAll ctx rest) := by
  induction rest generalizing ctx ds clean with
  | nil =>
    rw [Decl.resolveAll, List.append_nil]
    exact sound.weaken fun holds => (le holds).1
  | cons d rest ih =>
    obtain ⟨first, others⟩ := Decl.types_cons plain
    have next : (ctx.after d).Arranged (clean ∧ d.scopeErrors ctx = []) (ds ++ [d.resolve ctx]) :=
      sound.after first id
    rw [Decl.resolveAll, List.append_cons]
    refine ih next others ?_
    intro holds
    obtain ⟨before, silent⟩ := le holds
    obtain ⟨one, more⟩ := List.append_eq_nil_iff.mp silent
    exact ⟨⟨before, one⟩, more⟩

end Arranged

theorem arranged_following {ds : List Decl} (plain : Decl.Plain (Decl.allDeclaredTypes ds)) :
    (following ds).Arranged (Decl.allScopeErrors initial ds = []) (Decl.resolveAll initial ds) :=
  (arranged_initial True).foldl plain fun clean => ⟨trivial, clean⟩

end Context

namespace Layout

end Layout

end ObjectLang
