import ObjectLang.Proofs.Classes.Overflow

/-!
Substitutability in the class hierarchy. Members are declared one after another on top of the
inherited ones, so a class refines its parent; classes are declared one after another on top of
their parents, so each class of a well-typed program refines all classes above it.
-/
namespace ObjectLang

namespace Members

variable {h : Inheritance} {base m : Members}

theorem fits_of_addField {f : Field} (fits : (m.addField f).layout.Fits) : m.layout.Fits := by
  obtain ⟨fields, methods⟩ := fits
  unfold addField at fields methods
  constructor
  · split at fields
    · exact fields
    · simp [appendField] at fields
      omega
    · simpa [replaceField] using fields
    · simp [appendField] at fields
      omega
  · split at methods <;> exact methods

theorem fits_of_addFields {fields : List Field} (fits : (m.addFields fields).layout.Fits) :
    m.layout.Fits := by
  induction fields generalizing m with
  | nil => exact fits
  | cons f fields ih => exact fits_of_addField (ih fits)

theorem methods_addFields (m : Members) (fields : List Field) :
    (m.addFields fields).layout.methods = m.layout.methods := by
  induction fields generalizing m with
  | nil => rfl
  | cons f fields ih =>
    refine (ih (m.addField f)).trans ?_
    unfold addField
    split <;> rfl

theorem fits_of_addMethod {name : String} {sig : Signature}
    (fits : (m.addMethod name sig).layout.Fits) : m.layout.Fits := by
  obtain ⟨fields, methods⟩ := fits
  unfold addMethod at fields methods
  unfold replaceMethod at fields methods
  constructor
  · split at fields
    · exact fields
    · exact fields
    · split at fields <;> exact fields
    · exact fields
  · split at methods
    · exact methods
    · simp [appendMethod] at methods
      omega
    · split at methods
      · simpa using methods
      · exact methods
    · simp [appendMethod] at methods
      omega

theorem fits_of_addMethods {methods : List Method} (fits : (m.addMethods methods).layout.Fits) :
    m.layout.Fits := by
  induction methods generalizing m with
  | nil => exact fits
  | cons method methods ih => exact fits_of_addMethod (ih fits)

theorem own_of_methodErrors {cls : String} {method : Method}
    (clean : m.methodErrors h cls method = []) : m.own.contains method.name = false := by
  rw [methodErrors, List.append_eq_nil_iff] at clean
  cases own : m.own.contains method.name with
  | false => rfl
  | true =>
    have repeated := clean.2
    simp only [methodPlacement, own, if_true] at repeated
    cases repeated

theorem refines_addFields {fields : List Field} (solid : base.Coherent) (coherent : m.Coherent)
    (refines : Refines h base m) (plain : ∀ f ∈ fields, f.ty.isMethod = false)
    (below : ∀ f ∈ m.placeFields fields, ∀ t, base.layout.fieldAt? f.offset = some t →
      f.ty.subtype h t = true)
    (fits : (m.addFields fields).layout.Fits) :
    (m.addFields fields).Coherent ∧ Refines h base (m.addFields fields) := by
  induction fields generalizing m with
  | nil => exact ⟨coherent, refines⟩
  | cons f fields ih =>
    have isField := plain f List.mem_cons_self
    have adds := addField_adds coherent isField (fits_of_addFields fits)
    refine ih (coherent.adds adds) (refines.adds solid ?_ adds)
      (fun g mem => plain g (List.mem_cons_of_mem _ mem))
      (fun g mem => below g (List.mem_cons_of_mem _ mem)) fits
    intro t used
    rw [isField] at used
    exact below _ List.mem_cons_self t used

theorem refines_addMethods {ctx : Context} {methods : List Method} (solid : base.Coherent)
    (coherent : m.Coherent) (refines : Refines h base m)
    (below : ∀ method ∈ Decl.resolveMethods ctx m methods, ∀ sig,
      base.layout.methodAt? method.offset = some sig →
        (Ty.method method.routine.signature).subtype h (.method sig) = true)
    (fits : (m.addMethods methods).layout.Fits) :
    (m.addMethods methods).Coherent ∧ Refines h base (m.addMethods methods) := by
  induction methods generalizing m with
  | nil => exact ⟨coherent, refines⟩
  | cons method methods ih =>
    obtain ⟨routine, offset⟩ := method
    have adds := addMethod_adds coherent (fits_of_addMethods fits)
    refine ih (coherent.adds adds) (refines.adds solid ?_ adds)
      (fun other mem => below other (List.mem_cons_of_mem _ mem)) fits
    intro t used
    obtain ⟨sig, entry, rfl⟩ := Option.map_eq_some_iff.mp used
    have sub := below _ List.mem_cons_self sig entry
    rwa [Decl.resolveRoutine_eq] at sub

theorem refines_trans {low mid high : Members} (first : Refines h high mid)
    (second : Refines h mid low) : Refines h high low where
  slots := by
    intro kind offset t used
    obtain ⟨u, used, upper⟩ := first.slots kind offset t used
    obtain ⟨v, used, lower⟩ := second.slots kind offset u used
    exact ⟨v, used, Ty.subtype_trans h u v t lower upper⟩
  names := by
    intro name b found
    obtain ⟨c, found, place, kind, upper⟩ := first.names name b found
    obtain ⟨d, found, place', kind', lower⟩ := second.names name c found
    exact ⟨d, found, place'.trans place, kind'.trans kind,
      Ty.subtype_trans h c.ty d.ty b.ty lower upper⟩

end Members

structure Layout.Complete (l : Layout) : Prop where
  fields : ∀ t ∈ l.fields, t.containsIncomplete = false
  methods : ∀ sig ∈ l.methods, (Ty.method sig).containsIncomplete = false

namespace Members

variable {h : Inheritance} {m : Members}

theorem complete_addField {f : Field} (complete : m.layout.Complete)
    (own : f.ty.containsIncomplete = false) : (m.addField f).layout.Complete := by
  have appended : (m.appendField f.ty).Complete := by
    refine ⟨?_, complete.methods⟩
    intro t mem
    rcases List.mem_append.mp mem with mem | mem
    · exact complete.fields t mem
    · exact List.mem_singleton.mp mem ▸ own
  unfold addField
  split
  · exact complete
  · exact appended
  · refine ⟨?_, complete.methods⟩
    intro t mem
    rcases List.mem_or_eq_of_mem_set mem with mem | same
    · exact complete.fields t mem
    · exact same ▸ own
  · exact appended

theorem complete_addMethod {name : String} {sig : Signature} (complete : m.layout.Complete)
    (own : (Ty.method sig).containsIncomplete = false) :
    (m.addMethod name sig).layout.Complete := by
  have appended : (m.appendMethod sig).Complete := by
    refine ⟨complete.fields, ?_⟩
    intro other mem
    rcases List.mem_append.mp mem with mem | mem
    · exact complete.methods other mem
    · exact List.mem_singleton.mp mem ▸ own
  unfold addMethod
  split
  · exact complete
  · exact appended
  · unfold replaceMethod
    split
    · refine ⟨complete.fields, ?_⟩
      intro other mem
      rcases List.mem_or_eq_of_mem_set mem with mem | same
      · exact complete.methods other mem
      · exact same ▸ own
    · exact complete
  · exact appended

theorem complete_addFields {fields : List Field} (complete : m.layout.Complete)
    (new : ∀ f ∈ fields, f.ty.containsIncomplete = false) :
    (m.addFields fields).layout.Complete := by
  induction fields generalizing m with
  | nil => exact complete
  | cons f fields ih =>
    exact ih (complete_addField complete (new f List.mem_cons_self))
      fun g mem => new g (List.mem_cons_of_mem _ mem)

theorem complete_addMethods {methods : List Method} (complete : m.layout.Complete)
    (new : ∀ method ∈ methods,
      (Ty.method method.routine.signature).containsIncomplete = false) :
    (m.addMethods methods).layout.Complete := by
  induction methods generalizing m with
  | nil => exact complete
  | cons method methods ih =>
    exact ih (complete_addMethod complete (new method List.mem_cons_self))
      fun other mem => new other (List.mem_cons_of_mem _ mem)

theorem refines_refl (coherent : m.Coherent) (complete : m.layout.Complete) : Refines h m m := by
  have known (kind : Bool) (offset : Word) (t : Ty) (used : m.layout.typeAt? kind offset = some t) :
      t.containsIncomplete = false := by
    cases kind with
    | false => exact complete.fields t (List.mem_of_getElem? (Layout.fieldAt?_eq_some.mp used).2)
    | true =>
      obtain ⟨sig, found, rfl⟩ := Option.map_eq_some_iff.mp used
      obtain ⟨i, _, entry⟩ := Layout.methodAt?_eq_some.mp found
      exact complete.methods sig (List.mem_of_getElem? entry)
  constructor
  · intro kind offset t used
    exact ⟨t, used, t.subtype_refl h (known kind offset t used)⟩
  · intro name b found
    exact ⟨b, found, rfl, rfl, b.ty.subtype_refl h (known _ _ _ (coherent.slot name b found))⟩

end Members

namespace Context

def HasClass (ctx : Context) (name : String) (layout : Layout) (table : Table Binding) : Prop :=
  ctx.classes.find? name = some table ∧
    ∃ b, ctx.scopes.lookupGlobal name = some b ∧ b.ty = .cls layout

theorem HasClass.unique {ctx : Context} {name : String} {l l' : Layout} {t t' : Table Binding}
    (first : ctx.HasClass name l t) (second : ctx.HasClass name l' t') : l = l' ∧ t = t' := by
  obtain ⟨listed, b, found, shape⟩ := first
  obtain ⟨listed', b', found', shape'⟩ := second
  rw [listed, Option.some.injEq] at listed'
  rw [found, Option.some.injEq] at found'
  subst found'
  rw [shape, Ty.cls.injEq] at shape'
  exact ⟨shape', listed'⟩

theorem parent?_eq_some {ctx : Context} {c : ClassDecl} {parent : Parent}
    (found : ctx.parent? c = some parent) :
    c.parent = some parent.name ∧ parent.binding.ty = .cls parent.layout ∧
      ctx.HasClass parent.name parent.layout parent.table := by
  unfold parent? at found
  obtain ⟨name, named, found⟩ := Option.bind_eq_some_iff.mp found
  split at found
  · rename_i binding table known listed
    split at found
    · rename_i layout shape
      cases found
      exact ⟨named, shape, listed, binding, known, shape⟩
    · cases found
  · cases found

/-- What holds of the classes of a context whenever declarations are read: each has a layout beside
its member table, in agreement with it, and refines its parent. -/
structure Hierarchical (h : Inheritance) (ctx : Context) : Prop where
  global : ∃ table, ctx.scopes.tables = [table]
  classes : ∀ name table, ctx.classes.find? name = some table →
    ∃ layout, ctx.HasClass name layout table ∧ layout.Complete ∧
      (layout.Fits → Members.Coherent ⟨layout, table, []⟩)
  recorded : ∀ name, ctx.inheritance.contains name = ctx.classes.contains name
  refines : ∀ name parent, ctx.inheritance.parent? name = some parent →
    ∃ low lowTable high highTable, ctx.HasClass name low lowTable ∧
      ctx.HasClass parent high highTable ∧
      (low.Fits → high.Fits ∧ Members.Refines h ⟨high, highTable, []⟩ ⟨low, lowTable, []⟩)

theorem hierarchical_initial (h : Inheritance) : Hierarchical h initial where
  global := ⟨{}, rfl⟩
  classes := by
    intro name table found
    cases found
  recorded := fun _ => rfl
  refines := by
    intro name parent found
    cases found

theorem HasClass.declare {ctx : Context} {name : String} {layout : Layout} {table : Table Binding}
    (known : ctx.HasClass name layout table) (other : String) (ty : Ty) :
    (ctx.declare other ty).HasClass name layout table := by
  obtain ⟨listed, b, found, shape⟩ := known
  exact ⟨listed, b, Scopes.lookupGlobal_declare found, shape⟩

theorem Hierarchical.declare {h : Inheritance} {ctx : Context} (sound : ctx.Hierarchical h)
    (name : String) (ty : Ty) : (ctx.declare name ty).Hierarchical h where
  global := by
    obtain ⟨⟨tables⟩, _, _, _⟩ := ctx
    obtain ⟨table, rfl⟩ := sound.global
    simp only [Context.declare, Scopes.declare_cons]
    exact ⟨_, rfl⟩
  classes := by
    intro cls table listed
    obtain ⟨layout, known, rest⟩ := sound.classes cls table listed
    exact ⟨layout, known.declare name ty, rest⟩
  recorded := sound.recorded
  refines := by
    intro cls parent up
    obtain ⟨l, t, l', t', low, high, rest⟩ := sound.refines cls parent up
    exact ⟨l, t, l', t', low.declare name ty, high.declare name ty, rest⟩

theorem Hierarchical.inherited {h : Inheritance} {ctx : Context} (sound : ctx.Hierarchical h)
    (c : ClassDecl) :
    (ctx.inherited c).layout.Complete ∧
      ((ctx.inherited c).layout.Fits → (ctx.inherited c).Coherent) := by
  unfold Context.inherited
  cases up : ctx.parent? c with
  | none =>
    exact ⟨⟨by simp [Layout.empty], by simp [Layout.empty]⟩, fun _ => Members.coherent_empty⟩
  | some parent =>
    obtain ⟨_, _, known⟩ := parent?_eq_some up
    obtain ⟨layout, known', complete, coherent⟩ := sound.classes _ _ known.1
    obtain ⟨rfl, _⟩ := known.unique known'
    exact ⟨complete, coherent⟩

end Context

namespace ClassDecl

variable {h : Inheritance} {ctx : Context} {c : ClassDecl}

theorem parentLayout?_resolve {parent : Parent} (up : ctx.parent? c = some parent) :
    (c.resolve ctx).parentLayout? = some parent.layout := by
  obtain ⟨_, shape, _⟩ := Context.parent?_eq_some up
  simp [parentLayout?, ClassDecl.resolve, up, shape]

theorem fields_below (silent : (c.resolve ctx).overrideFindings h = []) :
    ∀ f ∈ (ctx.inherited c).placeFields c.fields, ∀ t,
      (ctx.inherited c).layout.fieldAt? f.offset = some t → f.ty.subtype h t = true := by
  intro f mem t used
  cases up : ctx.parent? c with
  | none => simp [Context.inherited, up, Layout.empty, Layout.fieldAt?] at used
  | some parent =>
    simp only [Context.inherited, up] at used mem
    simp only [overrideFindings, parentLayout?_resolve up, List.append_eq_nil_iff,
      List.flatMap_eq_nil_iff] at silent
    have quiet := silent.1 f (by simpa [ClassDecl.resolve, Context.inherited, up] using mem)
    simp only [fieldFindings, used] at quiet
    simpa using quiet

theorem methods_below (silent : (c.resolve ctx).overrideFindings h = []) :
    ∀ m ∈ (c.resolve ctx).methods, ∀ sig,
      (ctx.inherited c).layout.methodAt? m.offset = some sig →
        (Ty.method m.routine.signature).subtype h (.method sig) = true := by
  intro m mem sig used
  cases up : ctx.parent? c with
  | none => simp [Context.inherited, up, Layout.empty, Layout.methodAt?] at used
  | some parent =>
    simp only [Context.inherited, up] at used
    simp only [overrideFindings, parentLayout?_resolve up, List.append_eq_nil_iff,
      List.flatMap_eq_nil_iff] at silent
    have quiet := silent.2 m mem
    simp only [methodFindings, used] at quiet
    simpa using quiet

end ClassDecl

theorem Ty.isMethod_of_isPlain {ty : Ty} (plain : ty.isPlain = true) : ty.isMethod = false := by
  cases ty with
  | method => simp [isPlain] at plain
  | _ => rfl

abbrev Decl.Plain (types : List Ty) : Prop := ∀ ty ∈ types, ty.isPlain = true

theorem Decl.Plain.complete {types : List Ty} (plain : Decl.Plain types) : Decl.Complete types :=
  fun ty mem => ty.complete_of_isPlain (plain ty mem)

theorem Routine.complete_method {r : Routine} (complete : Decl.Complete (Decl.routineDeclaredTypes r)) :
    (Ty.method r.signature).containsIncomplete = false := by
  obtain ⟨⟨params, ret⟩, _⟩ := Decl.types_routine complete
  simp only [Routine.signature, Ty.containsIncomplete, Bool.or_eq_false_iff, Ty.anyIncomplete_iff]
  refine ⟨?_, ret⟩
  intro ty mem
  obtain ⟨p, listed, rfl⟩ := List.mem_map.mp mem
  exact params p listed

namespace Context

variable {h : Inheritance} {ctx : Context} {c : ClassDecl}

theorem Hierarchical.members_complete (sound : ctx.Hierarchical h)
    (plain : Decl.Plain (Decl.cls c).declaredTypes) : (ctx.members c).layout.Complete := by
  obtain ⟨fields, methods⟩ := Decl.types_cls plain.complete
  exact Members.complete_addMethods
    (Members.complete_addFields (sound.inherited c).1 fields)
    fun m mem => Routine.complete_method (methods m mem)

theorem Hierarchical.fields (sound : ctx.Hierarchical h)
    (plain : Decl.Plain (Decl.cls c).declaredTypes)
    (silent : (c.resolve ctx).overrideFindings h = [])
    (fits : ((ctx.inherited c).addFields c.fields).layout.Fits) :
    ((ctx.inherited c).addFields c.fields).Coherent ∧
      Members.Refines h (ctx.inherited c) ((ctx.inherited c).addFields c.fields) := by
  obtain ⟨complete, coherent⟩ := sound.inherited c
  have solid := coherent (Members.fits_of_addFields fits)
  have plainFields : ∀ f ∈ c.fields, f.ty.isMethod = false :=
    fun f mem => Ty.isMethod_of_isPlain ((Decl.types_cls plain).1 f mem)
  exact Members.refines_addFields solid solid (Members.refines_refl solid complete) plainFields
    (ClassDecl.fields_below silent) fits

theorem Hierarchical.members (sound : ctx.Hierarchical h)
    (plain : Decl.Plain (Decl.cls c).declaredTypes)
    (silent : (c.resolve ctx).overrideFindings h = []) (fits : (ctx.members c).layout.Fits) :
    (ctx.inherited c).layout.Fits ∧ (ctx.members c).Coherent ∧
      Members.Refines h (ctx.inherited c) (ctx.members c) := by
  have fitsFields : ((ctx.inherited c).addFields c.fields).layout.Fits :=
    Members.fits_of_addMethods fits
  have fitsBase := Members.fits_of_addFields fitsFields
  obtain ⟨afterFields, refines⟩ := sound.fields plain silent fitsFields
  exact ⟨fitsBase, Members.refines_addMethods ((sound.inherited c).2 fitsBase) afterFields refines
    (ClassDecl.methods_below silent) fits⟩

end Context

theorem ClassDecl.free_of_header {ctx : Context} {c : ClassDecl} (header : c.headerErrors ctx = []) :
    ctx.scopes.declaresHere c.name = false := by
  simp only [headerErrors, List.append_eq_nil_iff] at header
  simpa using header.2

namespace Context

variable {h : Inheritance} {ctx : Context} {c : ClassDecl}

theorem Hierarchical.lookupGlobal_free (sound : ctx.Hierarchical h) {name : String}
    (free : ctx.scopes.declaresHere name = false) : ctx.scopes.lookupGlobal name = none := by
  obtain ⟨⟨tables⟩, _, _, _⟩ := ctx
  obtain ⟨table, rfl⟩ := sound.global
  exact Scopes.declaresHere_cons.mp free

theorem Hierarchical.ne_of_free (sound : ctx.Hierarchical h) {name other : String} {layout : Layout}
    {table : Table Binding} (free : ctx.scopes.declaresHere name = false)
    (known : ctx.HasClass other layout table) : other ≠ name := by
  rintro rfl
  obtain ⟨_, b, found, _⟩ := known
  rw [sound.lookupGlobal_free free] at found
  cases found

theorem Hierarchical.unrecorded (sound : ctx.Hierarchical h) {name : String}
    (free : ctx.scopes.declaresHere name = false) : ctx.inheritance.contains name = false := by
  rw [sound.recorded, Table.contains]
  cases listed : ctx.classes.find? name with
  | none => rfl
  | some table =>
    obtain ⟨layout, known, _⟩ := sound.classes name table listed
    exact absurd rfl (sound.ne_of_free free known)

theorem Hierarchical.keeps_class (sound : ctx.Hierarchical h) {name : String} {layout : Layout}
    {table : Table Binding} (known : ctx.HasClass name layout table) :
    (ctx.declareClass c).HasClass name layout table := by
  obtain ⟨listed, b, found, shape⟩ := known
  exact ⟨find?_declareClass_of_find? sound.recorded listed c, b, Scopes.lookupGlobal_declare found,
    shape⟩

theorem Hierarchical.new_class (sound : ctx.Hierarchical h)
    (free : ctx.scopes.declaresHere c.name = false) :
    (ctx.declareClass c).HasClass c.name (ctx.members c).layout (ctx.members c).table := by
  refine ⟨find?_declareClass_self (sound.unrecorded free), ctx.classBinding c, ?_, rfl⟩
  obtain ⟨table, single⟩ := sound.global
  have scopes : ctx.scopes = ⟨[table]⟩ := by rw [← single]
  have unused := sound.lookupGlobal_free free
  rw [scopes, Scopes.lookupGlobal_singleton] at unused
  simp only [Context.declareClass]
  rw [scopes, Scopes.declare_cons, if_pos unused, Scopes.lookupGlobal_singleton,
    Table.find?_insert_self]

theorem Hierarchical.declareClass (sound : ctx.Hierarchical h) (header : c.headerErrors ctx = [])
    (plain : Decl.Plain (Decl.cls c).declaredTypes)
    (silent : (c.resolve ctx).overrideFindings h = []) : (ctx.declareClass c).Hierarchical h := by
  have free := ClassDecl.free_of_header header
  refine ⟨?_, ?_, ?_, ?_⟩
  · exact (sound.declare c.name (.cls (ctx.members c).layout)).global
  · intro name table listed
    rcases find?_declareClass listed with old | ⟨rfl, rfl⟩
    · obtain ⟨layout, known, rest⟩ := sound.classes name table old
      exact ⟨layout, sound.keeps_class known, rest⟩
    · refine ⟨_, sound.new_class free, sound.members_complete plain, ?_⟩
      intro fits
      obtain ⟨_, coherent, _⟩ := sound.members plain silent fits
      exact ⟨coherent.slot, coherent.apart⟩
  · exact recorded_declareClass sound.recorded c
  · intro name parent up
    rcases parent?_declareClass (sound.unrecorded free) up with old | ⟨rfl, above, found, rfl⟩
    · obtain ⟨l, t, l', t', low, high, rest⟩ := sound.refines name parent old
      exact ⟨l, t, l', t', sound.keeps_class low, sound.keeps_class high, rest⟩
    · obtain ⟨_, _, known⟩ := parent?_eq_some found
      refine ⟨_, _, _, _, sound.new_class free, sound.keeps_class known, ?_⟩
      intro fits
      obtain ⟨fitsAbove, _, refines⟩ := sound.members plain silent fits
      simp only [Context.inherited, found] at fitsAbove refines
      exact ⟨fitsAbove, refines.slots, refines.names⟩

theorem Hierarchical.after {d : Decl} (sound : ctx.Hierarchical h) (typed : d.Typed h ctx)
    (plain : Decl.Plain d.declaredTypes) : (ctx.after d).Hierarchical h := by
  cases typed with
  | var | fn => exact sound.declare _ _
  | cls global header overrides methods =>
    rw [Context.after, if_pos global]
    exact sound.declareClass header plain overrides

theorem Hierarchical.foldl {ds : List Decl} (sound : ctx.Hierarchical h)
    (typed : Decl.AllTyped h ctx ds) (plain : Decl.Plain (Decl.allDeclaredTypes ds)) :
    (ds.foldl Context.after ctx).Hierarchical h := by
  induction ds generalizing ctx with
  | nil => exact sound
  | cons d ds ih =>
    obtain ⟨first, rest⟩ := Decl.types_cons plain
    cases typed with
    | cons head tail => exact ih (sound.after head first) tail rest

end Context

structure Context.Grows (ctx ctx' : Context) : Prop where
  classes : ∀ {name layout table}, ctx.HasClass name layout table →
    ctx'.HasClass name layout table
  parents : ∀ {name parent}, ctx.inheritance.Parent name parent →
    ctx'.inheritance.Parent name parent

namespace Context

variable {h : Inheritance} {ctx : Context}

theorem Hierarchical.grows_after {d : Decl} (sound : ctx.Hierarchical h) (typed : d.Typed h ctx) :
    ctx.Grows (ctx.after d) := by
  cases typed with
  | var | fn => exact ⟨fun known => known.declare _ _, fun up => up⟩
  | cls global header overrides methods =>
    have free := ClassDecl.free_of_header header
    rw [Context.after, if_pos global]
    refine ⟨sound.keeps_class, ?_⟩
    intro name parent up
    obtain ⟨_, _, _, _, known, _⟩ := sound.refines name parent up
    rw [Inheritance.Parent, Inheritance.parent?,
      inheritance_declareClass (sound.unrecorded free),
      Table.find?_insert_of_ne _ (sound.ne_of_free free known)]
    exact up

theorem Hierarchical.grows_foldl {ds : List Decl} (sound : ctx.Hierarchical h)
    (typed : Decl.AllTyped h ctx ds) (plain : Decl.Plain (Decl.allDeclaredTypes ds)) :
    ctx.Grows (ds.foldl Context.after ctx) := by
  induction ds generalizing ctx with
  | nil => exact ⟨fun known => known, fun up => up⟩
  | cons d ds ih =>
    obtain ⟨first, rest⟩ := Decl.types_cons plain
    cases typed with
    | cons head tail =>
      have one := sound.grows_after head
      have more := ih (sound.after head first) tail rest
      exact ⟨fun known => more.classes (one.classes known),
        fun up => more.parents (one.parents up)⟩

end Context

theorem Context.Hierarchical.refines_above {h : Inheritance} {ctx : Context}
    (sound : ctx.Hierarchical h) {name above : String} {layout : Layout} {table : Table Binding}
    (known : ctx.HasClass name layout table) (fits : layout.Fits)
    (path : Relation.ReflTransGen ctx.inheritance.Parent name above) :
    ∃ high highTable, ctx.HasClass above high highTable ∧ high.Fits ∧
      Members.Refines h ⟨high, highTable, []⟩ ⟨layout, table, []⟩ := by
  induction path with
  | refl =>
    obtain ⟨layout', known', complete, coherent⟩ := sound.classes name table known.1
    obtain ⟨rfl, _⟩ := known.unique known'
    exact ⟨layout, table, known, fits, Members.refines_refl (coherent fits) complete⟩
  | tail _ up ih =>
    obtain ⟨mid, midTable, isMid, midFits, refines⟩ := ih
    obtain ⟨mid', midTable', high, highTable, isMid', isHigh, step⟩ := sound.refines _ _ up
    obtain ⟨rfl, rfl⟩ := isMid.unique isMid'
    obtain ⟨highFits, higher⟩ := step midFits
    exact ⟨high, highTable, isHigh, highFits, Members.refines_trans higher refines⟩

theorem Members.Refines.field {h : Inheritance} {base m : Members} (refines : Refines h base m)
    (fits : base.layout.Fits) {i : Nat} {t : Ty} (used : base.layout.fields[i]? = some t) :
    ∃ t', m.layout.fields[i]? = some t' ∧ t'.subtype h t = true := by
  obtain ⟨bound, _⟩ := List.getElem?_eq_some_iff.mp used
  have small : i < Word.limit := Nat.lt_of_lt_of_le bound fits.fields
  obtain ⟨t', used', sub⟩ := refines.slots false (Layout.fieldOffset i) t
    (by rw [Layout.typeAt?, Layout.fieldAt?_fieldOffset _ small, used])
  rw [Layout.typeAt?, Layout.fieldAt?_fieldOffset _ small] at used'
  exact ⟨t', used', sub⟩

theorem Members.Refines.method {h : Inheritance} {base m : Members} (refines : Refines h base m)
    (fits : base.layout.Fits) {i : Nat} {sig : Signature}
    (used : base.layout.methods[i]? = some sig) :
    ∃ sig', m.layout.methods[i]? = some sig' ∧
      (Ty.method sig').subtype h (.method sig) = true := by
  obtain ⟨bound, _⟩ := List.getElem?_eq_some_iff.mp used
  have small : i < Word.limit := Nat.lt_of_lt_of_le bound fits.methods
  obtain ⟨t', used', sub⟩ := refines.slots true (Int32.ofNat i) (.method sig)
    (by rw [Layout.typeAt?, Layout.methodAt?_ofNat _ small, used]; rfl)
  rw [Layout.typeAt?, Layout.methodAt?_ofNat _ small, Option.map_eq_some_iff] at used'
  obtain ⟨sig', used', rfl⟩ := used'
  exact ⟨sig', used', sub⟩

def Program.classType? (p : Program) (name : String) : Option Layout :=
  (p.context.scopes.lookupGlobal name).bind fun b =>
    match b.ty with
    | .cls layout => some layout
    | _ => none

theorem Context.HasClass.classType? {p : Program} {name : String} {layout : Layout}
    {table : Table Binding} (known : p.context.HasClass name layout table) :
    p.classType? name = some layout := by
  obtain ⟨_, b, found, shape⟩ := known
  simp [Program.classType?, found, shape]

theorem Program.hierarchical {p : Program} {ty : Ty} (plain : Decl.Plain p.declaredTypes)
    (typed : p.Typed ty) : p.context.Hierarchical p.context.inheritance :=
  (Context.hierarchical_initial _).foldl typed.decls plain

/-- A subclass can stand for any class above it, at whatever distance: it has each of its names, at
the same offset, of the same kind and with a subtype, and each of its slots with a subtype. Offsets
are words, so the subclass is asked to have at most 2 ^ 31 fields and as many methods. -/
theorem Program.subclass_substitutable (p : Program)
    (plain : ∀ ty ∈ p.declaredTypes, ty.isPlain = true) (silent : p.report.isEmpty = true)
    {sub super : String} {subTable : Table Binding}
    (declared : p.resolve.classes.find? sub = some subTable)
    (sized : ∀ layout, p.classType? sub = some layout → layout.Fits)
    (above : p.resolve.inheritance.isAncestor super sub = true) :
    ∃ superTable subType superType, p.resolve.classes.find? super = some superTable ∧
      p.classType? sub = some subType ∧ p.classType? super = some superType ∧
      (∀ name b, superTable.find? name = some b →
        ∃ b', subTable.find? name = some b' ∧ b'.offset = b.offset ∧
          b'.ty.isMethod = b.ty.isMethod ∧ b'.ty.subtype p.resolve.inheritance b.ty = true) ∧
      (∀ (i : Nat) (t : Ty), superType.fields[i]? = some t →
        ∃ t', subType.fields[i]? = some t' ∧ t'.subtype p.resolve.inheritance t = true) ∧
      ∀ (i : Nat) (sig : Signature), superType.methods[i]? = some sig →
        ∃ sig', subType.methods[i]? = some sig' ∧
          (Ty.method sig').subtype p.resolve.inheritance (.method sig) = true := by
  obtain ⟨ty, typed, _⟩ := p.typed_of_report (Decl.Plain.complete plain) silent
  have sound := hierarchical plain typed
  obtain ⟨subType, isSub, _⟩ := sound.classes sub subTable declared
  have fits := sized subType isSub.classType?
  have path := (p.context.inheritance.isAncestor_iff super sub).mp above
  obtain ⟨superType, superTable, isSuper, superFits, refines⟩ :=
    sound.refines_above isSub fits path
  exact ⟨superTable, subType, superType, isSuper.1, isSub.classType?, isSuper.classType?,
    refines.names, fun _ _ => refines.field superFits, fun _ _ => refines.method superFits⟩

def Program.lineOfThree : Program where
  decls := [
    .cls ⟨1, "A", none, [⟨1, "x", .int, 0⟩],
      [⟨⟨2, "me", .ref "A", [⟨2, "n", .int⟩], [], .null 2⟩, 0⟩], none, none⟩,
    .cls ⟨3, "B", some "A", [⟨3, "y", .bool, 0⟩],
      [⟨⟨4, "it", .int, [], [], .id 4 ⟨"x", none⟩⟩, 0⟩,
        ⟨⟨5, "me", .ref "B", [⟨5, "n", .int⟩], [], .null 5⟩, 0⟩], none, none⟩,
    .cls ⟨6, "C", some "B", [⟨6, "x", .bool, 0⟩],
      [⟨⟨7, "me", .ref "C", [⟨7, "n", .int⟩], [], .null 7⟩, 0⟩], none, none⟩]
  body := .null 8

theorem Program.subclass_substitutable_lineOfThree :
    ∃ subTable superTable, lineOfThree.resolve.classes.find? "C" = some subTable ∧
      lineOfThree.resolve.classes.find? "A" = some superTable ∧
      superTable.contains "me" = true ∧
      ∀ name b, superTable.find? name = some b →
        ∃ b', subTable.find? name = some b' ∧ b'.offset = b.offset ∧
          b'.ty.isMethod = b.ty.isMethod ∧
          b'.ty.subtype lineOfThree.resolve.inheritance b.ty = true := by
  obtain ⟨subTable, declared⟩ : ∃ t, lineOfThree.resolve.classes.find? "C" = some t :=
    Option.isSome_iff_exists.mp (by decide +kernel)
  have sized : ∀ layout ∈ lineOfThree.classType? "C", layout.Fits := by decide +kernel
  obtain ⟨superTable, _, _, above, _, _, names, _⟩ :=
    lineOfThree.subclass_substitutable (by decide) (by decide +kernel) declared sized
      (by decide +kernel : lineOfThree.resolve.inheritance.isAncestor "A" "C" = true)
  have has : (lineOfThree.resolve.classes.find? "A").any (·.contains "me") = true := by
    decide +kernel
  rw [above] at has
  exact ⟨subTable, superTable, declared, above, has, names⟩

/-- One field or one method more, and a subclass can widen the last one without a report. -/
theorem Program.subclass_widens_unreported :
    ((∀ ty ∈ (oneTooMany false).declaredTypes, ty.isPlain = true) ∧
      (oneTooMany false).report.isEmpty = true ∧
      (oneTooMany false).resolve.inheritance.isAncestor "A" "B" = true ∧
      (oneTooMany false).Widens "B" "A" (seriesName Word.limit)) ∧
    (∀ ty ∈ (oneTooMany true).declaredTypes, ty.isPlain = true) ∧
      (oneTooMany true).report.isEmpty = true ∧
      (oneTooMany true).resolve.inheritance.isAncestor "A" "B" = true ∧
      (oneTooMany true).Widens "B" "A" (seriesName Word.limit) :=
  ⟨⟨plain_oneTooMany false, silent_oneTooMany false, isAncestor_redeclaring _ _ false,
      widens_oneTooMany false⟩,
    plain_oneTooMany true, silent_oneTooMany true, isAncestor_redeclaring _ _ true,
    widens_oneTooMany true⟩

end ObjectLang
