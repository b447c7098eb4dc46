import ObjectLang.Proofs.Scope.Stack

/-!
Types of the names a context knows. If a property holds of every type that declarations introduce,
it holds of whatever a name can be looked up as, in the open scopes and in the classes.
-/
namespace ObjectLang

namespace Table

variable {P : Binding → Prop}

def Every (P : Binding → Prop) (t : Table Binding) : Prop :=
  ∀ name b, t.find? name = some b → P b

theorem every_empty : Every P {} := by
  intro name b found
  cases found

theorem Every.insert {t : Table Binding} (every : t.Every P) {name : String} {b : Binding}
    (new : P b) : (t.insert name b).Every P := by
  intro other c found
  rcases find?_insert_eq_some.mp found with ⟨_, rfl⟩ | ⟨_, old⟩
  · exact new
  · exact every other c old

end Table

namespace Members

variable {P : Binding → Prop}

theorem every_addField {m : Members} (every : m.table.Every P) {f : Field}
    (new : ∀ offset, P ⟨level, f.ty, offset⟩) : (m.addField f).table.Every P := by
  unfold addField
  split
  · exact every
  · exact every
  · exact every.insert (new _)
  · exact every.insert (new _)

theorem every_addMethod {m : Members} (every : m.table.Every P) {name : String} {sig : Signature}
    (new : ∀ offset, P ⟨level, .method sig, offset⟩) : (m.addMethod name sig).table.Every P := by
  unfold addMethod
  split
  · exact every
  · exact every
  · exact every.insert (new _)
  · exact every.insert (new _)

theorem every_addFields {m : Members} (every : m.table.Every P) {fields : List Field}
    (new : ∀ f ∈ fields, ∀ offset, P ⟨level, f.ty, offset⟩) :
    (m.addFields fields).table.Every P := by
  induction fields generalizing m with
  | nil => exact every
  | cons f fields ih =>
    exact ih (every_addField every (new f List.mem_cons_self))
      fun q mem => new q (List.mem_cons_of_mem _ mem)

theorem every_addMethods {m : Members} (every : m.table.Every P) {methods : List Method}
    (new : ∀ m ∈ methods, ∀ offset, P ⟨level, .method m.routine.signature, offset⟩) :
    (m.addMethods methods).table.Every P := by
  induction methods generalizing m with
  | nil => exact every
  | cons method methods ih =>
    exact ih (every_addMethod every (new method List.mem_cons_self))
      fun q mem => new q (List.mem_cons_of_mem _ mem)

end Members

theorem Context.every_members {P : Binding → Prop} {ctx : Context}
    (every : ∀ name table, ctx.classes.find? name = some table → table.Every P) {c : ClassDecl}
    (fields : ∀ f ∈ c.fields, ∀ offset, P ⟨Members.level, f.ty, offset⟩)
    (methods : ∀ m ∈ c.methods, ∀ offset, P ⟨Members.level, .method m.routine.signature, offset⟩) :
    (ctx.members c).table.Every P := by
  refine Members.every_addMethods (Members.every_addFields ?_ fields) methods
  unfold Context.inherited
  split
  · rename_i parent found
    -- The inherited table is the one recorded for the parent.
    unfold Context.parent? at found
    obtain ⟨name, _, found⟩ := Option.bind_eq_some_iff.mp found
    split at found
    · rename_i binding table _ listed
      split at found
      · cases found
        exact every name table listed
      · cases found
    · cases found
  · exact Table.every_empty

variable {P : Ty → Prop}

abbrev Table.EveryType (P : Ty → Prop) (t : Table Binding) : Prop := t.Every fun b => P b.ty

namespace Scopes

def Every (P : Ty → Prop) (s : Scopes) : Prop := ∀ table ∈ s.tables, table.EveryType P

theorem Every.lookup {s : Scopes} (every : s.Every P) {name : String} {b : Binding}
    (found : s.lookup name = some b) : P b.ty := by
  obtain ⟨table, mem, entry⟩ := List.exists_of_findSome?_eq_some found
  exact every table mem name b entry

theorem Every.enter {s : Scopes} (every : s.Every P) {table : Table Binding}
    (inside : table.EveryType P) : (s.enter table).Every P := by
  intro t mem
  rcases List.mem_cons.mp mem with rfl | mem
  · exact inside
  · exact every t mem

theorem Every.declare {s : Scopes} (every : s.Every P) {name : String} {b : Binding}
    (new : P b.ty) : (s.declare name b).Every P := by
  obtain ⟨tables⟩ := s
  unfold Scopes.declare declare?
  cases tables with
  | nil => exact every
  | cons table rest =>
    cases known : table.find? name with
    | some existing => simpa [known] using every
    | none =>
      simp only [known]
      intro t mem
      rcases List.mem_cons.mp mem with rfl | mem
      · exact (every table List.mem_cons_self).insert new
      · exact every t (List.mem_cons_of_mem _ mem)

theorem Every.declareParams {s : Scopes} (every : s.Every P) {offset : Word} {params : List Param}
    (new : ∀ p ∈ params, P p.ty) : (s.declareParams offset params).Every P := by
  induction params generalizing s offset with
  | nil => exact every
  | cons p params ih =>
    exact ih (every.declare (new p List.mem_cons_self))
      fun q mem => new q (List.mem_cons_of_mem _ mem)

end Scopes

def Decl.Introduces (P : Ty → Prop) : Decl → Prop
  | .var decl => P decl.ty
  | .fn routine => P (.arrow routine.signature)
  | .cls c => (∀ f ∈ c.fields, P f.ty) ∧ (∀ m ∈ c.methods, P (.method m.routine.signature)) ∧
    ∀ layout, P (.cls layout)

namespace Context

structure Every (P : Ty → Prop) (ctx : Context) : Prop where
  scopes : ctx.scopes.Every P
  classes : ∀ name table, ctx.classes.find? name = some table → table.EveryType P

theorem every_initial : Every P initial where
  scopes := by
    intro table mem
    simp only [initial, Scopes.enter, List.mem_cons, List.not_mem_nil, or_false] at mem
    exact mem ▸ Table.every_empty
  classes := by
    intro name table found
    cases found

theorem Every.memberOf {ctx : Context} (every : ctx.Every P) {cls member : String}
    {table : Table Binding} {b : Binding} (listed : ctx.classes.find? cls = some table)
    (found : table.find? member = some b) : P b.ty :=
  every.classes cls table listed member b found

theorem Every.members {ctx : Context} (every : ctx.Every P) {c : ClassDecl}
    (fields : ∀ f ∈ c.fields, P f.ty) (methods : ∀ m ∈ c.methods, P (.method m.routine.signature)) :
    (ctx.members c).table.EveryType P :=
  every_members every.classes (fun f mem _ => fields f mem) fun m mem _ => methods m mem

theorem Every.declareClass {ctx : Context} (every : ctx.Every P) {c : ClassDecl}
    (new : (Decl.cls c).Introduces P) : (ctx.declareClass c).Every P where
  scopes := every.scopes.declare (new.2.2 _)
  classes := by
    intro name table found
    rcases find?_declareClass found with old | ⟨_, rfl⟩
    · exact every.classes name table old
    · exact every.members new.1 new.2.1

theorem Every.after {ctx : Context} (every : ctx.Every P) {d : Decl} (new : d.Introduces P) :
    (ctx.after d).Every P := by
  cases d with
  | var decl => exact ⟨every.scopes.declare new, every.classes⟩
  | fn routine => exact ⟨every.scopes.declare new, every.classes⟩
  | cls decl =>
    simp only [Context.after]
    split
    · exact every.declareClass new
    · exact every

theorem Every.inRoutine {ctx : Context} (every : ctx.Every P) {params : List Param}
    (new : ∀ p ∈ params, P p.ty) : (ctx.inRoutine params).Every P where
  scopes := (every.scopes.enter Table.every_empty).declareParams new
  classes := every.classes

theorem Every.inClass {ctx : Context} (every : ctx.Every P) {c : ClassDecl}
    (new : (Decl.cls c).Introduces P) : (ctx.inClass c).Every P where
  scopes := (every.declareClass new).scopes.enter (every.members new.1 new.2.1)
  classes := (every.declareClass new).classes

end Context

end ObjectLang
