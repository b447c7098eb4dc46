import ObjectLang.Proofs.Classes.Slots
import ObjectLang.Proofs.Scope.Bindings

/-!
Names of member tables. A class has the names of its parent and those of its own members, whether
or not its declaration is faulty, and the first class of a name keeps its table for good.
-/
namespace ObjectLang

namespace Members

variable {m : Members}

def Owned (m : Members) : Prop := ∀ name ∈ m.own, m.table.contains name = true

def Gains (name : String) (m m' : Members) : Prop :=
  m'.Owned ∧ ∀ other, m'.table.contains other = true ↔ m.table.contains other = true ∨ name = other

theorem gains_known {name : String} {layout : Layout} (owned : m.Owned)
    (known : m.table.contains name = true) : m.Gains name ⟨layout, m.table, name :: m.own⟩ := by
  refine ⟨?_, ?_⟩
  · intro other listed
    rcases List.mem_cons.mp listed with rfl | listed
    · exact known
    · exact owned other listed
  · intro other
    refine ⟨.inl, ?_⟩
    rintro (listed | rfl)
    · exact listed
    · exact known

theorem gains_named {name : String} {layout : Layout} (owned : m.Owned) (ty : Ty) (offset : Word) :
    m.Gains name ⟨layout, m.named name ty offset, name :: m.own⟩ := by
  have contains : ∀ other, (m.named name ty offset).contains other = true ↔
      m.table.contains other = true ∨ name = other := by
    intro other
    rw [named, Table.contains_insert, Bool.or_eq_true, beq_iff_eq, or_comm, @eq_comm _ other]
  refine ⟨?_, contains⟩
  intro other listed
  rcases List.mem_cons.mp listed with rfl | listed
  · exact (contains _).mpr (.inr rfl)
  · exact (contains other).mpr (.inl (owned other listed))

theorem gains_duplicate {name : String} (owned : m.Owned) (listed : m.own.contains name = true) :
    m.Gains name m := by
  refine ⟨owned, ?_⟩
  intro other
  refine ⟨.inl, ?_⟩
  rintro (known | rfl)
  · exact known
  · exact owned _ (List.contains_iff_mem.mp listed)

theorem gains_addField (owned : m.Owned) (f : Field) : m.Gains f.name (m.addField f) := by
  unfold addField fieldPlacement
  by_cases listed : m.own.contains f.name = true
  · simp only [listed, if_true]
    exact gains_duplicate owned listed
  · simp only [listed, Bool.false_eq_true, if_false]
    cases known : m.table.find? f.name with
    | none => exact gains_named owned _ _
    | some b =>
      cases kind : b.ty.isMethod with
      | true =>
        simp only [kind, if_true]
        exact gains_known owned (by rw [Table.contains, known]; rfl)
      | false =>
        simp only [kind, Bool.false_eq_true, if_false]
        exact gains_named owned _ _

theorem gains_addMethod (owned : m.Owned) (name : String) (sig : Signature) :
    m.Gains name (m.addMethod name sig) := by
  unfold addMethod methodPlacement
  by_cases listed : m.own.contains name = true
  · simp only [listed, if_true]
    exact gains_duplicate owned listed
  · simp only [listed, Bool.false_eq_true, if_false]
    cases known : m.table.find? name with
    | none => exact gains_named owned _ _
    | some b =>
      cases kind : b.ty.isMethod with
      | true =>
        simp only [kind, if_true]
        exact gains_named owned _ _
      | false =>
        simp only [kind, Bool.false_eq_true, if_false]
        exact gains_known owned (by rw [Table.contains, known]; rfl)

theorem gains_foldl {α : Type} {add : Members → α → Members} {named : α → String}
    (step : ∀ {m : Members} (a : α), m.Owned → m.Gains (named a) (add m a)) (owned : m.Owned)
    (items : List α) :
    (items.foldl add m).Owned ∧ ∀ other, (items.foldl add m).table.contains other = true ↔
      m.table.contains other = true ∨ ∃ a ∈ items, named a = other := by
  induction items generalizing m with
  | nil => simpa using owned
  | cons a items ih =>
    obtain ⟨owned', contains⟩ := step a owned
    obtain ⟨all, rest⟩ := ih owned'
    refine ⟨all, ?_⟩
    intro other
    rw [List.foldl_cons, rest, contains, or_assoc]
    simp only [List.mem_cons, exists_eq_or_imp]

end Members

namespace Context

def parentHas (ctx : Context) (c : ClassDecl) (name : String) : Prop :=
  ∃ parent, ctx.parent? c = some parent ∧ parent.table.contains name = true

theorem members_contains (ctx : Context) (c : ClassDecl) (name : String) :
    (ctx.members c).table.contains name = true ↔
      ctx.parentHas c name ∨ (∃ f ∈ c.fields, f.name = name) ∨ ∃ m ∈ c.methods, m.name = name := by
  have start : (ctx.inherited c).Owned ∧
      ((ctx.inherited c).table.contains name = true ↔ ctx.parentHas c name) := by
    unfold inherited parentHas
    cases ctx.parent? c with
    | none =>
      exact ⟨fun _ mem => (List.not_mem_nil mem).elim, by simp [Table.contains, Table.find?]⟩
    | some parent => exact ⟨fun _ mem => (List.not_mem_nil mem).elim, by simp⟩
  obtain ⟨fieldsOwned, fields⟩ :=
    Members.gains_foldl (fun f owned => Members.gains_addField owned f) start.1 c.fields
  have step : ∀ {m : Members} (method : Method), m.Owned →
      m.Gains method.name (m.addMethod method.name method.routine.signature) :=
    fun method owned => Members.gains_addMethod owned method.name method.routine.signature
  obtain ⟨_, methods⟩ := Members.gains_foldl step fieldsOwned c.methods
  rw [← or_assoc, ← start.2, ← fields name, ← methods name]
  rfl

structure Tabled (ds : List Decl) (ctx : Context) : Prop where
  recorded : ∀ name, ctx.inheritance.contains name = ctx.classes.contains name
  declared : ∀ name, ctx.classes.contains name = (Decl.firstClass? name ds).isSome
  level : ∀ name table, ctx.classes.find? name = some table → table.Every fun b => b.level = 1

theorem tabled_initial : Tabled [] initial where
  recorded := fun _ => rfl
  declared := fun _ => rfl
  level := by
    intro name table found
    cases found

namespace Tabled

variable {ds : List Decl} {ctx : Context}

theorem level_members (tabled : ctx.Tabled ds) (c : ClassDecl) :
    (ctx.members c).table.Every fun b => b.level = 1 :=
  every_members tabled.level (fun _ _ _ => rfl) fun _ _ _ => rfl

theorem congr {ctx' : Context} {d : Decl} (tabled : ctx.Tabled ds)
    (classes : ctx'.classes = ctx.classes) (inheritance : ctx'.inheritance = ctx.inheritance)
    (old : ∀ name, (d.class? name).isSome = true → ctx.classes.contains name = true) :
    ctx'.Tabled (ds ++ [d]) where
  recorded := by
    rw [classes, inheritance]
    exact tabled.recorded
  declared := by
    intro name
    rw [classes, Decl.firstClass?_concat]
    cases known : ctx.classes.contains name with
    | true =>
      rw [tabled.declared] at known
      rw [Option.isSome_or, known, Bool.true_or]
    | false =>
      rw [Option.isSome_or, ← tabled.declared, known, Bool.false_or]
      cases found : (d.class? name).isSome with
      | true => rw [old name found] at known; cases known
      | false => rfl
  level := by
    rw [classes]
    exact tabled.level

theorem declareClass {c : ClassDecl} (tabled : ctx.Tabled ds) :
    (ctx.declareClass c).Tabled (ds ++ [.cls c]) := by
  cases known : ctx.classes.contains c.name with
  | true =>
    have recorded : ctx.inheritance.contains c.name = true := by rw [tabled.recorded, known]
    refine tabled.congr ?_ ?_ ?_
    · exact (declareClass_known recorded).1
    · exact (declareClass_known recorded).2
    · intro name same
      simp only [Decl.class?] at same
      split at same
      · rename_i eq
        exact eq ▸ known
      · cases same
  | false =>
    have recorded : ctx.inheritance.contains c.name = false := by rw [tabled.recorded, known]
    refine ⟨?_, ?_, ?_⟩
    · exact recorded_declareClass tabled.recorded c
    · intro name
      rw [classes_declareClass recorded, Table.contains_insert, Decl.firstClass?_concat,
        Option.isSome_or, ← tabled.declared, Bool.or_comm]
      by_cases same : c.name = name
      · simp [same, Decl.class?]
      · simp [same, Ne.symm same, Decl.class?]
    · intro name table found
      rcases find?_declareClass found with old | ⟨_, rfl⟩
      · exact tabled.level name table old
      · exact tabled.level_members c

theorem after (tabled : ctx.Tabled ds) (global : ctx.isGlobal = true) (d : Decl) :
    (ctx.after d).Tabled (ds ++ [d]) := by
  cases d with
  | var decl => exact tabled.congr rfl rfl fun _ impossible => by cases impossible
  | fn r => exact tabled.congr rfl rfl fun _ impossible => by cases impossible
  | cls c =>
    rw [Context.after, if_pos global]
    exact tabled.declareClass

theorem founded_after (tabled : ctx.Tabled ds) (founded : ctx.inheritance.Founded) (d : Decl) :
    (ctx.after d).inheritance.Founded := by
  cases d with
  | var decl => exact founded
  | fn r => exact founded
  | cls c =>
    rw [Context.after]
    split
    · apply founded.declare
      intro name listed
      obtain ⟨parent, found, rfl⟩ := Option.map_eq_some_iff.mp listed
      obtain ⟨_, _, known, _⟩ := parent?_eq_some found
      rw [tabled.recorded, Table.contains, known]
      rfl
    · exact founded

theorem find?_after {name : String} {table : Table Binding} (tabled : ctx.Tabled ds)
    (known : ctx.classes.find? name = some table) (d : Decl) :
    (ctx.after d).classes.find? name = some table := by
  cases d with
  | var decl => exact known
  | fn r => exact known
  | cls c =>
    rw [Context.after]
    split
    · exact find?_declareClass_of_find? tabled.recorded known c
    · exact known

end Tabled

end Context

end ObjectLang
