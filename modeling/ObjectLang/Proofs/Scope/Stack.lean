import ObjectLang.Scope.Context

/-!
Looking names up after a scope was opened or a name declared, how many scopes are open, and what is
recorded of a class.
-/
namespace ObjectLang

namespace Scopes

variable {s : Scopes} {name other : String} {b : Binding}

theorem lookup_cons (table : Table Binding) (rest : List (Table Binding)) (name : String) :
    lookup ⟨table :: rest⟩ name = (table.find? name).or (lookup ⟨rest⟩ name) := by
  unfold lookup
  rw [List.findSome?_cons]
  cases table.find? name <;> rfl

@[simp] theorem lookup_enter (s : Scopes) (table : Table Binding) (name : String) :
    (s.enter table).lookup name = (table.find? name).or (s.lookup name) :=
  lookup_cons table s.tables name

@[simp] theorem tables_enter (s : Scopes) (table : Table Binding) :
    (s.enter table).tables = table :: s.tables := rfl

theorem declaresHere_cons {table : Table Binding} {rest : List (Table Binding)} :
    declaresHere ⟨table :: rest⟩ name = false ↔ table.find? name = none := by
  simp [declaresHere, Table.contains]

theorem declare_cons (table : Table Binding) (rest : List (Table Binding)) (name : String)
    (b : Binding) :
    declare ⟨table :: rest⟩ name b =
      ⟨(if table.find? name = none then table.insert name b else table) :: rest⟩ := by
  unfold declare declare?
  cases known : table.find? name <;> simp [known]

theorem length_declare : (s.declare name b).tables.length = s.tables.length := by
  obtain ⟨tables⟩ := s
  cases tables with
  | nil => rfl
  | cons table rest => rw [declare_cons]; rfl

@[simp] theorem level_declare : (s.declare name b).level = s.level := by
  rw [level, level, length_declare]

theorem lookup_declare_self (opened : s.tables ≠ []) (free : s.declaresHere name = false) :
    (s.declare name b).lookup name = some b := by
  obtain ⟨tables⟩ := s
  cases tables with
  | nil => exact absurd rfl opened
  | cons table rest =>
    rw [declare_cons, if_pos (declaresHere_cons.mp free), lookup_cons, Table.find?_insert_self]
    rfl

theorem lookup_declare_of_ne (ne : other ≠ name) :
    (s.declare name b).lookup other = s.lookup other := by
  obtain ⟨tables⟩ := s
  cases tables with
  | nil => rfl
  | cons table rest =>
    rw [declare_cons, lookup_cons, lookup_cons]
    split
    · rw [Table.find?_insert_of_ne _ ne]
    · rfl

theorem lookupGlobal_enter (opened : s.tables ≠ []) (table : Table Binding) :
    (s.enter table).lookupGlobal name = s.lookupGlobal name := by
  unfold lookupGlobal
  rw [tables_enter, List.getLast?_cons_of_ne_nil opened]

theorem lookupGlobal_declare_inner {table : Table Binding} {rest : List (Table Binding)}
    (inner : rest ≠ []) :
    (declare ⟨table :: rest⟩ name b).lookupGlobal other = lookupGlobal ⟨table :: rest⟩ other := by
  unfold lookupGlobal
  rw [declare_cons, List.getLast?_cons_of_ne_nil inner, List.getLast?_cons_of_ne_nil inner]

theorem lookupGlobal_singleton (table : Table Binding) (name : String) :
    lookupGlobal ⟨[table]⟩ name = table.find? name := rfl

theorem lookupGlobal_declare {c : Binding} (known : s.lookupGlobal other = some c) :
    (s.declare name b).lookupGlobal other = some c := by
  obtain ⟨tables⟩ := s
  match tables with
  | [] => exact known
  | [table] =>
    rw [declare_cons, lookupGlobal_singleton]
    rw [lookupGlobal_singleton] at known
    split
    · rename_i free
      rw [Table.find?_insert_of_ne _ (by rintro rfl; simp [known] at free), known]
    · exact known
  | table :: next :: rest => rw [lookupGlobal_declare_inner (by simp), known]

theorem lookupGlobal_declare_of_ne (ne : other ≠ name) :
    (s.declare name b).lookupGlobal other = s.lookupGlobal other := by
  obtain ⟨tables⟩ := s
  match tables with
  | [] => rfl
  | [table] =>
    rw [declare_cons, lookupGlobal_singleton, lookupGlobal_singleton]
    split
    · rw [Table.find?_insert_of_ne _ ne]
    · rfl
  | table :: next :: rest => rw [lookupGlobal_declare_inner (by simp)]

theorem lookupGlobal_of_declare {found : Binding}
    (known : (s.declare name b).lookupGlobal other = some found) :
    s.lookupGlobal other = some found ∨ other = name ∧ found = b := by
  by_cases same : other = name
  · subst same
    cases before : s.lookupGlobal other with
    | some c =>
      rw [lookupGlobal_declare before] at known
      exact .inl known
    | none =>
      obtain ⟨tables⟩ := s
      match tables with
      | [] => simp [lookupGlobal, declare, declare?] at known
      | [table] =>
        rw [lookupGlobal_singleton] at before
        rw [declare_cons, if_pos before, lookupGlobal_singleton, Table.find?_insert_self,
          Option.some.injEq] at known
        exact .inr ⟨rfl, known.symm⟩
      | table :: next :: rest =>
        rw [lookupGlobal_declare_inner (by simp), before] at known
        cases known
  · rw [lookupGlobal_declare_of_ne same] at known
    exact .inl known

theorem length_declareParams {offset : Word} {params : List Param} :
    (s.declareParams offset params).tables.length = s.tables.length := by
  induction params generalizing s offset with
  | nil => rfl
  | cons p params ih => exact ih.trans length_declare

end Scopes

/-! Declarations stay in their scope, and a routine opens one. -/
namespace Context

theorem length_after (ctx : Context) (d : Decl) :
    (ctx.after d).scopes.tables.length = ctx.scopes.tables.length := by
  cases d with
  | var | fn => exact Scopes.length_declare
  | cls c =>
    rw [after]
    split
    · exact Scopes.length_declare
    · rfl

theorem isGlobal_after (ctx : Context) (d : Decl) : (ctx.after d).isGlobal = ctx.isGlobal := by
  rw [isGlobal, isGlobal, Scopes.level, Scopes.level, length_after]

theorem isGlobal_foldl (ctx : Context) (ds : List Decl) :
    (ds.foldl Context.after ctx).isGlobal = ctx.isGlobal := by
  induction ds generalizing ctx with
  | nil => rfl
  | cons d ds ih => exact (ih _).trans (isGlobal_after ctx d)

theorem level_inRoutine (ctx : Context) (params : List Param) :
    (ctx.inRoutine params).scopes.level = ctx.scopes.tables.length := by
  rw [Scopes.level, inRoutine, Scopes.length_declareParams]
  rfl

end Context

/-! What is recorded of a class. Only the first class of a name counts. -/
namespace Context

variable {ctx : Context} {c : ClassDecl} {name : String}

theorem declareClass_known (known : ctx.inheritance.contains c.name = true) :
    (ctx.declareClass c).classes = ctx.classes ∧
      (ctx.declareClass c).inheritance = ctx.inheritance := by
  simp [declareClass, inheritanceWith, Inheritance.declare, Inheritance.declare?, known]

theorem classes_declareClass (new : ctx.inheritance.contains c.name = false) :
    (ctx.declareClass c).classes = ctx.classes.insert c.name (ctx.members c).table := by
  simp [declareClass, new]

theorem inheritance_declareClass (new : ctx.inheritance.contains c.name = false) :
    (ctx.declareClass c).inheritance =
      ⟨ctx.inheritance.parents.insert c.name ((ctx.parent? c).map Parent.name)⟩ := by
  simp [declareClass, inheritanceWith, Inheritance.declare, Inheritance.declare?, new]

theorem find?_declareClass_self (new : ctx.inheritance.contains c.name = false) :
    (ctx.declareClass c).classes.find? c.name = some (ctx.members c).table := by
  rw [classes_declareClass new, Table.find?_insert_self]

theorem find?_declareClass {table : Table Binding}
    (found : (ctx.declareClass c).classes.find? name = some table) :
    ctx.classes.find? name = some table ∨ name = c.name ∧ (ctx.members c).table = table := by
  cases known : ctx.inheritance.contains c.name with
  | true =>
    rw [(declareClass_known known).1] at found
    exact .inl found
  | false =>
    rw [classes_declareClass known, Table.find?_insert_eq_some] at found
    rcases found with new | ⟨_, old⟩
    · exact .inr new
    · exact .inl old

theorem parent?_declareClass (new : ctx.inheritance.contains c.name = false) {parent : String}
    (up : (ctx.declareClass c).inheritance.parent? name = some parent) :
    ctx.inheritance.parent? name = some parent ∨
      name = c.name ∧ ∃ above, ctx.parent? c = some above ∧ above.name = parent := by
  rw [inheritance_declareClass new, Inheritance.parent?] at up
  by_cases same : name = c.name
  · subst same
    rw [Table.find?_insert_self, Option.join_some] at up
    exact .inr ⟨rfl, Option.map_eq_some_iff.mp up⟩
  · rw [Table.find?_insert_of_ne _ same] at up
    exact .inl up

section

variable (recorded : ∀ name, ctx.inheritance.contains name = ctx.classes.contains name)

include recorded

theorem recorded_declareClass (c : ClassDecl) (name : String) :
    (ctx.declareClass c).inheritance.contains name = (ctx.declareClass c).classes.contains name := by
  cases known : ctx.inheritance.contains c.name with
  | true => rw [(declareClass_known known).1, (declareClass_known known).2, recorded]
  | false =>
    rw [classes_declareClass known, inheritance_declareClass known, Inheritance.contains,
      Table.contains_insert, Table.contains_insert, ← recorded, Inheritance.contains]

/-- A member table stays: a class that has its name is not recorded. -/
theorem find?_declareClass_of_find? {table : Table Binding}
    (found : ctx.classes.find? name = some table) (c : ClassDecl) :
    (ctx.declareClass c).classes.find? name = some table := by
  cases known : ctx.inheritance.contains c.name with
  | true => rw [(declareClass_known known).1, found]
  | false =>
    have ne : name ≠ c.name := by
      rintro rfl
      rw [recorded, Table.contains, found] at known
      cases known
    rw [classes_declareClass known, Table.find?_insert_of_ne _ ne, found]

end

end Context

end ObjectLang
