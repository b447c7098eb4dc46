import Mathlib.Data.List.Forall2
import ObjectLang.Proofs.Classes.Hierarchy
import ObjectLang.Proofs.Scope.Rules

/-!
Scope resolution mirrors the scope rules. While nothing has been reported, the context gives every
name the role that the declarations around it give it, and knows the members of every class; what is
declared next keeps it so.
-/
namespace ObjectLang

variable {names : Roles} {name : String}

theorem Roles.lookup_isSome :
    (∃ role, names.lookup name = some role) ↔ name ∈ names.map Prod.fst := by
  induction names with
  | nil => simp
  | cons entry names ih =>
    obtain ⟨other, role⟩ := entry
    by_cases same : name = other
    · simp [same]
    · have differs : (name == other) = false := by simp [same]
      simp [List.lookup_cons, differs, same, ih]

theorem Roles.lookup_eq_none : names.lookup name = none ↔ name ∉ names.map Prod.fst := by
  rw [← lookup_isSome, Option.eq_none_iff_forall_ne_some]
  exact ⟨fun none ⟨role, found⟩ => none role found, fun unknown role found => unknown ⟨role, found⟩⟩

def Roles.Fresh (names : Roles) (taken : List String) : Prop :=
  Distinct names ∧ ∀ name ∈ names.map Prod.fst, name ∉ taken

theorem Roles.fresh_nil (taken : List String) : Fresh [] taken :=
  ⟨List.nodup_nil, fun _ listed => nomatch listed⟩

theorem Roles.fresh_cons {entry : String × Role} {taken wider : List String}
    (grows : ∀ other, other ∈ wider ↔ other = entry.1 ∨ other ∈ taken) :
    Fresh (entry :: names) taken ↔ entry.1 ∉ taken ∧ Fresh names wider := by
  simp only [Fresh, Distinct, List.map_cons, List.nodup_cons, List.forall_mem_cons, grows, not_or]
  constructor
  · rintro ⟨⟨new, distinct⟩, free, others⟩
    exact ⟨free, distinct, fun other listed =>
      ⟨fun same => new (same ▸ listed), others other listed⟩⟩
  · rintro ⟨free, distinct, others⟩
    exact ⟨⟨fun listed => (others _ listed).1 rfl, distinct⟩, free, fun other listed =>
      (others other listed).2⟩

theorem Roles.distinct_append {first second : Roles} :
    Distinct (first ++ second) ↔ Fresh first [] ∧ Fresh second (first.map Prod.fst) := by
  simp only [Fresh, Distinct, List.map_append, List.nodup_append', List.not_mem_nil,
    not_false_eq_true, implies_true, and_true]
  exact and_congr_right fun _ => and_congr_right fun _ => List.disjoint_comm

/-! Tables and names with roles. -/

def Table.Shows (table : Table Binding) (names : Roles) : Prop :=
  ∀ name, (table.find? name).map (fun b => b.ty.role) = names.lookup name

namespace Table

variable {table : Table Binding}

theorem shows_empty : Shows {} [] := fun _ => rfl

theorem Shows.find?_eq_none (shows : table.Shows names) :
    table.find? name = none ↔ name ∉ names.map Prod.fst := by
  rw [← Roles.lookup_eq_none, ← shows name, Option.map_eq_none_iff]

theorem Shows.insert {front : Roles} (shows : table.Shows (front ++ names))
    (free : name ∉ front.map Prod.fst) (b : Binding) :
    (table.insert name b).Shows (front ++ (name, b.ty.role) :: names) := by
  intro other
  have before := shows other
  rw [List.lookup_append] at before ⊢
  by_cases same : other = name
  · subst same
    simp [Roles.lookup_eq_none.mpr free]
  · have differs : (other == name) = false := by simp [same]
    simp [find?_insert_of_ne _ same, before, List.lookup_cons, differs]

end Table

namespace Surroundings

def here (s : Surroundings) : List String := (s.scopes.headD []).map Prod.fst

variable {s : Surroundings}

theorem scopes_ne_nil (s : Surroundings) : ∃ names outer, s.scopes = names :: outer := by
  obtain ⟨globals, inner⟩ := s
  cases inner with
  | nil => exact ⟨_, _, rfl⟩
  | cons names outer => exact ⟨_, _, rfl⟩

theorem scopes_after {outer : List Roles} (known : s.scopes = names :: outer) (d : Decl) :
    (s.after d).scopes = (d.named :: names) :: outer := by
  obtain ⟨globals, inner⟩ := s
  cases inner with
  | nil =>
    cases known
    rfl
  | cons innermost rest =>
    cases known
    rfl

end Surroundings

namespace Context

structure Mirrors (ctx : Context) (s : Surroundings) : Prop where
  scopes : List.Forall₂ Table.Shows ctx.scopes.tables s.scopes
  recorded : ∀ name, ctx.inheritance.contains name = true ↔ Decl.HasClass name s.globals
  tabled : ∀ name table, ctx.classes.find? name = some table → Decl.HasClass name s.globals
  classes : ∀ name, Decl.HasClass name s.globals →
    ∃ layout table, ctx.HasClass name layout table ∧ table.Shows (Decl.membersOf name s.globals)

theorem mirrors_initial : initial.Mirrors ⟨[], []⟩ where
  scopes := .cons Table.shows_empty .nil
  recorded := by
    intro name
    simp [initial, Inheritance.contains, Table.contains, Table.find?, Decl.HasClass]
  tabled := by
    intro name table found
    cases found
  classes := by
    rintro name ⟨c, listed, _⟩
    cases listed

end Context

/-! Looking names up in mirrored scopes. -/

namespace Scopes

variable {tables : List (Table Binding)} {scopes : List Roles}

theorem lookup_of_shows (shows : List.Forall₂ Table.Shows tables scopes) (name : String) :
    (lookup ⟨tables⟩ name).map (fun b => b.ty.role) = scopes.flatten.lookup name := by
  induction shows with
  | nil => rfl
  | @cons table names rest outer head _ ih =>
    rw [lookup_cons, List.flatten_cons, List.lookup_append, ← head name, ← ih]
    cases table.find? name <;> rfl

theorem lookupGlobal_of_shows (shows : List.Forall₂ Table.Shows tables scopes) (name : String) :
    (lookupGlobal ⟨tables⟩ name).map (fun b => b.ty.role) =
      scopes.getLast?.bind fun names => names.lookup name := by
  induction shows with
  | nil => rfl
  | @cons table names rest outer head tail ih =>
    cases tail with
    | nil => exact head name
    | cons next others => exact ih

end Scopes

namespace Decl

theorem membersOf_eq_nil {ds : List Decl} (unknown : ¬ HasClass name ds) :
    membersOf name ds = [] := by
  induction ds with
  | nil => rfl
  | cons d ds ih =>
    have rest : ¬ HasClass name ds := fun ⟨c, listed, called⟩ =>
      unknown ⟨c, List.mem_cons_of_mem _ listed, called⟩
    cases d with
    | var decl => exact ih rest
    | fn routine => exact ih rest
    | cls c =>
      have other : c.name ≠ name := fun called => unknown ⟨c, List.mem_cons_self, called⟩
      rw [membersOf, if_neg other]
      exact ih rest

end Decl

namespace Context.Mirrors

variable {ctx : Context} {s : Surroundings}

theorem lookup (mirrors : ctx.Mirrors s) (name : String) :
    (ctx.scopes.lookup name).map (fun b => b.ty.role) = s.lookup name :=
  Scopes.lookup_of_shows mirrors.scopes name

theorem lookup_isSome (mirrors : ctx.Mirrors s) :
    (∃ b, ctx.scopes.lookup name = some b) ↔ ∃ role, s.lookup name = some role := by
  rw [← mirrors.lookup name]
  cases ctx.scopes.lookup name <;> simp

theorem lookupGlobal_isSome (mirrors : ctx.Mirrors s) :
    (∃ b, ctx.scopes.lookupGlobal name = some b) ↔ ∃ d ∈ s.globals, d.named.1 = name := by
  have shown := Scopes.lookupGlobal_of_shows mirrors.scopes name
  have last : s.scopes.getLast? = some (s.globals.map Decl.named) := by simp [Surroundings.scopes]
  rw [last, Option.bind_some] at shown
  have listed : name ∈ (s.globals.map Decl.named).map Prod.fst ↔
      ∃ d ∈ s.globals, d.named.1 = name := by simp
  rw [← listed, ← Roles.lookup_isSome, ← shown]
  cases ctx.scopes.lookupGlobal name <;> simp

theorem member (mirrors : ctx.Mirrors s) (cls member : String) :
    ((ctx.classes.find? cls).bind fun table => table.find? member).map (fun b => b.ty.role) =
      (Decl.membersOf cls s.globals).lookup member := by
  cases found : ctx.classes.find? cls with
  | some table =>
    obtain ⟨layout, table', ⟨listed, _⟩, shows⟩ :=
      mirrors.classes cls (mirrors.tabled cls table found)
    rw [found, Option.some.injEq] at listed
    subst listed
    exact shows member
  | none =>
    have unknown : ¬ Decl.HasClass cls s.globals := by
      intro declared
      obtain ⟨layout, table, ⟨listed, _⟩, _⟩ := mirrors.classes cls declared
      rw [found] at listed
      cases listed
    rw [Decl.membersOf_eq_nil unknown]
    rfl

theorem declaresHere (mirrors : ctx.Mirrors s) :
    ctx.scopes.declaresHere name = false ↔ name ∉ s.here := by
  obtain ⟨names, outer, known⟩ := s.scopes_ne_nil
  have shown := mirrors.scopes
  rw [known] at shown
  cases shape : ctx.scopes.tables with
  | nil => rw [shape] at shown; cases shown
  | cons table rest =>
    rw [shape] at shown
    obtain _ | ⟨head, _⟩ := shown
    have opened : ctx.scopes = ⟨table :: rest⟩ := by rw [← shape]
    rw [opened, Scopes.declaresHere_cons, head.find?_eq_none, Surroundings.here, known]
    rfl

theorem isGlobal_iff (mirrors : ctx.Mirrors s) : ctx.isGlobal = true ↔ s.inner = [] := by
  have length := mirrors.scopes.length_eq
  rw [Surroundings.scopes, List.length_append, List.length_singleton] at length
  rw [isGlobal, Scopes.level, beq_iff_eq, length, ← List.length_eq_zero_iff]
  omega

end Context.Mirrors

/-! Contexts after a declaration. -/

namespace Decl

variable {d : Decl} {ds : List Decl}

theorem hasClass_cons (noClass : ∀ c, d ≠ .cls c) : HasClass name (d :: ds) ↔ HasClass name ds := by
  constructor
  · rintro ⟨c, listed, called⟩
    rcases List.mem_cons.mp listed with same | earlier
    · exact absurd same.symm (noClass c)
    · exact ⟨c, earlier, called⟩
  · rintro ⟨c, listed, called⟩
    exact ⟨c, List.mem_cons_of_mem _ listed, called⟩

theorem membersOf_cons (noClass : ∀ c, d ≠ .cls c) :
    membersOf name (d :: ds) = membersOf name ds := by
  cases d with
  | var decl => rfl
  | fn routine => rfl
  | cls c => exact absurd rfl (noClass c)

end Decl

namespace Surroundings

variable {s : Surroundings} {d : Decl}

theorem globals_after (s : Surroundings) (d : Decl) :
    (s.after d).globals = s.globals ∨ (s.after d).globals = d :: s.globals := by
  unfold after
  split
  · exact .inr rfl
  · exact .inl rfl

theorem globals_after_inner (inner : s.inner ≠ []) : (s.after d).globals = s.globals := by
  unfold after
  split
  · rename_i outermost
    exact absurd outermost inner
  · rfl

theorem inner_after (inner : s.inner ≠ []) : (s.after d).inner ≠ [] := by
  unfold after
  split
  · exact inner
  · exact List.cons_ne_nil _ _

theorem hasClass_after (noClass : ∀ c, d ≠ .cls c) :
    Decl.HasClass name (s.after d).globals ↔ Decl.HasClass name s.globals := by
  rcases s.globals_after d with same | grown
  · rw [same]
  · rw [grown, Decl.hasClass_cons noClass]

theorem membersOf_after (noClass : ∀ c, d ≠ .cls c) :
    Decl.membersOf name (s.after d).globals = Decl.membersOf name s.globals := by
  rcases s.globals_after d with same | grown
  · rw [same]
  · rw [grown, Decl.membersOf_cons noClass]

theorem mem_here_after : name ∈ (s.after d).here ↔ name = d.named.1 ∨ name ∈ s.here := by
  obtain ⟨names, outer, known⟩ := s.scopes_ne_nil
  simp [here, known, scopes_after known]

end Surroundings

namespace Context.Mirrors

variable {ctx ctx' : Context} {s s' : Surroundings} {d : Decl}

theorem pass (mirrors : ctx.Mirrors s)
    (scopes : List.Forall₂ Table.Shows ctx'.scopes.tables s'.scopes)
    (inheritance : ctx'.inheritance = ctx.inheritance) (classes : ctx'.classes = ctx.classes)
    (keeps : ∀ name b, ctx.scopes.lookupGlobal name = some b →
      ctx'.scopes.lookupGlobal name = some b)
    (hasClass : ∀ name, Decl.HasClass name s'.globals ↔ Decl.HasClass name s.globals)
    (members : ∀ name, Decl.membersOf name s'.globals = Decl.membersOf name s.globals) :
    ctx'.Mirrors s' where
  scopes := scopes
  recorded := by
    intro name
    rw [inheritance, mirrors.recorded, hasClass]
  tabled := by
    intro name table found
    rw [classes] at found
    exact (hasClass name).mpr (mirrors.tabled name table found)
  classes := by
    intro name declared
    obtain ⟨layout, table, ⟨listed, b, found, shape⟩, shows⟩ :=
      mirrors.classes name ((hasClass name).mp declared)
    refine ⟨layout, table, ⟨by rw [classes, listed], b, keeps name b found, shape⟩, ?_⟩
    rw [members]
    exact shows

theorem scopes_declare (mirrors : ctx.Mirrors s) (free : d.named.1 ∉ s.here) {b : Binding}
    (role : d.named.2 = b.ty.role) :
    List.Forall₂ Table.Shows (ctx.scopes.declare d.named.1 b).tables (s.after d).scopes := by
  obtain ⟨names, outer, known⟩ := s.scopes_ne_nil
  have shown := mirrors.scopes
  rw [known] at shown
  rw [Surroundings.here, known] at free
  rw [Surroundings.scopes_after known]
  obtain ⟨⟨tables⟩, classes, inheritance, nextOffset⟩ := ctx
  cases shown with
  | @cons table _ rest _ head tail =>
    rw [Scopes.declare_cons, if_pos (head.find?_eq_none.mpr free)]
    have inserted : (table.insert d.named.1 b).Shows ([] ++ (d.named.1, b.ty.role) :: names) :=
      Table.Shows.insert head List.not_mem_nil b
    rw [← role] at inserted
    exact .cons inserted tail

theorem after (mirrors : ctx.Mirrors s) (free : d.named.1 ∉ s.here) (noClass : ∀ c, d ≠ .cls c) :
    (ctx.after d).Mirrors (s.after d) := by
  cases d with
  | var decl | fn routine =>
    exact mirrors.pass (mirrors.scopes_declare free rfl) rfl rfl
      (fun _ _ => Scopes.lookupGlobal_declare) (fun _ => Surroundings.hasClass_after noClass)
      fun _ => Surroundings.membersOf_after noClass
  | cls c => exact absurd rfl (noClass c)

theorem foldl (mirrors : ctx.Mirrors s) {ds : List Decl}
    (fresh : Roles.Fresh (ds.map Decl.named) s.here) (noClass : ∀ c, .cls c ∉ ds) :
    (ds.foldl Context.after ctx).Mirrors (ds.foldl Surroundings.after s) := by
  induction ds generalizing ctx s with
  | nil => exact mirrors
  | cons d ds ih =>
    obtain ⟨free, rest⟩ := (Roles.fresh_cons fun _ => Surroundings.mem_here_after).mp fresh
    have isPlain : ∀ c, d ≠ .cls c := fun c same => noClass c (same ▸ List.mem_cons_self)
    have others : ∀ c, .cls c ∉ ds := fun c listed => noClass c (List.mem_cons_of_mem _ listed)
    exact ih (mirrors.after free isPlain) rest others

end Context.Mirrors

/-! Parameters. -/

namespace Scopes

theorem duplicate_eq_nil {s : Scopes} {error : ScopeError} :
    (if s.declaresHere name then [error] else []) = [] ↔ s.declaresHere name = false := by
  cases s.declaresHere name <;> simp

theorem paramErrors_eq_nil {table : Table Binding} {rest : List (Table Binding)} {front : Roles}
    (shows : table.Shows front) (offset : Word) (params : List Param) :
    (paramErrors ⟨table :: rest⟩ offset params = [] ↔
        Roles.Fresh (params.map Param.named) (front.map Prod.fst)) ∧
      (Roles.Fresh (params.map Param.named) (front.map Prod.fst) →
        ∃ table', (declareParams ⟨table :: rest⟩ offset params).tables = table' :: rest ∧
          table'.Shows (front ++ params.map Param.named)) := by
  induction params generalizing table front offset with
  | nil =>
    refine ⟨iff_of_true rfl (Roles.fresh_nil _), fun _ => ⟨table, rfl, ?_⟩⟩
    rwa [List.map_nil, List.append_nil]
  | cons p params ih =>
    have grows (other : String) : other ∈ (front ++ [p.named]).map Prod.fst ↔
        other = p.named.1 ∨ other ∈ front.map Prod.fst := by
      simp [or_comm]
    have unbound : table.find? p.name = none ↔ p.named.1 ∉ front.map Prod.fst :=
      shows.find?_eq_none
    have inserted (free : p.named.1 ∉ front.map Prod.fst) :
        (table.insert p.name ⟨level ⟨table :: rest⟩, p.ty, offset⟩).Shows (front ++ [p.named]) :=
      Table.Shows.insert (by rwa [List.append_nil]) free _
    rw [List.map_cons, Roles.fresh_cons grows, paramErrors, declareParams, List.append_eq_nil_iff,
      duplicate_eq_nil, declaresHere_cons, unbound, declare_cons]
    constructor
    · refine and_congr_right fun free => ?_
      rw [if_pos (unbound.mpr free)]
      exact (ih (inserted free) (offset + 1)).1
    · rintro ⟨free, fresh⟩
      rw [if_pos (unbound.mpr free)]
      obtain ⟨table', opened, shown⟩ := (ih (inserted free) (offset + 1)).2 fresh
      exact ⟨table', opened, by rwa [List.append_assoc] at shown⟩

end Scopes

/-! Entering a scope. -/

namespace Context.Mirrors

variable {ctx : Context} {s : Surroundings}

theorem opened (mirrors : ctx.Mirrors s) : ctx.scopes.tables ≠ [] := by
  intro closed
  have shown := mirrors.scopes
  obtain ⟨names, outer, known⟩ := s.scopes_ne_nil
  rw [closed, known] at shown
  cases shown

theorem enter (mirrors : ctx.Mirrors s) {ctx' : Context} {table : Table Binding} {names : Roles}
    (shows : table.Shows names) (tables : ctx'.scopes.tables = table :: ctx.scopes.tables)
    (inheritance : ctx'.inheritance = ctx.inheritance) (classes : ctx'.classes = ctx.classes) :
    ctx'.Mirrors (s.enter names) := by
  refine mirrors.pass ?_ inheritance classes ?_ (fun _ => Iff.rfl) fun _ => rfl
  · rw [tables]
    exact .cons shows mirrors.scopes
  · intro name b found
    rw [Scopes.lookupGlobal, tables, List.getLast?_cons_of_ne_nil mirrors.opened]
    exact found

theorem inRoutine (mirrors : ctx.Mirrors s) (r : Routine)
    (fresh : Roles.Fresh (r.params.map Param.named) []) :
    (ctx.inRoutine r.params).Mirrors (s.inRoutine r) := by
  obtain ⟨table, tables, shows⟩ :
      ∃ table, ((ctx.scopes.enter {}).declareParams 1 r.params).tables =
        table :: ctx.scopes.tables ∧ table.Shows (r.params.map Param.named) :=
    (Scopes.paramErrors_eq_nil Table.shows_empty 1 r.params).2 fresh
  exact mirrors.enter shows tables rfl rfl

end Context.Mirrors

/-! Declared types. -/

namespace Ty

mutual

theorem undeclaredClasses_eq (h : Inheritance) :
    (ty : Ty) → ty.undeclaredClasses h = ty.classNames.filter fun name => !h.contains name
  | .ref name => by cases known : h.contains name <;> simp [undeclaredClasses, classNames, known]
  | .arrow ⟨ps, r⟩ | .method ⟨ps, r⟩ => by
    rw [undeclaredClasses, classNames, List.filter_append, undeclaredInAll_eq h ps,
      undeclaredClasses_eq h r]
  | .int | .bool | .null | .incomplete | .cls _ => rfl

theorem undeclaredInAll_eq (h : Inheritance) :
    (tys : List Ty) →
      undeclaredInAll h tys = (allClassNames tys).filter fun name => !h.contains name
  | [] => rfl
  | a :: as => by
    rw [undeclaredInAll, allClassNames, List.filter_append, undeclaredClasses_eq h a,
      undeclaredInAll_eq h as]

end

theorem mem_allClassNames {tys : List Ty} :
    name ∈ allClassNames tys ↔ ∃ ty ∈ tys, name ∈ ty.classNames := by
  induction tys with
  | nil => simp [allClassNames]
  | cons a as ih => simp [allClassNames, ih]

variable {h : Inheritance} {ds : List Decl} {line : Line}

theorem scopeErrors_eq_nil (recorded : ∀ name, h.contains name = true ↔ Decl.HasClass name ds)
    (ty : Ty) : ty.scopeErrors h line = [] ↔ ∀ name ∈ ty.classNames, Decl.HasClass name ds := by
  rw [scopeErrors, List.map_eq_nil_iff, undeclaredClasses_eq, List.filter_eq_nil_iff]
  simp only [Bool.not_eq_true', Bool.not_eq_false, recorded]

theorem signature_scopeErrors_eq_nil
    (recorded : ∀ name, h.contains name = true ↔ Decl.HasClass name ds) (r : Routine) :
    (Ty.arrow r.signature).scopeErrors h line = [] ↔
      ∀ ty ∈ r.ret :: r.params.map Param.ty, ∀ name ∈ ty.classNames, Decl.HasClass name ds := by
  rw [scopeErrors_eq_nil recorded, Routine.signature, classNames, List.forall_mem_append,
    List.forall_mem_cons, and_comm]
  refine and_congr_right fun _ => ⟨fun all ty listed name named => ?_, fun all name named => ?_⟩
  · exact all name (mem_allClassNames.mpr ⟨ty, listed, named⟩)
  · obtain ⟨ty, listed, named⟩ := mem_allClassNames.mp named
    exact all ty listed name named

end Ty

end ObjectLang
