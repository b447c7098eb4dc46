import ObjectLang.Proofs.Classes.Numbering
import ObjectLang.Proofs.Scope.Acceptance
import ObjectLang.Proofs.Scope.Lexical

/-!
Classes of accepted programs and their parents. Each class is declared once, its parent before it,
and it starts with exactly the members that the parent was left with; so its methods are numbered on
from those of the parent. The recorded inheritance has the parents that the classes name.
-/
namespace ObjectLang

namespace Inheritance

variable {h : Inheritance} {name : String}

theorem find?_declare {parent : Option String} (known : h.parents.find? name = some parent)
    (other : String) (up : Option String) :
    (h.declare other up).parents.find? name = some parent := by
  unfold declare declare?
  split
  · exact known
  · rename_i new
    have ne : name ≠ other := by
      rintro rfl
      simp [contains, Table.contains, known] at new
    rw [Option.getD_some, Table.find?_insert_of_ne _ ne, known]

end Inheritance

namespace Context

theorem find?_parents_after {ctx : Context} {name : String} {parent : Option String}
    (known : ctx.inheritance.parents.find? name = some parent) (d : Decl) :
    (ctx.after d).inheritance.parents.find? name = some parent := by
  cases d with
  | var decl => exact known
  | fn r => exact known
  | cls c =>
    rw [after]
    split
    · exact Inheritance.find?_declare known _ _
    · exact known

theorem find?_parents_foldl {ctx : Context} {name : String} {parent : Option String}
    (known : ctx.inheritance.parents.find? name = some parent) (ds : List Decl) :
    (ds.foldl after ctx).inheritance.parents.find? name = some parent := by
  induction ds generalizing ctx with
  | nil => exact known
  | cons d ds ih => exact ih (find?_parents_after known d)

theorem name_parent? {ctx : Context} {c : ClassDecl} (header : c.headerErrors ctx = []) :
    (ctx.parent? c).map Parent.name = c.parent := by
  simp only [ClassDecl.headerErrors, List.append_eq_nil_iff] at header
  cases above : ctx.parent? c with
  | some parent => exact (parent?_eq_some above).1.symm
  | none =>
    cases names : c.parent with
    | none => rfl
    | some name => simp [names, above] at header

end Context

namespace Decl

theorem class?_eq_some {d : Decl} {name : String} {c : ClassDecl} :
    d.class? name = some c ↔ d = .cls c ∧ c.name = name := by
  unfold class?
  split
  · rename_i e
    constructor
    · intro found
      split at found
      · rename_i same
        cases found
        exact ⟨rfl, same⟩
      · cases found
    · rintro ⟨same, rfl⟩
      cases same
      exact if_pos rfl
  · rename_i noClass
    constructor
    · intro found
      cases found
    · rintro ⟨same, _⟩
      exact absurd same (noClass c)

theorem getElem?_of_firstClass? {ds : List Decl} {name : String} {c : ClassDecl}
    (first : firstClass? name ds = some c) : ∃ i : Nat, ds[i]? = some (.cls c) ∧ c.name = name := by
  obtain ⟨d, mem, found⟩ := List.exists_of_findSome?_eq_some first
  obtain ⟨rfl, named⟩ := class?_eq_some.mp found
  obtain ⟨i, listed⟩ := List.mem_iff_getElem?.mp mem
  exact ⟨i, listed, named⟩

theorem getElem?_of_resolveAll {ds : List Decl} {index : Nat} {e : Decl} {ctx : Context}
    (listed : (resolveAll ctx ds)[index]? = some e) :
    ∃ d, ds[index]? = some d ∧ e = d.resolve ((ds.take index).foldl Context.after ctx) := by
  induction ds generalizing ctx index with
  | nil => cases listed
  | cons d ds ih =>
    cases index with
    | zero =>
      cases listed
      exact ⟨d, rfl, rfl⟩
    | succ index => exact ih listed

end Decl

namespace Program

variable {p : Program} {i j : Nat} {c d : ClassDecl}

theorem decls_split {d : Decl} (listed : p.decls[i]? = some d) :
    p.decls = p.decls.take i ++ d :: p.decls.drop (i + 1) := by
  obtain ⟨bound, here⟩ := List.getElem?_eq_some_iff.mp listed
  rw [← here, ← List.drop_eq_getElem_cons bound, List.take_append_drop]

theorem plain_split {d : Decl} (plain : Decl.Plain p.declaredTypes)
    (listed : p.decls[i]? = some d) :
    Decl.Plain (Decl.allDeclaredTypes (p.decls.take i)) ∧ Decl.Plain d.declaredTypes := by
  rw [Program.declaredTypes, decls_split listed, Decl.allDeclaredTypes_append] at plain
  exact ⟨fun ty mem => plain ty (List.mem_append_left _ mem),
    (Decl.types_cons fun ty mem => plain ty (List.mem_append_right _ mem)).1⟩

theorem isMethod_fields (plain : Decl.Plain p.declaredTypes)
    (listed : p.decls[i]? = some (.cls c)) : ∀ f ∈ c.fields, f.ty.isMethod = false := by
  intro f mem
  exact Ty.isMethod_of_isPlain ((Decl.types_cls (plain_split plain listed).2).1 f mem)

theorem slots_inherited_le (plain : Decl.Plain p.declaredTypes)
    (listed : p.decls[i]? = some (.cls c)) :
    ((Context.following (p.decls.take i)).inherited c).layout.slots true ≤
      (p.membersAt i c).layout.slots true := by
  have fields := Members.keeps_addFields (m := (Context.following (p.decls.take i)).inherited c)
    (isMethod_fields plain listed)
  exact (fields.trans (Members.keeps_addMethods c.methods)).slots true

/-- The methods of the class have slots, its own ones behind or over those that it inherits. -/
structure NumberedAt (p : Program) (i : Nat) (c : ClassDecl) : Prop where
  placed : (p.membersAt i c).Placed
  numbered : Method.Numbered
    (((Context.following (p.decls.take i)).inherited c).layout.slots true)
    (c.resolve (Context.following (p.decls.take i))).methods ((p.membersAt i c).layout.slots true)

theorem class_of_resolved (listed : p.resolve.program.decls[i]? = some (.cls c)) :
    ∃ d, p.decls[i]? = some (.cls d) ∧ c = d.resolve (Context.following (p.decls.take i)) := by
  obtain ⟨source, found, resolved⟩ := Decl.getElem?_of_resolveAll listed
  cases source with
  | var decl => cases resolved
  | fn r => cases resolved
  | cls d =>
    rw [← Context.following, Decl.resolve_cls (p.isGlobal_following i), Decl.cls.injEq] at resolved
    exact ⟨d, found, resolved⟩

theorem exists_membersAt {name : String} {layout : Layout}
    (carried : (p.resolve.program.class? name).bind ClassDecl.layout? = some layout) :
    ∃ i c, p.decls[i]? = some (.cls c) ∧ c.name = name ∧ (p.membersAt i c).layout = layout := by
  obtain ⟨e, first, layout⟩ := Option.bind_eq_some_iff.mp carried
  obtain ⟨i, found, named⟩ := Decl.getElem?_of_firstClass? first
  obtain ⟨c, isClass, rfl⟩ := class_of_resolved found
  rw [ClassDecl.layout?_resolve, Option.some.injEq] at layout
  exact ⟨i, c, isClass, named, layout⟩

section

variable (plain : Decl.Plain p.declaredTypes) (accepted : p.resolve.errors = [])

include accepted in
theorem headerErrors_eq_nil (listed : p.decls[i]? = some (.cls c)) :
    c.headerErrors (Context.following (p.decls.take i)) = [] := by
  have errors : (Decl.cls c).scopeErrors (Context.following (p.decls.take i)) ⊆
      Decl.allScopeErrors Context.initial p.decls :=
    Decl.scopeErrors_getElem? Context.initial listed
  rw [(List.append_eq_nil_iff.mp accepted).1,
    Decl.scopeErrors_cls (p.isGlobal_following i)] at errors
  exact (List.append_eq_nil_iff.mp (List.eq_nil_of_subset_nil errors)).1

include plain accepted

theorem distinct_and_flat : Roles.Distinct (p.decls.map Decl.named) ∧
    ∀ (i : Nat) (d : Decl), p.decls[i]? = some d → ∀ r ∈ d.routines, ∀ c, .cls c ∉ r.locals := by
  obtain ⟨accepts, _⟩ := Decl.globals_scopeErrors Context.mirrors_initial plain
  obtain ⟨⟨distinct, _⟩, wellScoped⟩ := accepts.mp (List.append_eq_nil_iff.mp accepted).1
  refine ⟨distinct, fun i d listed r mem => ?_⟩
  exact ((wellScoped _ _ _ (decls_split listed)).inside.routines r mem).noClass

theorem class_unique (one : p.decls[i]? = some (.cls c)) (two : p.decls[j]? = some (.cls d))
    (same : c.name = d.name) : i = j := by
  have distinct := (distinct_and_flat plain accepted).1
  refine (List.getElem?_inj ?_ distinct).mp ?_
  · rw [List.length_map, List.length_map]
    exact (List.getElem?_eq_some_iff.mp one).1
  · simp [one, two, Decl.named, same]

theorem new_class (listed : p.decls[i]? = some (.cls c)) :
    (Context.following (p.decls.take i)).classes.contains c.name = false := by
  rw [(p.tabled_following i).declared]
  cases first : Decl.firstClass? c.name (p.decls.take i) with
  | none => rfl
  | some d =>
    obtain ⟨j, found, same⟩ := Decl.getElem?_of_firstClass? first
    rw [List.getElem?_take] at found
    split at found
    · have := class_unique plain accepted found listed same
      omega
    · cases found

theorem class_recorded (listed : p.decls[i]? = some (.cls c)) :
    p.resolve.classes.find? c.name = some (p.membersAt i c).table ∧
      p.resolve.inheritance.parent? c.name = c.parent := by
  have new : (Context.following (p.decls.take i)).inheritance.contains c.name = false := by
    rw [(p.tabled_following i).recorded, new_class plain accepted listed]
  constructor
  · have known : (Context.following (p.decls.take (i + 1))).classes.find? c.name =
        some (p.membersAt i c).table := by
      rw [following_class listed, Context.find?_declareClass_self new]
      rfl
    exact classes_of_following known
  · have known : (Context.following (p.decls.take (i + 1))).inheritance.parents.find? c.name =
        some c.parent := by
      rw [following_class listed, ← Context.name_parent? (headerErrors_eq_nil accepted listed),
        Context.inheritance_declareClass new, Table.find?_insert_self]
    have whole := Context.find?_parents_foldl known (p.decls.drop (i + 1))
    rw [Context.following, ← List.foldl_append, List.take_append_drop] at whole
    rw [resolve, Inheritance.parent?, context, whole, Option.join_some]

theorem parent_class (listed : p.decls[i]? = some (.cls c)) {name : String}
    (names : c.parent = some name) :
    ∃ j d, j < i ∧ p.decls[j]? = some (.cls d) ∧ d.name = name ∧
      (Context.following (p.decls.take i)).inherited c =
        ⟨(p.membersAt j d).layout, (p.membersAt j d).table, []⟩ := by
  have header := Context.name_parent? (headerErrors_eq_nil accepted listed)
  rw [names] at header
  obtain ⟨parent, above, rfl⟩ := Option.map_eq_some_iff.mp header
  have arranged := Context.arranged_following (plain_split plain listed).1
  obtain ⟨inClasses, carried⟩ := arranged.records_parent above
  obtain ⟨j, d, isClass, named, layout⟩ := exists_membersAt (p := ⟨p.decls.take i, p.body⟩) carried
  rw [List.getElem?_take] at isClass
  split at isClass
  · rename_i before
    have table := classes_of_following inClasses
    rw [← named, (class_recorded plain accepted isClass).1, Option.some.injEq] at table
    rw [membersAt, List.take_take, Nat.min_eq_left (Nat.le_of_lt before), ← membersAt] at layout
    refine ⟨j, d, before, isClass, named, ?_⟩
    simp only [Context.inherited, above] at layout table ⊢
    rw [table, layout]
  · cases isClass

@[elab_as_elim]
theorem class_induction {P : Nat → ClassDecl → Prop}
    (root : ∀ i c, p.decls[i]? = some (.cls c) → c.parent = none →
      (Context.following (p.decls.take i)).inherited c = {} → P i c)
    (child : ∀ i c j d, p.decls[i]? = some (.cls c) → p.decls[j]? = some (.cls d) → j < i →
      c.parent = some d.name →
      (Context.following (p.decls.take i)).inherited c =
        ⟨(p.membersAt j d).layout, (p.membersAt j d).table, []⟩ → P j d → P i c)
    (listed : p.decls[i]? = some (.cls c)) : P i c := by
  induction i using Nat.strong_induction_on generalizing c with
  | _ i ih =>
    cases names : c.parent with
    | none =>
      have alone : (Context.following (p.decls.take i)).parent? c = none := by
        rw [Context.parent?, names, Option.bind_none]
      exact root i c listed names (by rw [Context.inherited, alone])
    | some name =>
      obtain ⟨j, d, before, isClass, rfl, inherited⟩ := parent_class plain accepted listed names
      exact child i c j d listed isClass before names inherited (ih j before isClass)

theorem numberedAt (listed : p.decls[i]? = some (.cls c))
    (small : (p.membersAt i c).layout.slots true ≤ Word.limit)
    (placed : ((Context.following (p.decls.take i)).inherited c).Placed) : p.NumberedAt i c := by
  obtain ⟨placed, numbered⟩ := Context.numbered_members (isMethod_fields plain listed)
    (headerErrors_eq_nil accepted listed) small placed
  exact ⟨placed, numbered⟩

theorem class_numbered (listed : p.decls[i]? = some (.cls c)) :
    (p.membersAt i c).layout.slots true ≤ Word.limit → p.NumberedAt i c := by
  refine class_induction plain accepted ?_ ?_ listed
  · intro i c listed _ inherited small
    exact numberedAt plain accepted listed small (inherited ▸ Members.placed_empty)
  · intro i c j d listed isClass _ _ inherited ih small
    have below := slots_inherited_le plain listed
    rw [inherited] at below
    obtain ⟨slot, apart⟩ := (ih (Nat.le_trans below small)).placed
    exact numberedAt plain accepted listed small (inherited ▸ ⟨slot, apart⟩)

end

end Program

end ObjectLang
