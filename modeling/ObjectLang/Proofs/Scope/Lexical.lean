import ObjectLang.Proofs.Classes.Names
import ObjectLang.Proofs.Scope.Regions

/-!
Lexical scoping. Scope resolution gives every name the binding of the innermost scope around it that
declares it, and reports the names that no scope around them declares.
-/
namespace ObjectLang

namespace Expr

variable {ctx : Context}

theorem resolveAll_eq_map (ctx : Context) (es : List Expr) :
    resolveAll ctx es = es.map (resolve ctx) := by
  induction es with
  | nil => rfl
  | cons e es ih => simp [resolveAll, ih]

theorem parts_resolve (ctx : Context) (e : Expr) :
    (e.resolve ctx).parts = e.parts.map (resolve ctx) := by
  cases e <;> simp [resolve, parts, resolveAll_eq_map]

theorem at?_resolve (ctx : Context) (e : Expr) (path : List Nat) :
    (e.resolve ctx).at? path = (e.at? path).map (resolve ctx) := by
  induction path generalizing e with
  | nil => rfl
  | cons i path ih =>
    rw [at?, at?, parts_resolve, List.getElem?_map]
    cases e.parts[i]? with
    | none => rfl
    | some part => exact ih part

theorem scopeErrors_mem {es : List Expr} {e : Expr} (mem : e ∈ es) :
    e.scopeErrors ctx ⊆ allScopeErrors ctx es := by
  induction es with
  | nil => cases mem
  | cons other es ih =>
    rw [allScopeErrors]
    rcases List.mem_cons.mp mem with rfl | mem
    · exact List.subset_append_left _ _
    · exact List.subset_append_of_subset_right _ (ih mem)

theorem scopeErrors_part {e part : Expr} (mem : part ∈ e.parts) :
    part.scopeErrors ctx ⊆ e.scopeErrors ctx := by
  cases e with
  | call line callee args => exact List.subset_append_of_subset_right _ (scopeErrors_mem mem)
  | new line cls args binding => exact List.subset_append_of_subset_right _ (scopeErrors_mem mem)
  | send line object method args binding =>
    exact List.subset_append_of_subset_right _ (scopeErrors_mem mem)
  | binary line op lhs rhs =>
    intro err listed
    simp only [parts, List.mem_cons, List.not_mem_nil, or_false] at mem
    rcases mem with rfl | rfl <;> simp [scopeErrors, listed]
  | not line operand =>
    intro err listed
    simp only [parts, List.mem_singleton] at mem
    simpa [scopeErrors, mem] using listed
  | print line operand =>
    intro err listed
    simp only [parts, List.mem_singleton] at mem
    simpa [scopeErrors, mem] using listed
  | cond line test yes no =>
    intro err listed
    simp only [parts, List.mem_cons, List.not_mem_nil, or_false] at mem
    rcases mem with rfl | rfl | rfl <;> simp [scopeErrors, listed]
  | int => cases mem
  | bool => cases mem
  | null => cases mem
  | id => cases mem
  | get => cases mem

theorem scopeErrors_at? {e part : Expr} {path : List Nat} (found : e.at? path = some part) :
    part.scopeErrors ctx ⊆ e.scopeErrors ctx := by
  induction path generalizing e with
  | nil => cases found; exact List.Subset.refl _
  | cons i path ih =>
    obtain ⟨next, listed, found⟩ := Option.bind_eq_some_iff.mp found
    exact List.Subset.trans (ih found) (scopeErrors_part (List.mem_of_getElem? listed))

theorem mention?_resolve {e : Expr} {kind : NameKind} {i : Ident}
    (mentions : e.mention? = some (kind, i)) :
    (e.resolve ctx).mention? = some (kind, i.resolve ctx.scopes) := by
  cases e <;> cases mentions <;> rfl

theorem undeclared_mem {e : Expr} {kind : NameKind} {i : Ident}
    (mentions : e.mention? = some (kind, i)) (unknown : ctx.scopes.lookup i.name = none) :
    .undeclared kind i.name e.line ∈ e.scopeErrors ctx := by
  cases e <;> cases mentions <;> simp [scopeErrors, Ident.scopeErrors, unknown, line]

end Expr

namespace Decl

variable {ctx : Context}

theorem getElem?_resolveAll {ds : List Decl} {index : Nat} {d : Decl} (ctx : Context)
    (listed : ds[index]? = some d) :
    (resolveAll ctx ds)[index]? = some (d.resolve ((ds.take index).foldl Context.after ctx)) := by
  induction ds generalizing ctx index with
  | nil => cases listed
  | cons other ds ih =>
    cases index with
    | zero => cases listed; rfl
    | succ index => exact ih (ctx.after other) listed

theorem scopeErrors_getElem? {ds : List Decl} {index : Nat} {d : Decl} (ctx : Context)
    (listed : ds[index]? = some d) :
    d.scopeErrors ((ds.take index).foldl Context.after ctx) ⊆ allScopeErrors ctx ds := by
  induction ds generalizing ctx index with
  | nil => cases listed
  | cons other ds ih =>
    rw [allScopeErrors]
    cases index with
    | zero => cases listed; exact List.subset_append_left _ _
    | succ index => exact List.subset_append_of_subset_right _ (ih (ctx.after other) listed)

theorem getElem?_resolveMethods {methods : List Method} {index : Nat} {method : Method}
    (ctx : Context) (m : Members) (listed : methods[index]? = some method) :
    ∃ offset, (resolveMethods ctx m methods)[index]? =
      some ⟨resolveRoutine ctx method.routine, offset⟩ := by
  induction methods generalizing m index with
  | nil => cases listed
  | cons other methods ih =>
    obtain ⟨routine, offset⟩ := other
    cases index with
    | zero => cases listed; exact ⟨_, rfl⟩
    | succ index => exact ih _ listed

theorem routineScopeErrors_getElem? {methods : List Method} {index : Nat} {method : Method}
    (listed : methods[index]? = some method) :
    routineScopeErrors ctx method.routine ⊆ methodsScopeErrors ctx methods := by
  induction methods generalizing index with
  | nil => cases listed
  | cons other methods ih =>
    obtain ⟨routine, offset⟩ := other
    rw [methodsScopeErrors]
    cases index with
    | zero => cases listed; exact List.subset_append_left _ _
    | succ index => exact List.subset_append_of_subset_right _ (ih listed)

theorem innerErrors_subset (r : Routine) :
    allScopeErrors (ctx.inRoutine r.params) r.locals ++
      r.body.scopeErrors (r.locals.foldl Context.after (ctx.inRoutine r.params)) ⊆
        routineScopeErrors ctx r := by
  obtain ⟨line, name, ret, params, locals, body⟩ := r
  rw [routineScopeErrors, List.append_assoc]
  exact List.subset_append_right _ _

end Decl

theorem Context.foldl_take_succ {ds : List Decl} {index : Nat} {d : Decl} (ctx : Context)
    (listed : ds[index]? = some d) :
    (ds.take (index + 1)).foldl Context.after ctx =
      ((ds.take index).foldl Context.after ctx).after d := by
  rw [List.take_add_one, listed, Option.toList_some, List.foldl_concat]

/-- An expression is resolved in a context whose scopes are those around it in the text. -/
theorem Spot.resolved_in {spot : Spot} {ctx : Context} {ds : List Decl} {result e : Expr}
    {params : List (String × Ty)} {declared : Nat → List (String × Ty)} {outer : List Region}
    (reads : ∀ count, ((ds.take count).foldl Context.after ctx).Reads params (declared count) outer)
    (found : spot.expr? ds result = some e) :
    ∃ inner : Context, Region.Matches inner.scopes.tables (spot.regions outer params declared ds) ∧
      spot.expr? (Decl.resolveAll ctx ds) (result.resolve (ds.foldl Context.after ctx)) =
        some (e.resolve inner) ∧
      e.scopeErrors inner ⊆
        Decl.allScopeErrors ctx ds ++ result.scopeErrors (ds.foldl Context.after ctx) := by
  induction spot generalizing ctx ds result params declared outer with
  | body path =>
    have whole := reads ds.length
    rw [List.take_length] at whole
    refine ⟨ds.foldl Context.after ctx, whole.scopes, ?_, ?_⟩
    · rw [expr?] at found ⊢
      rw [Expr.at?_resolve, found, Option.map_some]
    · exact List.subset_append_of_subset_right _ (Expr.scopeErrors_at? found)
  | init index path =>
    rw [expr?] at found
    split at found
    · rename_i decl listed
      obtain ⟨line, name, ty, init⟩ := decl
      refine ⟨(ds.take index).foldl Context.after ctx, (reads index).scopes, ?_, ?_⟩
      · simp only [expr?, Decl.getElem?_resolveAll ctx listed, Decl.resolve]
        rw [Expr.at?_resolve, found, Option.map_some]
      · refine List.subset_append_of_subset_left _
          (List.Subset.trans ?_ (Decl.scopeErrors_getElem? ctx listed))
        rw [Decl.scopeErrors, List.append_assoc]
        exact List.subset_append_of_subset_left _ (Expr.scopeErrors_at? found)
    · cases found
  | inside index spot ih =>
    rw [expr?] at found
    split at found
    · rename_i r listed
      have around := reads (index + 1)
      rw [Context.foldl_take_succ ctx listed] at around
      obtain ⟨inner, same, resolved, errors⟩ := ih
        (Context.reads_inRoutine around.scopes (List.cons_ne_nil _ _) r) found
      refine ⟨inner, ?_, ?_, ?_⟩
      · rw [regions, listed]
        exact same
      · simp only [expr?, Decl.getElem?_resolveAll ctx listed, Decl.resolve,
          Decl.resolveRoutine_eq]
        exact resolved
      · refine List.subset_append_of_subset_left _
          (List.Subset.trans ?_ (Decl.scopeErrors_getElem? ctx listed))
        rw [Decl.scopeErrors]
        exact List.subset_append_of_subset_right _
          (List.Subset.trans errors (Decl.innerErrors_subset r))
    · cases found

namespace Program

variable {p : Program}

theorem isGlobal_following (p : Program) (count : Nat) :
    (Context.following (p.decls.take count)).isGlobal = true := by
  rw [(p.reads_globals count).isGlobal_eq]
  rfl

theorem following_class {index : Nat} {c : ClassDecl} (listed : p.decls[index]? = some (.cls c)) :
    Context.following (p.decls.take (index + 1)) =
      (Context.following (p.decls.take index)).declareClass c := by
  have step := Context.foldl_take_succ Context.initial listed
  rw [← Context.following, ← Context.following, Context.after,
    if_pos (p.isGlobal_following index)] at step
  exact step

theorem matches_inClass {index : Nat} {c : ClassDecl} (listed : p.decls[index]? = some (.cls c)) :
    Region.Matches ((Context.following (p.decls.take index)).inClass c).scopes.tables
      [.members (p.membersAt index c).table, .frame [] (p.globals (index + 1))] := by
  have global := (p.reads_globals (index + 1)).scopes
  rw [following_class listed] at global
  exact ⟨fun _ => rfl, global⟩

theorem class_resolve {index : Nat} {c : ClassDecl} (listed : p.decls[index]? = some (.cls c)) :
    p.resolve.program.decls[index]? =
      some (.cls (c.resolve (Context.following (p.decls.take index)))) := by
  rw [← Decl.resolve_cls (p.isGlobal_following index)]
  exact Decl.getElem?_resolveAll Context.initial listed

theorem methodsScopeErrors_subset {index : Nat} {c : ClassDecl}
    (listed : p.decls[index]? = some (.cls c)) :
    Decl.methodsScopeErrors ((Context.following (p.decls.take index)).inClass c) c.methods ⊆
      p.resolve.errors := by
  have whole : (Decl.cls c).scopeErrors (Context.following (p.decls.take index)) ⊆
      p.resolve.errors :=
    List.subset_append_of_subset_left _ (Decl.scopeErrors_getElem? Context.initial listed)
  refine List.Subset.trans ?_ whole
  obtain ⟨line, name, parent, fields, methods, binding, parentBinding⟩ := c
  rw [Decl.scopeErrors, if_pos (p.isGlobal_following index)]
  exact List.subset_append_right _ _

theorem resolved_in {site : Site} {e : Expr} (found : p.expr? site = some e) :
    ∃ inner : Context, Region.Matches inner.scopes.tables (p.regions site) ∧
      p.resolve.program.expr? site = some (e.resolve inner) ∧
      e.scopeErrors inner ⊆ p.resolve.errors := by
  cases site with
  | main spot => exact Spot.resolved_in p.reads_globals found
  | method cls index spot =>
    rw [expr?] at found
    split at found
    · rename_i c listed
      obtain ⟨method, isMethod, found⟩ := Option.bind_eq_some_iff.mp found
      obtain ⟨inner, same, resolved, errors⟩ := Spot.resolved_in
        (Context.reads_inRoutine (matches_inClass listed) (List.cons_ne_nil _ _) method.routine)
        found
      refine ⟨inner, ?_, ?_, ?_⟩
      · simp only [regions, listed, isMethod]
        exact same
      · obtain ⟨offset, isResolved⟩ := Decl.getElem?_resolveMethods
          ((Context.following (p.decls.take cls)).inClass c)
          (((Context.following (p.decls.take cls)).inherited c).addFields c.fields) isMethod
        simp only [expr?, class_resolve listed, ClassDecl.resolve, isResolved, Option.bind_some,
          Decl.resolveRoutine_eq]
        exact resolved
      · have inMethod := List.Subset.trans errors (Decl.innerErrors_subset _)
        have inMethods := List.Subset.trans inMethod (Decl.routineScopeErrors_getElem? isMethod)
        exact List.Subset.trans inMethods (methodsScopeErrors_subset listed)
    · cases found

theorem tabled_following (p : Program) (count : Nat) :
    (Context.following (p.decls.take count)).Tabled (p.decls.take count) := by
  induction count with
  | zero => exact Context.tabled_initial
  | succ count ih =>
    cases listed : p.decls[count]? with
    | none => simpa [List.take_add_one, listed] using ih
    | some d =>
      rw [List.take_add_one, listed, Option.toList_some, Context.following_concat]
      exact ih.after (p.isGlobal_following count) d

theorem classes_of_following {count : Nat} {name : String} {table : Table Binding}
    (known : (Context.following (p.decls.take count)).classes.find? name = some table) :
    p.resolve.classes.find? name = some table := by
  have later : ∀ more,
      (Context.following (p.decls.take (count + more))).classes.find? name = some table := by
    intro more
    induction more with
    | zero => exact known
    | succ more ih =>
      cases listed : p.decls[count + more]? with
      | none => simpa [← Nat.add_assoc, List.take_add_one, listed] using ih
      | some d =>
        rw [← Nat.add_assoc, List.take_add_one, listed, Option.toList_some,
          Context.following_concat]
        exact (p.tabled_following (count + more)).find?_after ih d
  have whole := later p.decls.length
  rw [List.take_of_length_le (Nat.le_add_left _ _)] at whole
  exact whole

/-- The class at a position takes the name over from its parent: the parent's name means a class
there, and the name is a member of the first class of that name. -/
def Inherits (p : Program) (index : Nat) (c : ClassDecl) (name : String) : Prop :=
  ∃ parent layout table, c.parent = some parent ∧
    (Region.lookup parent [.frame [] (p.globals index)]).map Binding.ty = some (.cls layout) ∧
    (Decl.firstClass? parent (p.decls.take index)).isSome = true ∧
    p.resolve.classes.find? parent = some table ∧ table.contains name = true

theorem lookupGlobal_following (p : Program) (index : Nat) (name : String) :
    (Context.following (p.decls.take index)).scopes.lookupGlobal name =
      Region.lookup name [.frame [] (p.globals index)] := by
  have same := (p.reads_globals index).scopes
  generalize (Context.following (p.decls.take index)).scopes = s at same
  obtain ⟨tables⟩ := s
  match tables, same with
  | [table], same =>
    rw [← same.lookup_eq, Scopes.lookupGlobal_singleton, Scopes.lookup_cons]
    exact Option.or_none.symm

theorem inherits_iff (p : Program) (index : Nat) (c : ClassDecl) (name : String) :
    p.Inherits index c name ↔ (Context.following (p.decls.take index)).parentHas c name := by
  have tabled := p.tabled_following index
  constructor
  · rintro ⟨parent, layout, table, named, isClass, first, recorded, has⟩
    rw [← lookupGlobal_following] at isClass
    obtain ⟨b, bound, shape⟩ := Option.map_eq_some_iff.mp isClass
    rw [← tabled.declared] at first
    obtain ⟨earlier, listed⟩ := Option.isSome_iff_exists.mp first
    -- The table that the parent has at this point is the one it ends with.
    have same := classes_of_following listed
    rw [recorded, Option.some.injEq] at same
    subst same
    exact ⟨⟨parent, b, layout, table⟩, by simp [Context.parent?, named, bound, listed, shape], has⟩
  · rintro ⟨parent, found, has⟩
    obtain ⟨named, _, listed, b, bound, isClass⟩ := Context.parent?_eq_some found
    refine ⟨parent.name, parent.layout, parent.table, named, ?_, ?_, classes_of_following listed,
      has⟩
    · rw [← lookupGlobal_following, bound, Option.map_some, isClass]
    · rw [← tabled.declared, Table.contains, listed]
      rfl

/-- The class scope of the class at a position: its own names and those it takes over, all with
level 1. If it is the first class of its name, this is the member table that resolution gives. -/
structure HasClassScope (p : Program) (index : Nat) (c : ClassDecl) : Prop where
  names : ∀ name, (p.membersAt index c).table.contains name = true ↔
    p.Inherits index c name ∨ (∃ f ∈ c.fields, f.name = name) ∨ ∃ m ∈ c.methods, m.name = name
  level : ∀ name b, (p.membersAt index c).table.find? name = some b → b.level = 1
  recorded : Decl.firstClass? c.name (p.decls.take index) = none →
    p.resolve.classes.find? c.name = some (p.membersAt index c).table

theorem hasClassScope {index : Nat} {c : ClassDecl} (listed : p.decls[index]? = some (.cls c)) :
    p.HasClassScope index c where
  names := by
    intro name
    rw [inherits_iff, ← Context.members_contains]
    rfl
  level := (p.tabled_following index).level_members c
  recorded := by
    intro first
    have tabled := p.tabled_following index
    have new : (Context.following (p.decls.take index)).inheritance.contains c.name = false := by
      rw [tabled.recorded, tabled.declared, first]
      rfl
    have known : (Context.following (p.decls.take (index + 1))).classes.find? c.name =
        some (p.membersAt index c).table := by
      rw [following_class listed, Context.find?_declareClass_self new]
      rfl
    exact classes_of_following known

/-- Names are scoped lexically. At every place that resolution visits, a variable, a function that is
called and the object of a member access mean what the innermost scope around the place says about
the name, seen from the depth of the place; a name that no scope around it declares keeps what it
had, and is reported. -/
theorem lexical_scoping (p : Program) :
    (∀ site e kind i, p.expr? site = some e → e.mention? = some (kind, i) →
      ∃ e' i', p.resolve.program.expr? site = some e' ∧ e'.mention? = some (kind, i') ∧
        i'.name = i.name ∧
        (∀ b, Region.lookup i.name (p.regions site) = some b →
          i'.use = some ⟨b, (p.regions site).length - 1⟩) ∧
        (Region.lookup i.name (p.regions site) = none →
          i'.use = i.use ∧ .undeclared kind i.name e.line ∈ p.resolve.errors)) ∧
    ∀ index c, p.decls[index]? = some (.cls c) → p.HasClassScope index c := by
  refine ⟨?_, fun _ _ listed => hasClassScope listed⟩
  intro site e kind i found mentions
  obtain ⟨inner, same, resolved, errors⟩ := resolved_in found
  refine ⟨e.resolve inner, i.resolve inner.scopes, resolved, Expr.mention?_resolve mentions, rfl,
    ?_, ?_⟩
  · intro b known
    rw [← same.lookup_eq] at known
    simp [Ident.resolve, Scopes.use?, known, Scopes.level, same.length_eq]
  · intro unknown
    rw [← same.lookup_eq] at unknown
    refine ⟨?_, errors (Expr.undeclared_mem mentions unknown)⟩
    simp [Ident.resolve, Scopes.use?, unknown]

def hiddenByField : Program where
  decls := [
    .var ⟨1, "x", .int, .int 1 1⟩,
    .cls ⟨2, "A", none, [⟨2, "x", .bool, 0⟩],
      [⟨⟨3, "m", .bool, [⟨3, "y", .int⟩],
        [.fn ⟨4, "g", .bool, [⟨4, "z", .int⟩], [], .id 4 ⟨"x", none⟩⟩],
        .call 5 ⟨"g", none⟩ [.id 5 ⟨"y", none⟩]⟩, 0⟩], none, none⟩]
  body := .id 6 ⟨"y", none⟩

theorem lexical_scoping_hiddenByField :
    (∃ e i, hiddenByField.resolve.program.expr? (.method 1 0 (.inside 0 (.body []))) = some e ∧
      e.mention? = some (.var, i) ∧ i.use = some ⟨⟨1, .bool, -1⟩, 3⟩) ∧
    .undeclared .var "y" 6 ∈ hiddenByField.resolve.errors ∧
    ∃ c, hiddenByField.decls[1]? = some (.cls c) ∧ hiddenByField.HasClassScope 1 c := by
  obtain ⟨names, classes⟩ := hiddenByField.lexical_scoping
  refine ⟨?_, ?_, _, rfl, classes 1 _ rfl⟩
  · obtain ⟨e, i, found, mentions, _, known, _⟩ :=
      names (.method 1 0 (.inside 0 (.body []))) _ .var _ rfl rfl
    exact ⟨e, i, found, mentions, known ⟨1, .bool, -1⟩ (by decide +kernel)⟩
  · obtain ⟨_, _, _, _, _, _, unknown⟩ := names (.main (.body [])) _ .var _ rfl rfl
    exact (unknown (by decide +kernel)).2

end Program

end ObjectLang
