import ObjectLang.Proofs.Scope.Lexical

/-!
Levels of bindings. A stack of scopes is leveled if every binding carries the position of its scope,
with the global scope at 0. Then the hops of a use are the scopes between the use and the
declaration. The scopes around a place of a program are leveled.
-/
namespace ObjectLang

abbrev Table.AtLevel (level : Nat) (t : Table Binding) : Prop := t.Every fun b => b.level = level

namespace Scopes

variable {s : Scopes} {table : Table Binding} {name : String} {b : Binding}

/-- The scope at each position, with the global scope at 0, holds only bindings of that level. -/
def Leveled (s : Scopes) : Prop :=
  ∀ (i : Nat) (table : Table Binding), s.tables.reverse[i]? = some table → table.AtLevel i

theorem leveled_empty : Leveled {} := by
  intro i table listed
  cases listed

theorem leveled_cons {rest : List (Table Binding)} :
    Leveled ⟨table :: rest⟩ ↔ table.AtLevel rest.length ∧ Leveled ⟨rest⟩ := by
  constructor
  · intro leveled
    refine ⟨leveled rest.length table (by simp), ?_⟩
    intro i other listed
    have inside : i < rest.reverse.length := (List.getElem?_eq_some_iff.mp listed).1
    refine leveled i other ?_
    rw [List.reverse_cons, List.getElem?_append_left inside]
    exact listed
  · rintro ⟨innermost, outer⟩ i other listed
    rw [List.reverse_cons] at listed
    by_cases inside : i < rest.reverse.length
    · rw [List.getElem?_append_left inside] at listed
      exact outer i other listed
    · rw [List.getElem?_append_right (Nat.not_lt.mp inside), List.getElem?_singleton] at listed
      split at listed
      · rename_i here
        cases listed
        have last : i = rest.length := by
          rw [List.length_reverse] at inside here
          omega
        exact last ▸ innermost
      · cases listed

theorem Leveled.enter (leveled : s.Leveled) (inside : table.AtLevel s.tables.length) :
    (s.enter table).Leveled := leveled_cons.mpr ⟨inside, leveled⟩

theorem Leveled.of_enter (leveled : (s.enter table).Leveled) : s.Leveled :=
  (leveled_cons.mp leveled).2

theorem Leveled.declare (leveled : s.Leveled) (new : b.level = s.level) :
    (s.declare name b).Leveled := by
  obtain ⟨tables⟩ := s
  cases tables with
  | nil => exact leveled
  | cons table rest =>
    obtain ⟨innermost, outer⟩ := leveled_cons.mp leveled
    rw [declare_cons]
    refine leveled_cons.mpr ⟨?_, outer⟩
    split
    · exact innermost.insert new
    · exact innermost

/-- The level of a binding and the scopes passed on the way out to it add up to all scopes but the
one that declares it. -/
theorem Leveled.lookup (leveled : s.Leveled) (found : s.lookup name = some b) :
    b.level + s.tables.findIdx (fun table => table.contains name) + 1 = s.tables.length := by
  obtain ⟨tables⟩ := s
  induction tables with
  | nil => cases found
  | cons table rest ih =>
    obtain ⟨innermost, outer⟩ := leveled_cons.mp leveled
    rw [lookup_cons] at found
    cases here : table.find? name with
    | some known =>
      rw [here, Option.some_or, Option.some.injEq] at found
      have level : b.level = rest.length := innermost name b (found ▸ here)
      simp [List.findIdx_cons, Table.contains, here, level]
    | none =>
      rw [here, Option.none_or] at found
      have further := ih outer found
      simp only [Table.contains] at further
      simp only [List.findIdx_cons, Table.contains, here, Option.isSome_none, cond_false,
        List.length_cons]
      omega

theorem Leveled.use (leveled : s.Leveled) {u : Use} (found : s.use? name = some u) :
    u.binding.level ≤ u.level ∧
      u.hops = s.tables.findIdx (fun table => table.contains name) := by
  obtain ⟨b, known, rfl⟩ := Option.map_eq_some_iff.mp found
  have count := leveled.lookup known
  simp only [Use.hops, level]
  omega

end Scopes

structure Context.Leveled (ctx : Context) : Prop where
  scopes : ctx.scopes.Leveled
  classes : ∀ name table, ctx.classes.find? name = some table → table.AtLevel 1

theorem Context.members_atLevel (ctx : Context)
    (classes : ∀ name table, ctx.classes.find? name = some table → table.AtLevel 1)
    (c : ClassDecl) : (ctx.members c).table.AtLevel 1 :=
  every_members classes (fun _ _ _ => rfl) fun _ _ _ => rfl

/-! The same for scopes as the text shows them. -/

theorem firstNamed?_isSome (name : String) (entries : List (String × Ty)) :
    (firstNamed? name entries).isSome = entries.any fun entry => entry.1 == name := by
  induction entries with
  | nil => rfl
  | cons entry entries ih =>
    by_cases first : entry.1 = name
    · simp [firstNamed?, first]
    · simp [firstNamed?, first, ih]

namespace Region

def declares (name : String) : Region → Bool
  | .frame params declared => (params ++ declared).any fun entry => entry.1 == name
  | .members table => table.contains name

theorem binding?_isSome (depth : Nat) (name : String) (region : Region) :
    (region.binding? depth name).isSome = region.declares name := by
  cases region with
  | frame params declared => simp [binding?, declares, firstNamed?_isSome]
  | members table => rfl

theorem level_frame {depth : Nat} {name : String} {params declared : List (String × Ty)}
    {b : Binding} (found : (Region.frame params declared).binding? depth name = some b) :
    b.level = depth := by
  simp only [binding?, Option.or_eq_some_iff, Option.map_eq_some_iff] at found
  rcases found with ⟨_, _, rfl⟩ | ⟨_, _, _, rfl⟩
  · rfl
  · rfl

def Placed : List Region → Prop
  | [] => True
  | .frame _ _ :: outer => Placed outer
  | .members table :: outer => table.AtLevel outer.length ∧ Placed outer

theorem Matches.leveled {tables : List (Table Binding)} {regions : List Region}
    (same : Matches tables regions) (placed : Placed regions) : Scopes.Leveled ⟨tables⟩ := by
  induction tables generalizing regions with
  | nil => exact Scopes.leveled_empty
  | cons table tables ih =>
    cases regions with
    | nil => cases same
    | cons region outer =>
      obtain ⟨here, beyond⟩ := same
      rw [Scopes.leveled_cons, beyond.length_eq]
      cases region with
      | frame params declared =>
        refine ⟨?_, ih beyond placed⟩
        intro name b found
        exact level_frame ((here name).symm.trans found)
      | members listed =>
        refine ⟨?_, ih beyond placed.2⟩
        intro name b found
        exact placed.1 name b ((here name).symm.trans found)

theorem Matches.findIdx_eq {tables : List (Table Binding)} {regions : List Region}
    (same : Matches tables regions) (name : String) :
    tables.findIdx (fun table => table.contains name) = regions.findIdx (declares name) := by
  induction tables generalizing regions with
  | nil =>
    cases regions with
    | nil => rfl
    | cons => cases same
  | cons table tables ih =>
    cases regions with
    | nil => cases same
    | cons region outer =>
      rw [List.findIdx_cons, List.findIdx_cons, ih same.2, Table.contains, same.1,
        binding?_isSome]

theorem lookup_isSome (name : String) (regions : List Region) :
    (lookup name regions).isSome = regions.any (declares name) := by
  induction regions with
  | nil => rfl
  | cons region outer ih =>
    rw [lookup, Option.isSome_or, binding?_isSome, ih, List.any_cons]

end Region

theorem Spot.placed_regions {outer : List Region} (placed : Region.Placed outer) (spot : Spot)
    (params : List (String × Ty)) (declared : Nat → List (String × Ty)) (ds : List Decl) :
    Region.Placed (spot.regions outer params declared ds) := by
  induction spot generalizing outer params declared ds with
  | body path => exact placed
  | init index path => exact placed
  | inside index spot ih =>
    rw [regions]
    split
    · refine ih ?_ _ _ _
      exact placed
    · exact trivial

namespace Program

theorem placed_regions (p : Program) (site : Site) : Region.Placed (p.regions site) := by
  cases site with
  | main spot =>
    have outermost : Region.Placed [] := trivial
    exact spot.placed_regions outermost _ _ _
  | method cls index spot =>
    rw [regions]
    split
    · rename_i c _
      split
      · have around : Region.Placed [.members (p.membersAt cls c).table,
            .frame [] (p.globals (cls + 1))] :=
          ⟨(p.tabled_following cls).level_members c, trivial⟩
        exact spot.placed_regions around _ _ _
      · exact trivial
    · exact trivial

/-- If a scope around a place declares the name that is used there, the use that resolution attaches
is at least as deep as its binding, and its hops count the scopes passed on the way out to the first
that declares the name. Otherwise nothing is attached. -/
theorem use_at {p : Program} {site : Site} {e : Expr} {kind : NameKind} {i : Ident}
    (found : p.expr? site = some e) (mentions : e.mention? = some (kind, i)) :
    ∃ e' i', p.resolve.program.expr? site = some e' ∧ e'.mention? = some (kind, i') ∧
      if (p.regions site).any (Region.declares i.name) then
        ∃ u, i'.use = some u ∧ u.binding.level ≤ u.level ∧
          u.hops = (p.regions site).findIdx (Region.declares i.name)
      else i'.use = i.use := by
  obtain ⟨inner, same, resolved, _⟩ := resolved_in found
  refine ⟨e.resolve inner, i.resolve inner.scopes, resolved, Expr.mention?_resolve mentions, ?_⟩
  rw [← Region.lookup_isSome, ← same.lookup_eq]
  cases known : inner.scopes.lookup i.name with
  | none => simp [Ident.resolve, Scopes.use?, known]
  | some b =>
    have used : inner.scopes.use? i.name = some ⟨b, inner.scopes.level⟩ := by
      rw [Scopes.use?, known, Option.map_some]
    have leveled := (same.leveled (p.placed_regions site)).use used
    rw [Option.isSome_some, if_pos rfl]
    refine ⟨_, ?_, leveled.1, leveled.2.trans (same.findIdx_eq i.name)⟩
    rw [Ident.resolve, used, Option.some_or]

end Program

end ObjectLang
