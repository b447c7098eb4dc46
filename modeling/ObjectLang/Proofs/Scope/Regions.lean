import ObjectLang.Proofs.Classes.Slots
import ObjectLang.Proofs.Sites

/-!
The scopes around a place, read off the text of the program: the parameters and the declarations
before the place, for each function or method around it, the members of the class around a method,
and the global declarations before the place. The tables of the open scopes say what these say.
-/
namespace ObjectLang

def firstNamed? (name : String) : List (String × Ty) → Option (Nat × Ty)
  | [] => none
  | (other, ty) :: entries =>
    if other = name then some (0, ty)
    else (firstNamed? name entries).map fun found => (found.1 + 1, found.2)

theorem firstNamed?_concat (name other : String) (ty : Ty) (entries : List (String × Ty)) :
    firstNamed? name (entries ++ [(other, ty)]) =
      (firstNamed? name entries).or (if other = name then some (entries.length, ty) else none) := by
  induction entries with
  | nil => simp [firstNamed?]
  | cons entry entries ih =>
    rw [List.cons_append, firstNamed?, firstNamed?, ih]
    by_cases first : entry.1 = name
    · simp [first]
    · by_cases last : other = name
      · cases firstNamed? name entries <;> simp [first, last]
      · cases firstNamed? name entries <;> simp [first, last]

inductive Region where
  /-- Parameters, then declarations that each take a word of the frame. -/
  | frame (params declared : List (String × Ty))
  | members (table : Table Binding)

namespace Region

/-- What the scope says about a name. The first parameter of the name counts, or the first
declaration if there is none: parameters stand at their positions counted from 1, and declarations
from -2 downward. -/
def binding? (depth : Nat) (name : String) : Region → Option Binding
  | .frame params declared =>
    ((firstNamed? name params).map fun (i, ty) => ⟨depth, ty, Int32.ofNat (i + 1)⟩).or
      ((firstNamed? name declared).map fun (i, ty) => ⟨depth, ty, -2 - Int32.ofNat i⟩)
  | .members table => table.find? name

def lookup (name : String) : List Region → Option Binding
  | [] => none
  | region :: outer => (region.binding? outer.length name).or (lookup name outer)

def Matches : List (Table Binding) → List Region → Prop
  | [], [] => True
  | table :: tables, region :: outer =>
    (∀ name, table.find? name = region.binding? outer.length name) ∧ Matches tables outer
  | _, _ => False

theorem Matches.length_eq {tables : List (Table Binding)} {regions : List Region}
    (same : Matches tables regions) : tables.length = regions.length := by
  induction tables generalizing regions with
  | nil =>
    cases regions with
    | nil => rfl
    | cons => cases same
  | cons table tables ih =>
    cases regions with
    | nil => cases same
    | cons region outer => rw [List.length_cons, List.length_cons, ih same.2]

theorem Matches.lookup_eq {s : Scopes} {regions : List Region} (same : Matches s.tables regions)
    (name : String) : s.lookup name = lookup name regions := by
  obtain ⟨tables⟩ := s
  induction tables generalizing regions with
  | nil =>
    cases regions with
    | nil => rfl
    | cons => cases same
  | cons table tables ih =>
    cases regions with
    | nil => cases same
    | cons region outer => rw [Scopes.lookup_cons, lookup, same.1, ih same.2]

theorem Matches.declare {s : Scopes} {region wider : Region} {outer : List Region} {name : String}
    {b : Binding} (same : Matches s.tables (region :: outer))
    (adds : ∀ other, wider.binding? outer.length other =
      (region.binding? outer.length other).or (if name = other then some b else none)) :
    Matches (s.declare name b).tables (wider :: outer) := by
  obtain ⟨tables⟩ := s
  cases tables with
  | nil => cases same
  | cons table tables =>
    obtain ⟨here, beyond⟩ := same
    rw [Scopes.declare_cons]
    refine ⟨?_, beyond⟩
    intro other
    rw [adds, ← here]
    by_cases hit : name = other
    · subst hit
      cases known : table.find? name with
      | none => simp
      | some found => simp [known]
    · have differs : other ≠ name := fun eq => hit eq.symm
      rw [if_neg hit, Option.or_none]
      split
      · rw [Table.find?_insert_of_ne _ differs]
      · rfl

end Region

/-- What a declaration adds to the names of its scope. Classes count in the global scope only, with
the type that their binding gives. -/
def Decl.declares? (global : Bool) : Decl → Option (String × Ty)
  | .var decl => some (decl.name, decl.ty)
  | .fn routine => some (routine.name, .arrow routine.signature)
  | .cls c => if global then c.binding.map fun b => (c.name, b.ty) else none

def Param.entry (p : Param) : String × Ty := (p.name, p.ty)

def Routine.localNames (r : Routine) (count : Nat) : List (String × Ty) :=
  (r.locals.take count).filterMap (Decl.declares? false)

/-- The scopes around a spot, with the innermost one first. Here `declared` gives the names of the
scope that the spot starts from, as far as the first declarations go. -/
def Spot.regions (outer : List Region) (params : List (String × Ty))
    (declared : Nat → List (String × Ty)) : Spot → List Decl → List Region
  | .body _, ds => .frame params (declared ds.length) :: outer
  | .init index _, _ => .frame params (declared index) :: outer
  | .inside index spot, ds =>
    match ds[index]? with
    | some (.fn r) => spot.regions (.frame params (declared (index + 1)) :: outer)
        (r.params.map Param.entry) r.localNames r.locals
    | _ => []

namespace Program

def globals (p : Program) (count : Nat) : List (String × Ty) :=
  (p.resolve.program.decls.take count).filterMap (Decl.declares? true)

def membersAt (p : Program) (i : Nat) (c : ClassDecl) : Members :=
  (Context.following (p.decls.take i)).members c

/-- The scopes around a place, with the innermost one first. A function and a class are in scope in
their own bodies, a variable is not in its own initial value. -/
def regions (p : Program) : Site → List Region
  | .main spot => spot.regions [] [] p.globals p.decls
  | .method cls index spot =>
    match p.decls[cls]? with
    | some (.cls c) =>
      match c.methods[index]? with
      | some m => spot.regions [.members (p.membersAt cls c).table, .frame [] (p.globals (cls + 1))]
          (m.routine.params.map Param.entry) m.routine.localNames m.routine.locals
      | none => []
    | _ => []

end Program

namespace Scopes

theorem level_of_matches {s : Scopes} {region : Region} {outer : List Region}
    (same : Region.Matches s.tables (region :: outer)) : s.level = outer.length := by
  rw [level, same.length_eq, List.length_cons, Nat.add_sub_cancel]

theorem matches_declareParams {s : Scopes} {before : List (String × Ty)} {outer : List Region}
    (params : List Param) (same : Region.Matches s.tables (.frame before [] :: outer)) :
    Region.Matches (s.declareParams (Int32.ofNat (before.length + 1)) params).tables
      (.frame (before ++ params.map Param.entry) [] :: outer) := by
  induction params generalizing s before with
  | nil => simpa [declareParams] using same
  | cons p params ih =>
    have next : Region.Matches
        (s.declare p.name ⟨s.level, p.ty, Int32.ofNat (before.length + 1)⟩).tables
        (.frame (before ++ [p.entry]) [] :: outer) := by
      refine same.declare ?_
      intro other
      rw [level_of_matches same]
      by_cases hit : p.name = other
      · cases known : firstNamed? other before <;>
          simp [Region.binding?, firstNamed?, Param.entry, firstNamed?_concat, known, hit]
      · cases known : firstNamed? other before <;>
          simp [Region.binding?, firstNamed?, Param.entry, firstNamed?_concat, known, hit]
    have rest := ih next
    rw [List.length_append, List.length_singleton, Int32.ofNat_add] at rest
    simpa [declareParams] using rest

end Scopes

namespace Context

variable {ctx : Context} {params declared : List (String × Ty)} {outer : List Region}

structure Reads (ctx : Context) (params declared : List (String × Ty)) (outer : List Region) :
    Prop where
  scopes : Region.Matches ctx.scopes.tables (.frame params declared :: outer)
  offset : ctx.nextOffset = -2 - Int32.ofNat declared.length

theorem firstOffset_eq : firstOffset = -2 - Int32.ofNat 0 := by decide

theorem reads_initial : initial.Reads [] [] [] where
  scopes := ⟨fun _ => rfl, trivial⟩
  offset := firstOffset_eq

namespace Reads

theorem isGlobal_eq (reads : ctx.Reads params declared outer) :
    ctx.isGlobal = (outer.length == 0) := by
  rw [Context.isGlobal, Scopes.level_of_matches reads.scopes]

theorem offset_succ (reads : ctx.Reads params declared outer) (entry : String × Ty) :
    ctx.nextOffset - 1 = -2 - Int32.ofNat (declared ++ [entry]).length := by
  rw [reads.offset, List.length_append, List.length_singleton, Int32.ofNat_add, Int32.sub_sub]
  rfl

theorem scopes_declare (reads : ctx.Reads params declared outer) (name : String) (ty : Ty) :
    Region.Matches (ctx.scopes.declare name ⟨ctx.scopes.level, ty, ctx.nextOffset⟩).tables
      (.frame params (declared ++ [(name, ty)]) :: outer) := by
  refine reads.scopes.declare ?_
  intro other
  rw [Scopes.level_of_matches reads.scopes, reads.offset]
  by_cases hit : name = other
  · cases known : firstNamed? other declared <;> cases firstNamed? other params <;>
      simp [Region.binding?, firstNamed?_concat, known, hit]
  · cases known : firstNamed? other declared <;> cases firstNamed? other params <;>
      simp [Region.binding?, firstNamed?_concat, known, hit]

theorem declare (reads : ctx.Reads params declared outer) (name : String) (ty : Ty) :
    (ctx.declare name ty).Reads params (declared ++ [(name, ty)]) outer :=
  ⟨reads.scopes_declare name ty, reads.offset_succ (name, ty)⟩

theorem declareClass (reads : ctx.Reads params declared outer) (c : ClassDecl) :
    (ctx.declareClass c).Reads params
      (declared ++ [(c.name, .cls (ctx.members c).layout)]) outer :=
  ⟨reads.scopes_declare c.name (.cls (ctx.members c).layout), reads.offset_succ _⟩

theorem after_local (reads : ctx.Reads params declared outer) (inner : outer ≠ []) (d : Decl) :
    (ctx.after d).Reads params (declared ++ (d.declares? false).toList) outer := by
  cases d with
  | var decl => exact reads.declare decl.name decl.ty
  | fn r => exact reads.declare r.name (.arrow r.signature)
  | cls c =>
    have isLocal : ctx.isGlobal = false := by
      rw [reads.isGlobal_eq, beq_eq_false_iff_ne]
      exact fun none => inner (List.eq_nil_of_length_eq_zero none)
    simpa [Context.after, isLocal, Decl.declares?] using reads

theorem foldl_local (reads : ctx.Reads params declared outer) (inner : outer ≠ [])
    (ds : List Decl) :
    (ds.foldl Context.after ctx).Reads params (declared ++ ds.filterMap (Decl.declares? false))
      outer := by
  induction ds generalizing ctx declared with
  | nil => simpa using reads
  | cons d ds ih =>
    have step := ih (reads.after_local inner d)
    rw [List.append_assoc] at step
    rw [List.foldl_cons, List.filterMap_cons]
    cases named : d.declares? false with
    | none => simpa [named] using step
    | some entry => simpa [named] using step

theorem after_global (reads : ctx.Reads params declared []) (d : Decl) :
    (ctx.after d).Reads params (declared ++ ((d.resolve ctx).declares? true).toList) [] := by
  cases d with
  | var decl => exact reads.declare decl.name decl.ty
  | fn r =>
    rw [Decl.resolve, Decl.resolveRoutine_eq]
    exact reads.declare r.name (.arrow r.signature)
  | cls c =>
    have global : ctx.isGlobal = true := by rw [reads.isGlobal_eq]; rfl
    rw [Context.after, if_pos global, Decl.resolve_cls global]
    exact reads.declareClass c

theorem foldl_global (reads : ctx.Reads params declared []) (ds : List Decl) :
    (ds.foldl Context.after ctx).Reads params
      (declared ++ (Decl.resolveAll ctx ds).filterMap (Decl.declares? true)) [] := by
  induction ds generalizing ctx declared with
  | nil => simpa [Decl.resolveAll] using reads
  | cons d ds ih =>
    have step := ih (reads.after_global d)
    rw [List.append_assoc] at step
    rw [List.foldl_cons, Decl.resolveAll, List.filterMap_cons]
    cases named : (d.resolve ctx).declares? true with
    | none => simpa [named] using step
    | some entry => simpa [named] using step

end Reads

/-- At each point of a routine its scope holds the parameters and the locals before the point. -/
theorem reads_inRoutine (same : Region.Matches ctx.scopes.tables outer) (opened : outer ≠ [])
    (r : Routine) (count : Nat) :
    ((r.locals.take count).foldl Context.after (ctx.inRoutine r.params)).Reads
      (r.params.map Param.entry) (r.localNames count) outer := by
  have entered : Region.Matches (ctx.scopes.enter {}).tables (.frame [] [] :: outer) :=
    ⟨fun _ => rfl, same⟩
  have start : (ctx.inRoutine r.params).Reads (r.params.map Param.entry) [] outer :=
    ⟨Scopes.matches_declareParams r.params entered, firstOffset_eq⟩
  exact start.foldl_local opened (r.locals.take count)

end Context

namespace Decl

theorem take_resolveAll (ctx : Context) (ds : List Decl) (count : Nat) :
    (resolveAll ctx ds).take count = resolveAll ctx (ds.take count) := by
  induction ds generalizing ctx count with
  | nil => simp [resolveAll]
  | cons d ds ih =>
    cases count with
    | zero => rfl
    | succ count => simp [resolveAll, ih]

end Decl

theorem Program.reads_globals (p : Program) (count : Nat) :
    (Context.following (p.decls.take count)).Reads [] (p.globals count) [] := by
  rw [globals, resolve, Decl.take_resolveAll]
  exact Context.reads_initial.foldl_global (p.decls.take count)

end ObjectLang
