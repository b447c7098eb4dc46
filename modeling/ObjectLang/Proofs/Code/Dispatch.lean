import ObjectLang.Proofs.Classes.Lineage
import ObjectLang.Proofs.Code.Integrity
import ObjectLang.Proofs.Code.Tables
import ObjectLang.Proofs.Generation

/-!
Dynamic dispatch. In the code of a program that scope resolution accepts, the dispatch table of each
class has one entry for each method of the class, and the entry leads to the body of the method that
the nearest class from there upwards declares with the offset.
-/
namespace ObjectLang

open Symbolic Lower

namespace Program

def methodAt? (p : Program) (offset : Word) (cls : String) : Option (Nat × Nat) :=
  (p.decls.findIdx? fun d => (d.class? cls).isSome).bind fun j =>
    (p.class? cls).bind fun c =>
      (c.methods.findIdx? fun m => m.offset == offset).map fun n => (j, n)

def bodyIndex (p : Program) (j n : Nat) : Nat :=
  (Decl.allRoutines (p.decls.take j)).length +
    match p.decls[j]? with
    | some (.cls c) => Decl.bodyIndex c.methods n
    | _ => 0

section

variable {p : Program} {i j n : Nat} {c : ClassDecl} {m : Method}

theorem methodAt?_eq (listed : p.decls[i]? = some (.cls c))
    (once : ∀ j d, p.decls[j]? = some (.cls d) → d.name = c.name → j = i) (offset : Word) :
    p.methodAt? offset c.name =
      (c.methods.findIdx? fun m => m.offset == offset).map fun n => (i, n) := by
  have first : p.decls.findIdx? (fun d => (d.class? c.name).isSome) = some i := by
    obtain ⟨bound, here⟩ := List.getElem?_eq_some_iff.mp listed
    refine List.findIdx?_eq_some_iff_getElem.mpr ⟨bound, ?_, ?_⟩
    · simp [here, Decl.class?]
    · intro j before found
      obtain ⟨d, isClass⟩ := Option.isSome_iff_exists.mp found
      obtain ⟨isClass, same⟩ := Decl.class?_eq_some.mp isClass
      have := once j d (List.getElem?_eq_some_iff.mpr ⟨by omega, isClass⟩) same
      omega
  have only : p.class? c.name = some c := by
    cases found : p.class? c.name with
    | none =>
      have absent := List.findSome?_eq_none_iff.mp found _ (List.mem_of_getElem? listed)
      simp [Decl.class?] at absent
    | some d =>
      obtain ⟨j, isClass, same⟩ := Decl.getElem?_of_firstClass? found
      cases once j d isClass same
      rw [listed] at isClass
      cases isClass
      rfl
  rw [methodAt?, first, only]
  rfl

theorem bodyIndex_eq (listed : p.decls[j]? = some (.cls c)) (n : Nat) :
    p.bodyIndex j n =
      (Decl.allRoutines (p.decls.take j)).length + Decl.bodyIndex c.methods n := by
  rw [bodyIndex, listed]

theorem getElem?_bodyIndex (listed : p.decls[j]? = some (.cls c))
    (inClass : c.methods[n]? = some m) : p.routines[p.bodyIndex j n]? = some m.routine := by
  have split := congrArg Decl.allRoutines (decls_split listed)
  rw [Decl.allRoutines_append, Decl.allRoutines, Decl.routines_cls] at split
  rw [bodyIndex_eq listed, routines, split]
  exact getElem?_middle (Decl.getElem?_bodyIndex inClass) _ _

end

theorem bodyIndex_lt {p : Program} {j j' n : Nat} {c c' : ClassDecl}
    (listed : p.decls[j]? = some (.cls c)) (bound : n < c.methods.length)
    (listed' : p.decls[j']? = some (.cls c')) (before : j < j') (n' : Nat) :
    p.bodyIndex j n < p.bodyIndex j' n' := by
  have inside := Decl.getElem?_bodyIndex (List.getElem?_eq_getElem bound)
  have short := (List.getElem?_eq_some_iff.mp inside).1
  obtain ⟨more, split⟩ := List.take_prefix_take_left (l := p.decls) (Nat.succ_le_of_lt before)
  have count := congrArg (fun ds => (Decl.allRoutines ds).length) split
  simp only [List.take_add_one, listed, Option.toList_some, Decl.allRoutines_append,
    Decl.allRoutines, Decl.routines_cls, List.length_append, List.append_nil] at count
  rw [bodyIndex_eq listed, bodyIndex_eq listed']
  omega

theorem bodyIndex_inj {p : Program} {j j' n n' : Nat} {c c' : ClassDecl}
    (listed : p.decls[j]? = some (.cls c)) (bound : n < c.methods.length)
    (listed' : p.decls[j']? = some (.cls c')) (bound' : n' < c'.methods.length)
    (same : p.bodyIndex j n = p.bodyIndex j' n') : j = j' ∧ n = n' := by
  rcases Nat.lt_trichotomy j j' with before | rfl | after
  · have := bodyIndex_lt listed bound listed' before n'
    omega
  · rw [listed] at listed'
    cases listed'
    rw [bodyIndex_eq listed, bodyIndex_eq listed, Nat.add_left_cancel_iff] at same
    exact ⟨rfl, Decl.bodyIndex_inj bound bound' same⟩
  · have := bodyIndex_lt listed' bound' listed after n
    omega

def EntryAt (p : Program) (bodies : List Listing) (offset : Word) (place : Nat × Nat)
    (address : Nat) : Prop :=
  ∃ c m body, p.decls[place.1]? = some (.cls c) ∧ c.methods[place.2]? = some m ∧
    m.offset = offset ∧ p.routines[p.bodyIndex place.1 place.2]? = some m.routine ∧
    bodies[p.bodyIndex place.1 place.2]? = some body ∧
    body.head? = some (address, ⟨.copyFp, none⟩)

theorem index_eq_of_starts {bodies : List Listing} {i j address : Nat} {body body' : Listing}
    {first first' : Instr} (sorted : bodies.flatten.Pairwise fun one other => one.1 < other.1)
    (isBody : bodies[i]? = some body) (isBody' : bodies[j]? = some body')
    (opens : body.head? = some (address, first)) (opens' : body'.head? = some (address, first')) :
    i = j := by
  obtain ⟨bound, rfl⟩ := List.getElem?_eq_some_iff.mp isBody
  obtain ⟨bound', rfl⟩ := List.getElem?_eq_some_iff.mp isBody'
  have grows := List.pairwise_iff_getElem.mp (List.pairwise_flatten.mp sorted).2
  have mem := List.mem_of_head? opens
  have mem' := List.mem_of_head? opens'
  rcases Nat.lt_trichotomy i j with before | same | after
  · have less := grows i j bound bound' before _ mem _ mem'
    omega
  · exact same
  · have less := grows j i bound' bound after _ mem' _ mem
    omega

theorem EntryAt.offset_eq {p : Program} {bodies : List Listing} {offset offset' : Word}
    {place place' : Nat × Nat} {address : Nat}
    (sorted : bodies.flatten.Pairwise fun one other => one.1 < other.1)
    (entry : p.EntryAt bodies offset place address)
    (entry' : p.EntryAt bodies offset' place' address) : offset = offset' := by
  obtain ⟨c, m, body, listed, inClass, rfl, _, isBody, opens⟩ := entry
  obtain ⟨c', m', body', listed', inClass', rfl, _, isBody', opens'⟩ := entry'
  have same := index_eq_of_starts sorted isBody isBody' opens opens'
  obtain ⟨sameClass, sameMethod⟩ := bodyIndex_inj listed (List.getElem?_eq_some_iff.mp inClass).1
    listed' (List.getElem?_eq_some_iff.mp inClass').1 same
  rw [← sameClass, listed] at listed'
  cases listed'
  rw [← sameMethod, inClass] at inClass'
  cases inClass'
  rfl

def Reaches (p : Program) (h : Inheritance) (offset : Word) (cls : String) (place : Nat × Nat) :
    Prop :=
  ∃ links ancestor, h.above links cls = some ancestor ∧ p.methodAt? offset ancestor = some place ∧
    ∀ fewer < links, ∀ between, h.above fewer cls = some between →
      p.methodAt? offset between = none

section

variable {p : Program} {h : Inheritance} {offset : Word} {cls : String} {place : Nat × Nat}

theorem reaches_own (own : p.methodAt? offset cls = some place) : p.Reaches h offset cls place :=
  ⟨0, cls, rfl, own, fun _ bound => absurd bound (Nat.not_lt_zero _)⟩

theorem Reaches.inherit {parent : String} (reaches : p.Reaches h offset parent place)
    (up : h.parent? cls = some parent) (absent : p.methodAt? offset cls = none) :
    p.Reaches h offset cls place := by
  obtain ⟨links, ancestor, reached, here, before⟩ := reaches
  have further (count : Nat) : h.above (count + 1) cls = h.above count parent := by
    rw [Inheritance.above, up, Option.bind_some]
  refine ⟨links + 1, ancestor, (further links).trans reached, here, ?_⟩
  intro fewer bound between found
  cases fewer with
  | zero =>
    cases found
    exact absent
  | succ fewer => exact before fewer (by omega) between ((further fewer).symm.trans found)

end

/-- The table has this many entries, and each leads to the body of the nearest method with its
offset, from the class upwards. -/
structure Tabulates (p : Program) (h : Inheritance) (bodies : List Listing) (cls : String)
    (count : Nat) (table : List Nat) : Prop where
  length : table.length = count
  entries : ∀ k address, table[k]? = some address → ∃ place,
    p.Reaches h (Int32.ofNat k) cls place ∧ p.EntryAt bodies (Int32.ofNat k) place address

theorem length_le_flatten {g : Word} {labels : Labels} {rs : List Routine}
    {bodies : List (List Row)} (realized : List.Forall₂ (Routine.Realized g labels) rs bodies) :
    rs.length ≤ bodies.flatten.length := by
  induction realized with
  | nil => exact Nat.le_refl _
  | cons body _ ih =>
    obtain ⟨middle, opcodes⟩ := body.encloses
    have count := congrArg List.length opcodes
    simp only [List.length_map, List.length_append, List.length_cons] at count
    rw [List.flatten_cons, List.length_append, List.length_cons]
    omega

theorem routines_le_width {p : Program} {g : Word} {f : Fragment} {t : Supply}
    (lowered : Yields (p.code g) {} f t) : p.routines.length ≤ f.all.width := by
  obtain ⟨_, bodies, _, shown, _, realized⟩ := segmented lowered
  have long := congrArg (fun segs : List Listing => segs.flatten.length) shown
  rw [Code.flatten_listings, ← List.map_flatten, List.length_map] at long
  calc p.routines.length
    _ ≤ bodies.flatten.length := length_le_flatten realized
    _ ≤ Code.width f.bodies.flatten := long ▸ Code.length_listing_le _ _ _
    _ ≤ f.all.width := by
      rw [Fragment.all, Code.width_append]
      exact Nat.le_add_left _ _

section

variable {p : Program} {i j : Nat} {c d : ClassDecl} {g : Word} {labels : Labels}
  {slots bodies : List Listing} {tables : Tables}
  (plain : Decl.Plain p.declaredTypes) (accepted : p.resolve.errors = [])

include plain accepted

theorem quiet_decls : ∀ e ∈ p.resolve.program.decls, e.Quiet g labels := by
  intro e mem
  obtain ⟨i, listed⟩ := List.mem_iff_getElem?.mp mem
  obtain ⟨source, found, rfl⟩ := Decl.getElem?_of_resolveAll listed
  have flat := (distinct_and_flat plain accepted).2 i source found
  cases source with
  | var decl => exact Decl.quiet_resolve (.var decl) nofun flat _
  | fn r => exact Decl.quiet_resolve (.fn r) nofun flat _
  | cls c =>
    rw [← Context.following, Decl.resolve_cls (p.isGlobal_following i)]
    rw [Decl.routines_cls] at flat
    exact Decl.quiet_resolveMethods flat _ _

theorem class?_of_declared (listed : p.decls[j]? = some (.cls d)) {count : Nat}
    (bound : j < count) : ∀ e ∈ p.resolve.program.decls.drop count, e.class? d.name = none := by
  intro e mem
  cases found : e.class? d.name with
  | none => rfl
  | some other =>
    obtain ⟨rfl, same⟩ := Decl.class?_eq_some.mp found
    obtain ⟨more, later⟩ := List.mem_iff_getElem?.mp mem
    rw [List.getElem?_drop] at later
    obtain ⟨source, isClass, rfl⟩ := class_of_resolved later
    have := class_unique plain accepted listed isClass same.symm
    omega

theorem slots_le_routines (listed : p.decls[i]? = some (.cls c)) :
    (p.membersAt i c).layout.slots true ≤
      (Decl.allRoutines (p.resolve.program.decls.take (i + 1))).length := by
  -- The class declares at most as many methods as its declaration has routines.
  have grows {i : Nat} {c : ClassDecl} (listed : p.decls[i]? = some (.cls c)) :
      (p.membersAt i c).layout.slots true +
          (Decl.allRoutines (p.resolve.program.decls.take i)).length ≤
        ((Context.following (p.decls.take i)).inherited c).layout.slots true +
          (Decl.allRoutines (p.resolve.program.decls.take (i + 1))).length := by
    have added := Members.slots_addMethods_le
      (((Context.following (p.decls.take i)).inherited c).addFields c.fields) c.methods
    have kept := congrArg List.length (Members.methods_addFields
      ((Context.following (p.decls.take i)).inherited c) c.fields)
    have own := Decl.length_le_methodRoutines
      (c.resolve (Context.following (p.decls.take i))).methods
    rw [show (c.resolve (Context.following (p.decls.take i))).methods.length = c.methods.length from
      Decl.length_resolveMethods _ _ _] at own
    rw [List.take_add_one, class_resolve listed, Option.toList_some, Decl.allRoutines_append,
      Decl.allRoutines, Decl.allRoutines, Decl.routines_cls, List.append_nil, List.length_append]
    simp only [membersAt, Context.members, Layout.slots] at added kept ⊢
    omega
  refine class_induction plain accepted ?_ ?_ listed
  · intro i c listed _ inherited
    have bound := grows listed
    rw [inherited, show Layout.slots (Members.layout {}) true = 0 from rfl] at bound
    omega
  · intro i c j d listed isClass before _ inherited ih
    have bound := grows listed
    obtain ⟨more, split⟩ := List.take_prefix_take_left (l := p.resolve.program.decls)
      (Nat.succ_le_of_lt before)
    have count := congrArg (fun ds => (Decl.allRoutines ds).length) split
    simp only [inherited, Decl.allRoutines_append, List.length_append, Nat.succ_eq_add_one]
      at bound count
    omega

theorem table_resolved (listed : p.decls[i]? = some (.cls c))
    (linked : Decl.AllLinked g labels (fun _ => []) p.resolve.program.decls slots bodies tables) :
    ∃ slot starts, slots[i]? = some slot ∧ slot.map Prod.snd = Instr.writing (tables c.name) ∧
      tables c.name = fillAddresses (c.parent.elim [] tables)
        (c.resolve (Context.following (p.decls.take i))).methods starts ∧
      starts.length = (c.resolve (Context.following (p.decls.take i))).methods.length ∧
      ∀ n start, starts[n]? = some start →
        ∃ body, bodies[p.resolve.program.bodyIndex i n]? = some body ∧
          body.head? = some (start, ⟨.copyFp, none⟩) := by
  have resolved := class_resolve listed
  have earlier : ∀ parent, c.parent = some parent →
      ∀ e ∈ p.resolve.program.decls.drop i, e.class? parent = none := by
    intro parent names
    obtain ⟨j, d, before, isClass, rfl, _⟩ := parent_class plain accepted listed names
    exact class?_of_declared plain accepted isClass before
  obtain ⟨slot, starts, found, writes, filled, each, placed⟩ := linked.table_eq
    (quiet_decls plain accepted) resolved
    (class?_of_declared plain accepted listed (Nat.lt_succ_self i)) earlier
  refine ⟨slot, starts, found, writes, filled, each, ?_⟩
  intro n start isStart
  rw [bodyIndex_eq resolved]
  exact placed n start isStart

theorem methodAt?_class (listed : p.decls[i]? = some (.cls c)) (offset : Word) :
    p.resolve.program.methodAt? offset c.name =
      ((c.resolve (Context.following (p.decls.take i))).methods.findIdx?
        fun m => m.offset == offset).map fun n => (i, n) := by
  refine methodAt?_eq (class_resolve listed) ?_ offset
  intro j d isClass same
  obtain ⟨source, isSource, rfl⟩ := class_of_resolved isClass
  exact class_unique plain accepted isSource listed same

/-- The table of a class is in order if the one that it starts from is. -/
theorem tabulates_step (listed : p.decls[i]? = some (.cls c))
    (linked : Decl.AllLinked g labels (fun _ => []) p.resolve.program.decls slots bodies tables)
    (small : (p.membersAt i c).layout.slots true ≤ Word.limit)
    (long : (c.parent.elim [] tables).length =
      ((Context.following (p.decls.take i)).inherited c).layout.slots true)
    (inherits : ∀ k address, (c.parent.elim [] tables)[k]? = some address →
      ∃ parent place, c.parent = some parent ∧
        p.resolve.program.Reaches p.resolve.inheritance (Int32.ofNat k) parent place ∧
        p.resolve.program.EntryAt bodies (Int32.ofNat k) place address) :
    p.resolve.program.Tabulates p.resolve.inheritance bodies c.name
      ((p.membersAt i c).layout.slots true) (tables c.name) := by
  have numbered := (class_numbered plain accepted listed small).numbered
  obtain ⟨_, starts, _, _, filled, each, placed⟩ := table_resolved plain accepted listed linked
  have length : (tables c.name).length = (p.membersAt i c).layout.slots true := by
    rw [filled]
    exact numbered.length_fill small long each
  refine ⟨length, ?_⟩
  intro k address found
  have inside : k < Word.limit := by
    have := (List.getElem?_eq_some_iff.mp found).1
    omega
  rw [filled] at found
  -- The entry is that of a method of the class itself, or it is the parent's.
  have own := methodAt?_class plain accepted listed (Int32.ofNat k)
  cases search : (c.resolve (Context.following (p.decls.take i))).methods.findIdx?
      fun m => m.offset == Int32.ofNat k with
  | some n =>
    rw [search] at own
    obtain ⟨bound, here, _⟩ := List.findIdx?_eq_some_iff_getElem.mp search
    have inClass := List.getElem?_eq_getElem bound
    have offset := beq_iff_eq.mp here
    rw [numbered.fill_own small long each inClass offset inside] at found
    obtain ⟨body, isBody, opens⟩ := placed n address found
    have resolved := class_resolve listed
    exact ⟨(i, n), reaches_own own, _, _, body, resolved, inClass, offset,
      getElem?_bodyIndex resolved inClass, isBody, opens⟩
  | none =>
    rw [search] at own
    have elsewhere : ∀ m ∈ (c.resolve (Context.following (p.decls.take i))).methods,
        m.offset ≠ Int32.ofNat k := by
      intro m mem same
      simpa [same] using List.findIdx?_eq_none_iff.mp search m mem
    rw [numbered.fill_elsewhere small long elsewhere] at found
    obtain ⟨parent, place, names, reaches, entry⟩ := inherits k address found
    have up := (class_recorded plain accepted listed).2
    exact ⟨place, reaches.inherit (up.trans names) own, entry⟩

theorem tabulates (listed : p.decls[i]? = some (.cls c))
    (linked : Decl.AllLinked g labels (fun _ => []) p.resolve.program.decls slots bodies tables) :
    (p.membersAt i c).layout.slots true ≤ Word.limit →
    p.resolve.program.Tabulates p.resolve.inheritance bodies c.name
      ((p.membersAt i c).layout.slots true) (tables c.name) := by
  refine class_induction plain accepted ?_ ?_ listed
  · intro i c listed names inherited small
    refine tabulates_step plain accepted listed linked small ?_ ?_
    · rw [names, inherited]
      rfl
    · intro k address found
      rw [names] at found
      cases found
  · intro i c j d listed isClass _ names inherited ih small
    have below := slots_inherited_le plain listed
    rw [inherited] at below
    have parent := ih (Nat.le_trans below small)
    refine tabulates_step plain accepted listed linked small ?_ ?_
    · rw [names, inherited]
      exact parent.length
    · intro k address found
      rw [names] at found
      obtain ⟨place, reaches, entry⟩ := parent.entries k address found
      exact ⟨d.name, place, names, reaches, entry⟩

end

theorem Tabulates.nodup {p : Program} {h : Inheritance} {bodies : List Listing} {cls : String}
    {count : Nat} {table : List Nat} (tabulates : p.Tabulates h bodies cls count table)
    (sorted : bodies.flatten.Pairwise fun one other => one.1 < other.1)
    (small : count ≤ Word.limit) : table.Nodup := by
  have long := tabulates.length
  rw [List.nodup_iff_getElem?_ne_getElem?]
  intro k k' before bound same
  have found := List.getElem?_eq_getElem (Nat.lt_trans before bound)
  obtain ⟨_, _, entry⟩ := tabulates.entries k _ found
  obtain ⟨_, _, entry'⟩ := tabulates.entries k' _ (same.symm.trans found)
  have := Word.ofNat_inj (by omega) (by omega) (entry.offset_eq sorted entry')
  omega

section

variable {names : List String} {name : String} {g : Word} {labels : Labels}
  {slots bodies : List Listing} {tables : Tables} (distinct : names.Nodup)
  (listed : names[Word.limit]? = some name)
  (linked : Decl.AllLinked g labels (fun _ => []) (redeclaring names name true).resolve.program.decls
    slots bodies tables)

include distinct listed linked

end

end Program

end ObjectLang
