import ObjectLang.Proofs.Classes.Hierarchy
import ObjectLang.Proofs.Machine.Sequences
import ObjectLang.Proofs.Runtime.History

/-!
What holds whenever a well-typed program runs. Every word has a type: an integer is any word, a
reference is `null` or the address of an object of the class or of one below it, and anything else
is `null`, because functions are not values. Each event of a history has left its word on the stack,
at the place where resolution expects it; objects and dispatch tables are in the heap.
-/
namespace ObjectLang

theorem Ty.eq_method {ty : Ty} {sig : Signature} (kind : ty.isMethod = true)
    (callable : ty.signature? = some sig) : ty = .method sig := by
  cases ty with
  | method other =>
    cases callable
    rfl
  | _ => cases kind

structure Loaded where
  machine : Machine
  labels : Labels
  final : Context
  linked : machine.Linked labels
  sound : final.Hierarchical final.inheritance
  sized : ∀ {name layout table}, final.HasClass name layout table → layout.Fits
  /-- Counted down from `null`, the offset of a field is still no address. -/
  narrow : ∀ {name layout table}, final.HasClass name layout table →
    layout.fields.length < Word.limit
  /-- Programs with classes are run with the check for collisions. -/
  checked : ∀ {name layout table}, final.HasClass name layout table →
    machine.config.flags.checkCollision = true

namespace Loaded

def base (L : Loaded) : Word := Int32.ofNat L.machine.config.memorySize

abbrev inheritance (L : Loaded) : Inheritance := L.final.inheritance

def Classes (L : Loaded) : Prop := ∃ name layout table, L.final.HasClass name layout table

def Hosts (L : Loaded) (bodies : List Code) : Prop :=
  ∀ c ∈ bodies, ∃ address, Code.At L.machine.code L.labels address c

structure ReadyAt (L : Loaded) (ctx : Context) (r : Routine) (label : Label) : Prop where
  code : ∃ s bodies t,
    Lower.Yields (Decl.routineCode L.base label (Decl.resolveRoutine ctx r)) s bodies t ∧
      L.Hosts bodies
  typed : Decl.RoutineTyped L.inheritance ctx r
  plain : Decl.Plain (Decl.routineDeclaredTypes r)

def Ready (L : Loaded) (ctx : Context) (r : Routine) (entry : Word) : Prop :=
  ∃ label address, L.ReadyAt ctx r label ∧ L.labels.address? label = some address ∧
    entry = Int32.ofNat address

/-- At the label is the code of a method with this signature, from the class or from one above it
that the history declares. -/
def ImplementsAt (L : Loaded) (H : History) (cls : String) (sig : Signature) (label : Label) : Prop :=
  ∃ (d : ClassDecl) (u : Word) (K : History) (r : Routine), (.cls d u :: K) <:+ H ∧
    L.inheritance.isAncestor d.name cls = true ∧ r.signature = sig ∧
    L.ReadyAt (K.context.inClass d) r label

def Implements (L : Loaded) (H : History) (cls : String) (sig : Signature) (entry : Word) : Prop :=
  ∃ label address, L.ImplementsAt H cls sig label ∧ L.labels.address? label = some address ∧
    entry = Int32.ofNat address

end Loaded

/-- The heap, with what it holds: the objects by address. The class of an object is a history that
ends with its declaration. -/
structure World where
  heap : List Word
  objects : Nat → Option History

namespace World

structure Extends (V W : World) : Prop where
  heap : V.heap <+: W.heap
  objects : ∀ i K, V.objects i = some K → W.objects i = some K

def Refers (W : World) (L : Loaded) (cls : String) (w : Word) : Prop :=
  ∃ i c t H, w = Int32.ofNat i ∧ W.objects i = some (.cls c t :: H) ∧
    L.inheritance.isAncestor cls c.name = true

def HasTy (W : World) (L : Loaded) : Ty → Word → Prop
  | .int, _ | .bool, _ => True
  | .ref cls, w => w = -1 ∨ W.Refers L cls w
  | _, w => w = -1

def Dispatches (W : World) (L : Loaded) (c : ClassDecl) (table : Word) (H : History) : Prop :=
  ∃ start, table = Int32.ofNat start ∧ ∀ name b sig,
    (H.context.members c).table.find? name = some b → b.ty = .method sig →
      ∃ i entry, Word.index? b.offset = some i ∧ W.heap[start + i]? = some entry ∧
        L.Implements (.cls c table :: H) c.name sig entry

/-- Every object has the table of its class at its address, and below it its fields. -/
def Sound (W : World) (L : Loaded) (G : History) : Prop :=
  ∀ i K, W.objects i = some K → ∃ (c : ClassDecl) (t : Word) (H : History),
    K = .cls c t :: H ∧ K <:+ G ∧ W.heap[i]? = some t ∧
      ∀ j ty, (H.context.members c).layout.fields[j]? = some ty →
        ∃ k w, i = k + j + 1 ∧ W.heap[k]? = some w ∧ W.HasTy L ty w

variable {V W : World} {L : Loaded}

theorem Extends.refl (W : World) : W.Extends W :=
  ⟨List.prefix_refl _, fun _ _ found => found⟩

theorem Extends.trans {U : World} (first : U.Extends V) (second : V.Extends W) : U.Extends W :=
  ⟨first.heap.trans second.heap, fun i K found => second.objects i K (first.objects i K found)⟩

theorem Extends.read (grows : V.Extends W) {i : Nat} {w : Word} (found : V.heap[i]? = some w) :
    W.heap[i]? = some w := by
  obtain ⟨more, same⟩ := grows.heap
  obtain ⟨bound, _⟩ := List.getElem?_eq_some_iff.mp found
  rw [← same, List.getElem?_append_left bound, found]

theorem Refers.extend {cls : String} {w : Word} (refers : V.Refers L cls w)
    (grows : V.Extends W) : W.Refers L cls w := by
  obtain ⟨i, c, t, H, place, found, above⟩ := refers
  exact ⟨i, c, t, H, place, grows.objects i _ found, above⟩

theorem HasTy.extend {ty : Ty} {w : Word} (typed : V.HasTy L ty w) (grows : V.Extends W) :
    W.HasTy L ty w := by
  cases ty with
  | ref cls => exact typed.imp_right fun refers => refers.extend grows
  | _ => exact typed

theorem hasTy_null (W : World) (L : Loaded) (ty : Ty) : W.HasTy L ty (-1) := by
  cases ty with
  | ref cls => exact .inl rfl
  | int | bool => trivial
  | _ => exact rfl

/-- Functions are not values: what has a function type is `null`. -/
theorem HasTy.null_of_callable {ty : Ty} {sig : Signature} {w : Word} (typed : W.HasTy L ty w)
    (callable : ty.signature? = some sig) : w = -1 := by
  cases ty with
  | arrow | method => exact typed
  | _ => cases callable

theorem HasTy.sub {a b : Ty} {w : Word} (typed : W.HasTy L a w)
    (sub : a.subtype L.inheritance b = true) : W.HasTy L b w := by
  cases a with
  | null =>
    have null : w = -1 := typed
    exact null ▸ hasTy_null W L b
  | ref cls =>
    cases b with
    | ref other =>
      rcases typed with null | ⟨i, c, t, H, place, found, above⟩
      · exact .inl null
      · rw [Ty.subtype] at sub
        exact .inr ⟨i, c, t, H, place, found, Inheritance.isAncestor_trans sub above⟩
    | _ => simp [Ty.subtype] at sub
  | incomplete => simp [Ty.subtype] at sub
  | int | bool | arrow | method | cls =>
    cases b with
    | int | bool => trivial
    | null | ref | incomplete => simp [Ty.subtype] at sub
    | _ => first | exact typed | simp [Ty.subtype] at sub

theorem hasTy_supertypes {as bs : List Ty} {values : List Word} (count : as.length = bs.length)
    (above : Ty.supertypes L.inheritance as bs = true)
    (typed : List.Forall₂ (W.HasTy L) bs values) : List.Forall₂ (W.HasTy L) as values := by
  induction typed generalizing as with
  | nil =>
    cases as with
    | nil => exact .nil
    | cons => cases count
  | cons head _ ih =>
    cases as with
    | nil => cases count
    | cons a as =>
      simp only [Ty.supertypes, Bool.and_eq_true, Ty.supertype_eq] at above
      exact .cons (head.sub above.1) (ih (Nat.succ.inj count) above.2)

theorem hasTy_params {r s : Signature} {values : List Word}
    (sub : r.subtype L.inheritance s = true) (typed : List.Forall₂ (W.HasTy L) s.params values) :
    List.Forall₂ (W.HasTy L) r.params values := by
  simp only [Signature.subtype, Bool.and_eq_true, beq_iff_eq] at sub
  exact hasTy_supertypes sub.1.1 sub.2 typed

theorem HasTy.join {a b result : Ty} {w : Word} (joined : a.join L.inheritance b = some result)
    (typed : W.HasTy L a w ∨ W.HasTy L b w) : W.HasTy L result w := by
  unfold Ty.join at joined
  split at joined
  · cases joined
  · split at joined
    · rename_i same
      cases joined
      exact typed.elim id fun typed => same ▸ typed
    · split at joined
      · cases joined
        exact typed.elim (fun null => (show w = -1 from null) ▸ hasTy_null W L _) id
      · cases joined
        exact typed.elim id fun null => (show w = -1 from null) ▸ hasTy_null W L _
      · have below := List.find?_some joined
        obtain ⟨above, isAbove, rfl⟩ := List.mem_map.mp (List.mem_of_find?_eq_some joined)
        rcases typed with typed | typed
        · refine typed.sub ?_
          simpa [Ty.subtype, Inheritance.isAncestor] using isAbove
        · exact typed.sub below
      · cases joined
        trivial
      · cases joined
        trivial
      · cases joined

theorem Dispatches.extend {c : ClassDecl} {t : Word} {H : History}
    (dispatches : V.Dispatches L c t H) (grows : V.Extends W) : W.Dispatches L c t H := by
  obtain ⟨start, place, entries⟩ := dispatches
  refine ⟨start, place, ?_⟩
  intro name b sig found shape
  obtain ⟨i, entry, named, stored, implements⟩ := entries name b sig found shape
  exact ⟨i, entry, named, grows.read stored, implements⟩

end World

/-- Every event of the history has left its word where it is looked for. `G` is what the program
itself has declared so far, at least as far as its last class. -/
inductive Holds (L : Loaded) (G : History) (W : World) (stack : List Word) : History → Prop
  | nil : Holds L G W stack []
  | var {H : History} {name ty w} (before : Holds L G W stack H)
      (free : H.context.scopes.declaresHere name = false) (plain : ty.isPlain = true)
      (slot : L.machine.Slot stack (H.frame L.base + H.context.nextOffset) w)
      (typed : W.HasTy L ty w) : Holds L G W stack (.var name ty w :: H)
  | fn {H : History} {r entry} (before : Holds L G W stack H)
      (free : H.context.scopes.declaresHere r.name = false)
      (slot : L.machine.Slot stack (H.frame L.base + H.context.nextOffset) entry)
      (ready : L.Ready (H.context.declare r.name (.arrow r.signature)) r entry) :
      Holds L G W stack (.fn r entry :: H)
  | cls {H : History} {c t} (before : Holds L G W stack H)
      (free : H.context.scopes.declaresHere c.name = false)
      (sound : H.context.Hierarchical L.inheritance)
      (known : L.final.HasClass c.name (H.context.members c).layout (H.context.members c).table)
      (listed : (.cls c t :: H) <:+ G)
      (slot : L.machine.Slot stack (L.base + H.context.nextOffset) t)
      (dispatches : W.Dispatches L c t H) : Holds L G W stack (.cls c t :: H)
  | enter {H : History} {frame} (before : Holds L G W stack H)
      (link : L.machine.Slot stack frame (H.frame L.base)) : Holds L G W stack (.enter frame :: H)
  | param {H : History} {p offset w} (before : Holds L G W stack H)
      (free : H.context.scopes.declaresHere p.name = false) (plain : p.ty.isPlain = true)
      (slot : L.machine.Slot stack (H.frame L.base + offset) w) (typed : W.HasTy L p.ty w) :
      Holds L G W stack (.param p offset w :: H)
  | self {H : History} {c t a} (before : Holds L G W stack (.cls c t :: H))
      (object : W.Refers L c.name a) :
      Holds L G W stack (.self (H.context.members c).table a :: .cls c t :: H)

namespace Holds

variable {L : Loaded} {G G' H K : History} {V W : World} {stack : List Word}

/-- What is pushed, allocated and declared later leaves everything in place. -/
theorem extend (holds : Holds L G V stack H) (grows : V.Extends W) (further : G <:+ G')
    (above : List Word) : Holds L G' W (above ++ stack) H := by
  induction holds with
  | nil => exact .nil
  | var _ free plain slot typed ih =>
    exact .var ih free plain (slot.append above) (typed.extend grows)
  | fn _ free slot ready ih => exact .fn ih free (slot.append above) ready
  | cls _ free sound known listed slot dispatches ih =>
    exact .cls ih free sound known (listed.trans further) (slot.append above)
      (dispatches.extend grows)
  | enter _ link ih => exact .enter ih (link.append above)
  | param _ free plain slot typed ih =>
    exact .param ih free plain (slot.append above) (typed.extend grows)
  | self _ object ih => exact .self ih (object.extend grows)

theorem tail {event : Event} (holds : Holds L G W stack (event :: H)) : Holds L G W stack H := by
  cases holds <;> assumption

theorem suffix (holds : Holds L G W stack H) (part : K <:+ H) : Holds L G W stack K := by
  induction H with
  | nil =>
    rw [List.suffix_nil] at part
    exact part ▸ holds
  | cons event H ih =>
    rcases List.suffix_cons_iff.mp part with rfl | part
    · exact holds
    · exact ih holds.tail part

theorem level_cls {c : ClassDecl} {t : Word} (holds : Holds L G W stack (.cls c t :: H)) :
    (History.context (.cls c t :: H)).scopes.level = 0 := by
  cases holds with
  | cls before free sound =>
    obtain ⟨table, single⟩ := sound.global
    have level : (History.context (.cls c t :: H)).scopes.level = H.context.scopes.level :=
      Scopes.level_declare
    rw [level, Scopes.level, single]
    rfl

theorem known {c : ClassDecl} {t : Word} (holds : Holds L G W stack H)
    (part : (.cls c t :: K) <:+ H) :
    L.final.HasClass c.name (K.context.members c).layout (K.context.members c).table := by
  cases holds.suffix part with
  | cls before free sound known listed slot dispatches => exact known

theorem receiver {c : ClassDecl} {t a : Word} {members : Table Binding}
    (holds : Holds L G W stack (.self members a :: .cls c t :: H)) : W.Refers L c.name a := by
  cases holds with
  | self before object => exact object

theorem class_of_find (holds : Holds L G W stack H) {cls : String} {table : Table Binding}
    (found : H.context.classes.find? cls = some table) :
    ∃ layout, L.final.HasClass cls layout table := by
  induction holds with
  | nil => cases found
  | var _ _ _ _ _ ih | fn _ _ _ _ ih | enter _ _ ih | param _ _ _ _ _ ih | self _ _ ih =>
    exact ih found
  | @cls H c t before free sound known listed slot dispatches ih =>
    rcases Context.find?_declareClass found with old | ⟨rfl, rfl⟩
    · exact ih old
    · exact ⟨_, known⟩

theorem class_of_lookup (holds : Holds L G W stack H) {cls : String} {b : Binding} {layout : Layout}
    (found : H.context.scopes.lookupGlobal cls = some b) (shape : b.ty = .cls layout) :
    ∃ (c : ClassDecl) (t : Word) (K : History), (.cls c t :: K) <:+ H ∧ c.name = cls ∧
      b = K.context.classBinding c := by
  induction holds with
  | nil => cases found
  | @var H name ty w before free plain slot typed ih =>
    rcases Scopes.lookupGlobal_of_declare found with found | ⟨_, rfl⟩
    · obtain ⟨c, t, K, part, rest⟩ := ih found
      exact ⟨c, t, K, part.trans (List.suffix_cons _ _), rest⟩
    · rw [show ty = .cls layout from shape] at plain
      cases plain
  | @fn H r entry before free slot ready ih =>
    rcases Scopes.lookupGlobal_of_declare found with found | ⟨_, rfl⟩
    · obtain ⟨c, t, K, part, rest⟩ := ih found
      exact ⟨c, t, K, part.trans (List.suffix_cons _ _), rest⟩
    · cases shape
  | @param H p offset w before free plain slot typed ih =>
    rcases Scopes.lookupGlobal_of_declare found with found | ⟨_, rfl⟩
    · obtain ⟨c, t, K, part, rest⟩ := ih found
      exact ⟨c, t, K, part.trans (List.suffix_cons _ _), rest⟩
    · rw [show p.ty = .cls layout from shape] at plain
      cases plain
  | @cls H c t before free sound known listed slot dispatches ih =>
    rcases Scopes.lookupGlobal_of_declare found with found | ⟨same, rfl⟩
    · obtain ⟨c, t, K, part, rest⟩ := ih found
      exact ⟨c, t, K, part.trans (List.suffix_cons _ _), rest⟩
    · exact ⟨c, t, H, List.suffix_refl _, same.symm, rfl⟩
  | @enter H frame before link ih =>
    rw [History.context, Event.after, Scopes.lookupGlobal_enter H.tables_ne_nil] at found
    obtain ⟨c, t, K, part, rest⟩ := ih found
    exact ⟨c, t, K, part.trans (List.suffix_cons _ _), rest⟩
  | @self H c t a before object ih =>
    rw [History.context, Event.after, Scopes.lookupGlobal_enter (History.tables_ne_nil _)] at found
    obtain ⟨c, t, K, part, rest⟩ := ih found
    exact ⟨c, t, K, part.trans (List.suffix_cons _ _), rest⟩

end Holds

/-- The frame or object that has the word of a name, as it is reached from the innermost one. -/
structure Place (L : Loaded) (stack : List Word) (H : History) (b : Binding) (frame : Word) :
    Prop where
  inner : b.level ≤ H.context.scopes.level
  fixed : b.level = 0 → frame = L.base
  links : b.level ≠ 0 →
    L.machine.Links stack (H.context.scopes.level - b.level) (H.frame L.base) frame

def Denotes (L : Loaded) (H : History) (name : String) (d : Denotation) : Prop :=
  H.env.lookup name = some d ∨ L.Classes ∧ H.env.lookup name = none

inductive Means (L : Loaded) (W : World) (stack : List Word) (H : History) (name : String)
    (b : Binding) : Prop
  | value {frame w} (place : Place L stack H b frame)
      (slot : L.machine.Slot stack (frame + b.offset) w) (plain : b.ty.isPlain = true)
      (typed : W.HasTy L b.ty w) (meaning : Denotes L H name (.word w))
  | routine {r entry} {K : History} (place : Place L stack H b (K.frame L.base))
      (slot : L.machine.Slot stack (K.frame L.base + b.offset) entry)
      (listed : (.fn r entry :: K) <:+ H) (shape : b.ty = .arrow r.signature)
      (meaning : Denotes L H name (.closure r (.routine r :: K.env)))
  | cls {layout} (shape : b.ty = .cls layout)
  | member {c t a} {K : History} (place : Place L stack H b a)
      (listed : (.self (K.context.members c).table a :: .cls c t :: K) <:+ H)
      (found : (K.context.members c).table.find? name = some b)
      (meaning : H.env.lookup name = none)

section

variable {L : Loaded} {G H K : History} {W : World} {stack : List Word} {name : String}
  {b : Binding} {frame : Word}

theorem Place.here (place : b.level = H.context.scopes.level) :
    Place L stack H b (H.frame L.base) where
  inner := Nat.le_of_eq place
  fixed := fun zero => H.frame_of_level (place.symm.trans zero)
  links := fun _ => by
    rw [place, Nat.sub_self]
    exact .here

theorem Place.later {event : Event} (place : Place L stack H b frame)
    (level : (History.context (event :: H)).scopes.level = H.context.scopes.level)
    (same : History.frame L.base (event :: H) = H.frame L.base) :
    Place L stack (event :: H) b frame where
  inner := by
    rw [level]
    exact place.inner
  fixed := place.fixed
  links := by
    rw [level, same]
    exact place.links

theorem Place.enter {inner : Word} (place : Place L stack H b frame)
    (link : L.machine.Slot stack inner (H.frame L.base)) :
    Place L stack (.enter inner :: H) b frame := by
  have level : (History.context (.enter inner :: H)).scopes.level = H.context.scopes.level + 1 :=
    Scopes.level_enter H.tables_ne_nil _
  have within := place.inner
  refine ⟨by omega, place.fixed, ?_⟩
  intro local'
  rw [level, Nat.succ_sub within]
  exact .out link (place.links local')

theorem Means.later {event : Event} (means : Means L W stack H name b)
    (move : ∀ frame, Place L stack H b frame → Place L stack (event :: H) b frame)
    (seen : (History.env (event :: H)).lookup name = H.env.lookup name ∨
      L.Classes ∧ (History.env (event :: H)).lookup name = none) :
    Means L W stack (event :: H) name b := by
  have denotes (d : Denotation) (meaning : Denotes L H name d) :
      Denotes L (event :: H) name d := by
    rcases seen with same | hidden
    · unfold Denotes
      rwa [same]
    · exact .inr hidden
  cases means with
  | value place slot plain typed meaning =>
    exact .value (move _ place) slot plain typed (denotes _ meaning)
  | routine place slot listed shape meaning =>
    exact .routine (move _ place) slot (listed.trans (List.suffix_cons _ _)) shape
      (denotes _ meaning)
  | cls shape => exact .cls shape
  | member place listed found meaning =>
    refine .member (move _ place) (listed.trans (List.suffix_cons _ _)) found ?_
    exact seen.elim (fun same => same.trans meaning) And.right

/-- Looking a name up at run time finds what resolution says. -/
theorem Holds.lookup (holds : Holds L G W stack H)
    (found : H.context.scopes.lookup name = some b) : Means L W stack H name b := by
  induction holds with
  | nil => cases found
  | @var H other ty w before free plain slot typed ih =>
    rcases Scopes.lookup_declare H.tables_ne_nil free found with ⟨rfl, rfl⟩ | ⟨ne, found⟩
    · exact .value (.later (.here rfl) Scopes.level_declare rfl) slot plain typed
        (.inl (Env.lookup_value _ _ _))
    · exact (ih found).later (fun _ place => place.later Scopes.level_declare rfl)
        (.inl (Env.lookup_of_ne _ ne))
  | @fn H r entry before free slot ready ih =>
    rcases Scopes.lookup_declare H.tables_ne_nil free found with ⟨rfl, rfl⟩ | ⟨ne, found⟩
    · exact .routine (.later (.here rfl) Scopes.level_declare rfl) slot (List.suffix_refl _) rfl
        (.inl (Env.lookup_routine _ _))
    · exact (ih found).later (fun _ place => place.later Scopes.level_declare rfl)
        (.inl (Env.lookup_of_ne _ ne))
  | @param H p offset w before free plain slot typed ih =>
    rcases Scopes.lookup_declare H.tables_ne_nil free found with ⟨rfl, rfl⟩ | ⟨ne, found⟩
    · exact .value (.later (.here rfl) Scopes.level_declare rfl) slot plain typed
        (.inl (Env.lookup_value _ _ _))
    · exact (ih found).later (fun _ place => place.later Scopes.level_declare rfl)
        (.inl (Env.lookup_of_ne _ ne))
  | @cls H c t before free sound known listed slot dispatches ih =>
    rcases Scopes.lookup_declare H.tables_ne_nil free found with ⟨rfl, rfl⟩ | ⟨_, found⟩
    · exact .cls rfl
    · exact (ih found).later (fun _ place => place.later Scopes.level_declare rfl)
        (.inr ⟨⟨_, _, _, known⟩, rfl⟩)
  | @enter H inner before link ih =>
    rw [History.context, Event.after, Scopes.lookup_enter] at found
    exact (ih found).later (fun _ place => place.enter link) (.inl rfl)
  | @self H c t a before object ih =>
    have zero : (History.context (.cls c t :: H)).scopes.level = 0 := before.level_cls
    have level : (History.context (.self (H.context.members c).table a :: .cls c t :: H)).scopes.level
        = 1 := by
      rw [History.context, Event.after, Scopes.level_enter (History.tables_ne_nil _), zero]
    rw [History.context, Event.after, Scopes.lookup_enter] at found
    cases own : (H.context.members c).table.find? name with
    | some b' =>
      rw [own, Option.some_or, Option.some.injEq] at found
      subst found
      have inside : b'.level = 1 := H.level_member name b' own
      exact .member (.here (inside.trans level.symm)) (List.suffix_refl _) own rfl
    | none =>
      rw [own, Option.none_or] at found
      have known := before.known (List.suffix_refl _)
      refine (ih found).later ?_ (.inr ⟨⟨_, _, _, known⟩, rfl⟩)
      intro frame place
      have global : b.level = 0 := by
        have := place.inner
        omega
      exact ⟨by omega, place.fixed, fun inner => absurd global inner⟩

end

end ObjectLang
