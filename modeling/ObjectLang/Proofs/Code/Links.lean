import Mathlib.Logic.Function.Basic
import ObjectLang.Proofs.Code.Listing

/-!
Addresses of routines. What a declaration of a function pushes is the address of the first
instruction of that function's segment, and what a declaration of a class writes is a dispatch table
made of the addresses of methods' segments.
-/
namespace ObjectLang

open Symbolic Lower

abbrev Listing := List (Nat × Instr)

abbrev Tables := String → List Nat

def fillAddresses (table : List Nat) (methods : List Method) (starts : List Nat) : List Nat :=
  (methods.zip starts).foldl (fun table entry => fillSlot table entry.1.offset entry.2) table

def Instr.pushing (address : Nat) : Instr := ⟨.push, some (Int32.ofNat address)⟩

def Instr.writing (table : List Nat) : List Instr :=
  ⟨.loadHp, none⟩ :: table.flatMap fun address =>
    pushing address :: Sequence.heapStore.map (link {})

section Linked

variable (g : Word) (labels : Labels)

inductive Framed (opening closing : List Symbolic) (slots : List Listing) (result : Expr)
    (start : Nat) : Listing → Prop
  | intro {first last a b c s t} (value : Yields (result.code g) s c t) :
      Framed opening closing slots result start
        (Code.listing labels start (onLine first opening) ++ slots.flatten ++
          Code.listing labels a c ++ Code.listing labels b (onLine last closing))

namespace Decl

mutual

/-- A declaration with the dispatch tables before it, the code that fills its slot, the segments of
the routines inside it, and the dispatch tables after it. -/
inductive Linked : Tables → Decl → Listing → List Listing → Tables → Prop
  | var {tables d a c s t} (value : Yields (d.init.code g) s c t) :
      Linked tables (.var d) (Code.listing labels a c) [] tables
  | fn {tables r a segs start tables'} (routine : RoutineLinked tables r segs start tables') :
      Linked tables (.fn r) [(a, .pushing start)] segs tables'
  | cls {tables c slot table starts segs tables'}
      (filled : table = fillAddresses (c.parent.elim [] tables) c.methods starts)
      (writes : slot.map Prod.snd = Instr.writing table)
      (methods :
        MethodsLinked (Function.update tables c.name table) c.methods starts segs tables') :
      Linked tables (.cls c) slot segs tables'

/-- The last segment is that of the routine itself, and the number is its start. -/
inductive RoutineLinked : Tables → Routine → List Listing → Nat → Tables → Prop
  | intro {tables r slots inner own start tables'}
      (locals : AllLinked tables r.locals slots inner tables')
      (framed : Framed g labels Routine.prologue
        (Routine.epilogue r.params.length r.locals.length) slots r.body start own) :
      RoutineLinked tables r (inner ++ [own]) start tables'

inductive MethodsLinked : Tables → List Method → List Nat → List Listing → Tables → Prop
  | nil {tables} : MethodsLinked tables [] [] [] tables
  | cons {tables m segs start mid methods starts rest tables'}
      (head : RoutineLinked tables m.routine segs start mid)
      (tail : MethodsLinked mid methods starts rest tables') :
      MethodsLinked tables (m :: methods) (start :: starts) (segs ++ rest) tables'

inductive AllLinked : Tables → List Decl → List Listing → List Listing → Tables → Prop
  | nil {tables} : AllLinked tables [] [] [] tables
  | cons {tables d slot segs mid ds slots rest tables'}
      (head : Linked tables d slot segs mid) (tail : AllLinked mid ds slots rest tables') :
      AllLinked tables (d :: ds) (slot :: slots) (segs ++ rest) tables'

end

end Decl

end Linked

theorem Framed.head? {g : Word} {labels : Labels} {closing : List Symbolic} {slots : List Listing}
    {result : Expr} {start : Nat} {seg : Listing}
    (framed : Framed g labels Routine.prologue closing slots result start seg) :
    seg.head? = some (start, ⟨.copyFp, none⟩) := by
  cases framed
  rfl

def Labels.addressOf (labels : Labels) (l : Label) : Nat := (labels.address? l).getD 0

theorem Labels.addressOf_eq {labels : Labels} {l : Label} {address : Nat}
    (bound : labels.address? l = some address) : labels.addressOf l = address := by
  rw [addressOf, bound]
  rfl

theorem map_fillSlot {α β : Type} (f : α → β) (table : List α) (offset : Word) (entry : α) :
    (fillSlot table offset entry).map f = fillSlot (table.map f) offset (f entry) := by
  unfold fillSlot
  split
  · rw [List.length_map]
    split
    · exact List.map_set
    · exact List.map_append
  · exact List.map_append

def Labels.entries (labels : Labels) (first : Nat) : List Method → List Nat
  | [] => []
  | _ :: methods => labels.addressOf ⟨first⟩ :: entries labels (first + 1) methods

theorem map_fillTable (labels : Labels) (table : List Label) (first : Nat)
    (methods : List Method) :
    (fillTable table first methods).map labels.addressOf =
      fillAddresses (table.map labels.addressOf) methods (labels.entries first methods) := by
  induction methods generalizing table first with
  | nil => rfl
  | cons m methods ih =>
    rw [fillTable, ih, map_fillSlot]
    rfl

def Supply.tables (labels : Labels) (s : Supply) : Tables :=
  fun name => ((s.dispatch.find? name).getD []).map labels.addressOf

theorem Supply.tables_eq {labels : Labels} {s t : Supply} (same : t.dispatch = s.dispatch) :
    t.tables labels = s.tables labels := by
  unfold tables
  rw [same]

theorem Decl.tables_methodSupply (labels : Labels) (s : Supply) (c : ClassDecl) :
    (methodSupply s c).tables labels =
      Function.update (s.tables labels) c.name ((tableOf s c).map labels.addressOf) := by
  funext name
  by_cases same : name = c.name
  · subst same
    simp [Supply.tables, methodSupply]
  · rw [Function.update_of_ne same]
    simp [Supply.tables, methodSupply, Table.find?_insert_of_ne _ same]

theorem Decl.map_tableOf (labels : Labels) (s : Supply) (c : ClassDecl) :
    (tableOf s c).map labels.addressOf =
      fillAddresses (c.parent.elim [] (s.tables labels)) c.methods
        (labels.entries s.next c.methods) := by
  rw [tableOf, map_fillTable]
  cases c.parent <;> rfl

namespace Code

variable {words : Array Word} {labels : Labels} {address : Nat}

theorem mem_refs_instr {i : Symbolic} {line : Line} {c : Code} {l : Label} :
    l ∈ refs (.instr i line :: c) ↔ i.label? = some l ∨ l ∈ refs c := by
  simp [refs, Item.ref?]

theorem At.bound {c : Code} {l : Label} (placed : At words labels address c) (mem : l ∈ c.refs) :
    labels.address? l = some (labels.addressOf l) := by
  induction c generalizing address with
  | nil => simp at mem
  | cons item c ih =>
    cases item with
    | mark other => exact ih placed.2 mem
    | instr i line =>
      obtain ⟨⟨_, operand⟩, rest⟩ := placed
      rcases mem_refs_instr.mp mem with own | mem
      · unfold Symbolic.label? at own
        split at own
        · next found =>
          cases own
          simp only [found] at operand
          obtain ⟨target, bound, _⟩ := operand
          rw [Labels.addressOf_eq bound, bound]
        · cases own
      · exact ih rest mem

theorem link_pushLabel {l : Label} (bound : labels.address? l = some (labels.addressOf l)) :
    (pushLabel l).link labels = .pushing (labels.addressOf l) := by
  simp [link, pushLabel, Instr.pushing, bound]

theorem instrs_onLine (labels : Labels) (address : Nat) (line : Line) (code : List Symbolic) :
    (listing labels address (onLine line code)).map Prod.snd = code.map (link labels) := by
  induction code generalizing address with
  | nil => rfl
  | cons i code ih => exact congrArg _ (ih _)

theorem instrs_tableCode {line : Line} {table : List Label}
    (placed : At words labels address (onLine line (tableCode table))) :
    (listing labels address (onLine line (tableCode table))).map Prod.snd =
      Instr.writing (table.map labels.addressOf) := by
  have bound : ∀ l ∈ table, labels.address? l = some (labels.addressOf l) := by
    intro l mem
    rw [← refs_tableCode line table] at mem
    exact placed.bound mem
  rw [instrs_onLine, tableCode, List.map_cons, List.map_flatMap, Instr.writing,
    List.flatMap_map]
  refine congrArg _ (List.flatMap_congr ?_)
  intro l mem
  rw [List.map_cons, link_pushLabel (bound l mem)]
  rfl

end Code

namespace Decl

variable {g : Word} {words : Array Word} {labels : Labels} {tables tables' : Tables} {a b : Nat}

theorem linked_fn {r : Routine} {entry : Label} {segs : List Listing}
    (routine : RoutineLinked g labels tables r segs (labels.addressOf entry) tables')
    (placed : Code.At words labels a (onLine r.line [pushLabel entry])) :
    Linked g labels tables (.fn r) (Code.listing labels a (onLine r.line [pushLabel entry])) segs
      tables' := by
  have bound := placed.bound (l := entry) (by simp)
  have shown : Code.listing labels a (onLine r.line [pushLabel entry]) =
      [(a, .pushing (labels.addressOf entry))] := by
    rw [← Code.link_pushLabel bound]
    rfl
  rw [shown]
  exact .fn routine

theorem routineLinked_own {r : Routine} {entry : Label} {inline result : Code} {s t : Supply}
    {slots segs : List Listing} (locals : AllLinked g labels tables r.locals slots segs tables')
    (shown : slots.flatten =
      Code.listing labels (a + Code.width (onLine r.line Routine.prologue)) inline)
    (value : Yields (r.body.code g) s result t)
    (placed : Code.At words labels a (routineItems entry r inline result)) :
    RoutineLinked g labels tables r
      (segs ++ [Code.listing labels a (routineItems entry r inline result)])
      (labels.addressOf entry) tables' := by
  have start : labels.addressOf entry = a := Labels.addressOf_eq placed.1
  have own : Code.listing labels a (routineItems entry r inline result) =
      Code.listing labels a (onLine r.line Routine.prologue) ++ slots.flatten ++
        Code.listing labels (a + Code.width (onLine r.line Routine.prologue ++ inline)) result ++
        Code.listing labels (a + Code.width (onLine r.line Routine.prologue ++ inline ++ result))
          (onLine r.body.endLine (Routine.epilogue r.params.length r.locals.length)) := by
    rw [shown]
    simp [routineItems, Nat.add_assoc]
  rw [own, start]
  exact .intro locals (.intro value)

mutual

theorem linked : (d : Decl) → ∀ {s t : Supply} {f : Fragment}, Yields (d.code g) s f t →
    ∀ a b, Code.At words labels a f.inline → Code.At words labels b f.bodies.flatten →
      Linked g labels (s.tables labels) d (Code.listing labels a f.inline)
        (Code.listings labels b f.bodies) (t.tables labels)
  | .var decl => by
    intro lowered a b _ _
    obtain ⟨c, value, rfl⟩ := yields_var.mp lowered
    rw [Supply.tables_eq (Expr.enclosed _ value).dispatch]
    exact .var value
  | .fn routine => by
    intro lowered a b inPlace placed
    obtain ⟨bodies, body, rfl⟩ := yields_fn.mp lowered
    exact linked_fn (linkedRoutine routine body b placed) inPlace
  | .cls ⟨line, name, parent, fields, methods, binding, parentBinding⟩ => by
    intro lowered a b inPlace placed
    obtain ⟨bodies, inner, rfl⟩ := yields_cls.mp lowered
    have linked := linkedMethods methods inner b placed
    rw [tables_methodSupply] at linked
    exact .cls (map_tableOf labels _ _) (Code.instrs_tableCode inPlace) linked

theorem linkedRoutine : (r : Routine) → ∀ {entry : Label} {s t : Supply} {bodies : List Code},
    Yields (routineCode g entry r) s bodies t →
    ∀ b, Code.At words labels b bodies.flatten →
      RoutineLinked g labels (s.tables labels) r (Code.listings labels b bodies)
        (labels.addressOf entry) (t.tables labels)
  | ⟨line, name, ret, params, locals, body⟩ => by
    intro lowered b placed
    obtain ⟨inner, result, u, first, second, rfl⟩ := yields_routineCode.mp lowered
    rw [List.flatten_append, List.flatten_singleton, Code.at_append] at placed
    have own := placed.2
    simp only [routineItems, List.append_assoc, List.singleton_append, Code.at_append,
      Code.width_mark] at own
    obtain ⟨slots, shown, locals⟩ := linkedAll locals first _ b own.2.1 placed.1
    rw [Code.listings_append, Supply.tables_eq (Expr.enclosed _ second).dispatch]
    exact routineLinked_own locals shown second placed.2

theorem linkedMethods : (methods : List Method) →
    ∀ {first : Nat} {s t : Supply} {bodies : List Code},
    Yields (methodsCode g first methods) s bodies t →
    ∀ b, Code.At words labels b bodies.flatten →
      MethodsLinked g labels (s.tables labels) methods (labels.entries first methods)
        (Code.listings labels b bodies) (t.tables labels)
  | [] => by
    intro lowered b _
    obtain ⟨rfl, rfl⟩ := yields_methodsCode_nil.mp lowered
    exact .nil
  | ⟨routine, offset⟩ :: methods => by
    intro lowered b placed
    obtain ⟨head, tail, u, one, others, rfl⟩ := yields_methodsCode_cons.mp lowered
    rw [List.flatten_append, Code.at_append] at placed
    rw [Code.listings_append]
    exact .cons (linkedRoutine routine one b placed.1) (linkedMethods methods others _ placed.2)

theorem linkedAll : (ds : List Decl) → ∀ {s t : Supply} {f : Fragment},
    Yields (allCode g ds) s f t →
    ∀ a b, Code.At words labels a f.inline → Code.At words labels b f.bodies.flatten →
      ∃ slots, slots.flatten = Code.listing labels a f.inline ∧
        AllLinked g labels (s.tables labels) ds slots (Code.listings labels b f.bodies)
          (t.tables labels)
  | [] => by
    intro lowered a b _ _
    obtain ⟨rfl, rfl⟩ := yields_allCode_nil.mp lowered
    exact ⟨[], rfl, .nil⟩
  | d :: ds => by
    intro lowered a b inPlace placed
    obtain ⟨head, tail, u, one, others, rfl⟩ := yields_allCode_cons.mp lowered
    rw [Code.at_append] at inPlace
    rw [List.flatten_append, Code.at_append] at placed
    obtain ⟨slots, shown, rest⟩ := linkedAll ds others _ _ inPlace.2 placed.2
    refine ⟨Code.listing labels a head.inline :: slots, ?_, ?_⟩
    · rw [List.flatten_cons, shown, Code.listing_append]
    · rw [Code.listings_append]
      exact .cons (linked d one a b inPlace.1 placed.1) rest

end

end Decl

end ObjectLang
