import ObjectLang.Proofs.Classes.Numbering
import ObjectLang.Proofs.Code.Links
import ObjectLang.Proofs.Sites

/-!
The dispatch tables that the code of a program writes. Each class puts the starts of its methods
over the table of its parent, and nothing else changes the table of a class, as long as routines
declare no classes. The start of a method is where its body stands among all bodies.
-/
namespace ObjectLang

section Fill

variable {α : Type} {table : List α} {k : Nat}

theorem length_fillSlot (bound : k ≤ table.length) (small : k < Word.limit) (entry : α) :
    (fillSlot table (Int32.ofNat k) entry).length = max table.length (k + 1) := by
  simp only [fillSlot, Word.index?_ofNat small]
  split
  · rw [List.length_set]
    omega
  · rw [List.length_append, List.length_singleton]
    omega

theorem getElem?_fillSlot (bound : k ≤ table.length) (small : k < Word.limit) (entry : α)
    (i : Nat) :
    (fillSlot table (Int32.ofNat k) entry)[i]? = if i = k then some entry else table[i]? := by
  simp only [fillSlot, Word.index?_ofNat small]
  split
  · rename_i inside
    by_cases same : i = k
    · subst same
      simp [inside]
    · rw [if_neg same, List.getElem?_set_ne (Ne.symm same)]
  · have last : k = table.length := by omega
    subst last
    by_cases same : i = table.length
    · simp [same]
    · rw [if_neg same, List.getElem?_append]
      split
      · rfl
      · rw [List.getElem?_eq_none (by simp; omega), List.getElem?_eq_none (by omega)]

end Fill

namespace Method.Numbered

variable {table starts : List Nat} {methods : List Method} {count total : Nat}

theorem length_step {m : Method} {k : Nat} (offset : m.offset = Int32.ofNat k) (bound : k ≤ count)
    (tail : Numbered (max count (k + 1)) methods total) (small : total ≤ Word.limit)
    (long : table.length = count) (start : Nat) :
    (fillSlot table m.offset start).length = max count (k + 1) := by
  have within := tail.le
  rw [offset, length_fillSlot (by omega) (by omega), long]

theorem length_fill (numbered : Numbered count methods total) (small : total ≤ Word.limit)
    (long : table.length = count) (each : starts.length = methods.length) :
    (fillAddresses table methods starts).length = total := by
  induction numbered generalizing table starts with
  | nil => exact long
  | @cons count total k m methods offset bound apart tail ih =>
    obtain _ | ⟨start, starts⟩ := starts
    · simp at each
    · exact ih small (length_step offset bound tail small long start) (Nat.succ.inj each)

theorem fill_elsewhere (numbered : Numbered count methods total) (small : total ≤ Word.limit)
    (long : table.length = count) {i : Nat}
    (elsewhere : ∀ m ∈ methods, m.offset ≠ Int32.ofNat i) :
    (fillAddresses table methods starts)[i]? = table[i]? := by
  induction numbered generalizing table starts with
  | nil => rfl
  | @cons count total k m methods offset bound apart tail ih =>
    obtain _ | ⟨start, starts⟩ := starts
    · rfl
    · have within := tail.le
      have ne : i ≠ k := by
        rintro rfl
        exact elsewhere m List.mem_cons_self offset
      have kept : (fillSlot table m.offset start)[i]? = table[i]? := by
        rw [offset, getElem?_fillSlot (by omega) (by omega), if_neg ne]
      refine (ih small (length_step offset bound tail small long start) ?_).trans kept
      exact fun later mem => elsewhere later (List.mem_cons_of_mem _ mem)

theorem fill_own (numbered : Numbered count methods total) (small : total ≤ Word.limit)
    (long : table.length = count) (each : starts.length = methods.length) {i n : Nat} {m : Method}
    (listed : methods[n]? = some m) (place : m.offset = Int32.ofNat i) (inside : i < Word.limit) :
    (fillAddresses table methods starts)[i]? = starts[n]? := by
  induction numbered generalizing table starts n with
  | nil => simp at listed
  | @cons count total k first methods offset bound apart tail ih =>
    obtain _ | ⟨start, starts⟩ := starts
    · simp at each
    · have within := tail.le
      have grown := length_step offset bound tail small long start
      cases n with
      | zero =>
        cases listed
        have same : i = k := Word.ofNat_inj inside (by omega) (place.symm.trans offset)
        subst same
        refine (tail.fill_elsewhere small grown fun later mem => ?_).trans ?_
        · exact offset ▸ apart later mem
        · rw [offset, getElem?_fillSlot (by omega) (by omega), if_pos rfl]
          rfl
      | succ n => exact ih small grown (Nat.succ.inj each) listed

end Method.Numbered

theorem getElem?_middle {α : Type} {middle : List α} {k : Nat} {a : α} (found : middle[k]? = some a)
    (before after : List α) : (before ++ (middle ++ after))[before.length + k]? = some a := by
  rw [List.getElem?_append_right (Nat.le_add_right _ _), Nat.add_sub_cancel_left,
    List.getElem?_append_left (List.getElem?_eq_some_iff.mp found).1]
  exact found

namespace Decl

/-- The position of the body of a method among the bodies of the routines of its class. The bodies
of the routines inside it come before its own. -/
def bodyIndex : List Method → Nat → Nat
  | [], _ => 0
  | m :: _, 0 => (allRoutines m.routine.locals).length
  | m :: methods, n + 1 => (nestedRoutines m.routine).length + bodyIndex methods n

theorem nestedRoutines_eq (r : Routine) : nestedRoutines r = allRoutines r.locals ++ [r] := by
  cases r
  rfl

theorem methodRoutines_cons (m : Method) (methods : List Method) :
    methodRoutines (m :: methods) = nestedRoutines m.routine ++ methodRoutines methods := by
  cases m
  rfl

theorem routines_cls (c : ClassDecl) : (Decl.cls c).routines = methodRoutines c.methods := by
  cases c
  rfl

theorem length_le_methodRoutines (methods : List Method) :
    methods.length ≤ (methodRoutines methods).length := by
  induction methods with
  | nil => exact Nat.le_refl _
  | cons m methods ih =>
    rw [methodRoutines_cons, nestedRoutines_eq, List.length_append, List.length_append,
      List.length_singleton, List.length_cons]
    omega

theorem length_resolveMethods (ctx : Context) (m : Members) (methods : List Method) :
    (resolveMethods ctx m methods).length = methods.length := by
  induction methods generalizing m with
  | nil => rfl
  | cons method methods ih =>
    cases method
    rw [resolveMethods, List.length_cons, ih, List.length_cons]

theorem allRoutines_append (ds es : List Decl) :
    allRoutines (ds ++ es) = allRoutines ds ++ allRoutines es := by
  induction ds with
  | nil => simp [allRoutines]
  | cons d ds ih => simp [allRoutines, ih]

theorem getElem?_bodyIndex {methods : List Method} {n : Nat} {m : Method}
    (listed : methods[n]? = some m) :
    (methodRoutines methods)[bodyIndex methods n]? = some m.routine := by
  induction methods generalizing n with
  | nil => cases listed
  | cons first methods ih =>
    rw [methodRoutines_cons]
    cases n with
    | zero =>
      cases listed
      rw [bodyIndex, nestedRoutines_eq, List.append_assoc,
        List.getElem?_append_right (Nat.le_refl _)]
      simp
    | succ n =>
      rw [bodyIndex, List.getElem?_append_right (Nat.le_add_right _ _), Nat.add_sub_cancel_left]
      exact ih listed

theorem bodyIndex_inj {methods : List Method} {n n' : Nat} (bound : n < methods.length)
    (bound' : n' < methods.length) (same : bodyIndex methods n = bodyIndex methods n') :
    n = n' := by
  induction methods generalizing n n' with
  | nil => simp at bound
  | cons m methods ih =>
    have longer : (nestedRoutines m.routine).length =
        (allRoutines m.routine.locals).length + 1 := by
      rw [nestedRoutines_eq, List.length_append, List.length_singleton]
    cases n with
    | zero =>
      cases n' with
      | zero => rfl
      | succ n' =>
        simp only [bodyIndex] at same
        omega
    | succ n =>
      cases n' with
      | zero =>
        simp only [bodyIndex] at same
        omega
      | succ n' =>
        simp only [bodyIndex, Nat.add_left_cancel_iff] at same
        exact congrArg Nat.succ
          (ih (Nat.lt_of_succ_lt_succ bound) (Nat.lt_of_succ_lt_succ bound') same)

section Linked

variable {g : Word} {labels : Labels} {tables tables' : Tables}

mutual

theorem length_linked : (d : Decl) → ∀ {tables tables' : Tables} {slot : Listing}
    {segs : List Listing}, Linked g labels tables d slot segs tables' →
      segs.length = d.routines.length
  | .var _ => by
    intro linked
    cases linked
    rfl
  | .fn r => by
    intro linked
    cases linked with
    | fn routine => exact length_routineLinked r routine
  | .cls ⟨_, _, _, _, methods, _, _⟩ => by
    intro linked
    cases linked with
    | cls _ _ each => exact length_methodsLinked methods each

theorem length_routineLinked : (r : Routine) → ∀ {tables tables' : Tables} {segs : List Listing}
    {start : Nat}, RoutineLinked g labels tables r segs start tables' →
      segs.length = (nestedRoutines r).length
  | ⟨line, name, ret, params, locals, body⟩ => by
    intro linked
    cases linked with
    | intro inside framed => simp [nestedRoutines, length_allLinked locals inside]

theorem length_methodsLinked : (methods : List Method) → ∀ {tables tables' : Tables}
    {starts : List Nat} {segs : List Listing},
    MethodsLinked g labels tables methods starts segs tables' →
      segs.length = (methodRoutines methods).length
  | [] => by
    intro linked
    cases linked
    rfl
  | ⟨routine, _⟩ :: methods => by
    intro linked
    cases linked with
    | cons head tail =>
      rw [List.length_append, length_routineLinked routine head, length_methodsLinked methods tail,
        methodRoutines, List.length_append]

theorem length_allLinked : (ds : List Decl) → ∀ {tables tables' : Tables}
    {slots segs : List Listing}, AllLinked g labels tables ds slots segs tables' →
      segs.length = (allRoutines ds).length
  | [] => by
    intro linked
    cases linked
    rfl
  | d :: ds => by
    intro linked
    cases linked with
    | cons head tail =>
      rw [List.length_append, length_linked d head, length_allLinked ds tail, allRoutines,
        List.length_append]

end

theorem MethodsLinked.bodies {methods : List Method} {starts : List Nat} {segs : List Listing}
    (linked : MethodsLinked g labels tables methods starts segs tables') :
    starts.length = methods.length ∧ ∀ n start, starts[n]? = some start →
      ∃ body, segs[bodyIndex methods n]? = some body ∧
        body.head? = some (start, ⟨.copyFp, none⟩) := by
  induction methods generalizing tables starts segs with
  | nil =>
    cases linked
    exact ⟨rfl, fun n start found => by cases found⟩
  | cons m methods ih =>
    obtain _ | ⟨head, tail⟩ := linked
    obtain ⟨each, others⟩ := ih tail
    refine ⟨congrArg Nat.succ each, fun n start found => ?_⟩
    have long := length_routineLinked m.routine head
    cases n with
    | zero =>
      cases found
      obtain ⟨inside, framed⟩ := head
      refine ⟨_, ?_, framed.head?⟩
      rw [bodyIndex, ← length_allLinked _ inside, List.append_assoc,
        List.getElem?_append_right (Nat.le_refl _)]
      simp
    | succ n =>
      obtain ⟨body, listed, starts⟩ := others n start found
      refine ⟨body, ?_, starts⟩
      rw [bodyIndex, ← long, List.getElem?_append_right (Nat.le_add_right _ _),
        Nat.add_sub_cancel_left]
      exact listed

end Linked

end Decl

def Routine.Quiet (g : Word) (labels : Labels) (r : Routine) : Prop :=
  ∀ tables segs start tables', Decl.RoutineLinked g labels tables r segs start tables' →
    tables' = tables

namespace Decl

variable {g : Word} {labels : Labels} {tables tables' : Tables} {name : String}

def Quiet (g : Word) (labels : Labels) : Decl → Prop
  | .var _ => True
  | .fn r => r.Quiet g labels
  | .cls c => ∀ m ∈ c.methods, m.routine.Quiet g labels

theorem MethodsLinked.keeps {methods : List Method} {starts : List Nat} {segs : List Listing}
    (linked : MethodsLinked g labels tables methods starts segs tables')
    (quiet : ∀ m ∈ methods, m.routine.Quiet g labels) : tables' = tables := by
  induction methods generalizing tables starts segs with
  | nil =>
    cases linked
    rfl
  | cons m methods ih =>
    obtain _ | ⟨head, tail⟩ := linked
    rw [ih tail fun later mem => quiet later (List.mem_cons_of_mem _ mem)]
    exact quiet m List.mem_cons_self _ _ _ _ head

theorem Linked.keeps {d : Decl} {slot : Listing} {segs : List Listing}
    (linked : Linked g labels tables d slot segs tables') (quiet : d.Quiet g labels)
    (other : d.class? name = none) : tables' name = tables name := by
  cases linked with
  | var => rfl
  | fn routine => rw [quiet _ _ _ _ routine]
  | cls _ _ methods =>
    rw [methods.keeps quiet]
    refine Function.update_of_ne ?_ _ _
    rintro rfl
    simp [class?] at other

theorem AllLinked.keeps {ds : List Decl} {slots segs : List Listing}
    (linked : AllLinked g labels tables ds slots segs tables') (quiet : ∀ d ∈ ds, d.Quiet g labels)
    (other : ∀ d ∈ ds, d.class? name = none) : tables' name = tables name := by
  induction ds generalizing tables slots segs with
  | nil =>
    cases linked
    rfl
  | cons d ds ih =>
    obtain _ | ⟨head, tail⟩ := linked
    rw [ih tail (fun e mem => quiet e (List.mem_cons_of_mem _ mem))
      fun e mem => other e (List.mem_cons_of_mem _ mem)]
    exact head.keeps (quiet d List.mem_cons_self) (other d List.mem_cons_self)

theorem class?_resolve {d : Decl} (noClass : ∀ c, d ≠ .cls c) (ctx : Context) (name : String) :
    (d.resolve ctx).class? name = none := by
  cases d with
  | var decl => exact class?_resolve_var ctx name decl
  | fn r => rfl
  | cls c => exact absurd rfl (noClass c)

mutual

theorem quiet_resolve : (d : Decl) → (∀ c, d ≠ .cls c) →
    (∀ r ∈ d.routines, ∀ c, .cls c ∉ r.locals) →
      ∀ ctx : Context, (d.resolve ctx).Quiet g labels
  | .var ⟨_, _, _, _⟩, _, _, _ => trivial
  | .fn r, _, flat, ctx => quiet_resolveRoutine r flat (ctx.after (.fn r))
  | .cls c, noClass, _, _ => absurd rfl (noClass c)

theorem quiet_resolveRoutine : (r : Routine) →
    (∀ inner ∈ nestedRoutines r, ∀ c, .cls c ∉ inner.locals) →
      ∀ ctx : Context, (resolveRoutine ctx r).Quiet g labels
  | ⟨line, name, ret, params, locals, body⟩, flat, ctx => by
    intro tables segs start tables' linked
    have noClass := flat _ (List.mem_append_right _ List.mem_cons_self)
    have each := quiet_resolveAll locals noClass
      (fun inner mem => flat inner (List.mem_append_left _ mem)) (ctx.inRoutine params)
    cases linked with
    | intro linked framed =>
      funext name
      exact linked.keeps (fun d mem => (each d mem).1) fun d mem => (each d mem).2 name

theorem quiet_resolveAll : (ds : List Decl) → (∀ c, .cls c ∉ ds) →
    (∀ r ∈ allRoutines ds, ∀ c, .cls c ∉ r.locals) →
      ∀ ctx : Context, ∀ d ∈ resolveAll ctx ds, d.Quiet g labels ∧ ∀ name, d.class? name = none
  | [], _, _, _ => fun _ mem => absurd mem List.not_mem_nil
  | d :: ds, noClass, flat, ctx => by
    intro e mem
    rcases List.mem_cons.mp mem with rfl | mem
    · have first : ∀ c, d ≠ .cls c := fun c same => noClass c (same ▸ List.mem_cons_self)
      exact ⟨quiet_resolve d first (fun r mem => flat r (List.mem_append_left _ mem)) ctx,
        class?_resolve first ctx⟩
    · exact quiet_resolveAll ds (fun c mem => noClass c (List.mem_cons_of_mem _ mem))
        (fun r mem => flat r (List.mem_append_right _ mem)) (ctx.after d) e mem

end

theorem quiet_resolveMethods {methods : List Method}
    (flat : ∀ r ∈ methodRoutines methods, ∀ c, .cls c ∉ r.locals) (ctx : Context) (m : Members) :
    ∀ method ∈ resolveMethods ctx m methods, method.routine.Quiet g labels := by
  induction methods generalizing m with
  | nil => exact fun _ mem => absurd mem List.not_mem_nil
  | cons first methods ih =>
    obtain ⟨routine, offset⟩ := first
    intro method mem
    rcases List.mem_cons.mp mem with rfl | mem
    · exact quiet_resolveRoutine routine (fun r mem => flat r (List.mem_append_left _ mem)) ctx
    · exact ih (fun r mem => flat r (List.mem_append_right _ mem)) _ method mem

theorem AllLinked.split {ds : List Decl} {slots segs : List Listing}
    (linked : AllLinked g labels tables ds slots segs tables') {i : Nat} {d : Decl}
    (listed : ds[i]? = some d) :
    ∃ slot before own after mid mid', slots[i]? = some slot ∧ segs = before ++ own ++ after ∧
      before.length = (allRoutines (ds.take i)).length ∧ Linked g labels mid d slot own mid' ∧
      AllLinked g labels mid' (ds.drop (i + 1)) (slots.drop (i + 1)) after tables' := by
  induction ds generalizing tables slots segs i with
  | nil => cases listed
  | cons e ds ih =>
    obtain _ | @⟨_, _, slot, own, mid, _, slots, rest, _, head, tail⟩ := linked
    cases i with
    | zero =>
      cases listed
      exact ⟨slot, [], own, rest, tables, mid, rfl, rfl, rfl, head, tail⟩
    | succ i =>
      obtain ⟨slot', before, own', after, mid, mid', found, rfl, long, one, others⟩ :=
        ih tail listed
      refine ⟨slot', own ++ before, own', after, mid, mid', found, ?_, ?_, one, others⟩
      · simp only [List.append_assoc]
      · rw [List.length_append, long, length_linked e head, List.take_succ_cons, allRoutines,
          List.length_append]

/-- The table of a class comes from that of its parent, if both classes are declared once and the
parent first. -/
theorem AllLinked.table_eq {ds : List Decl} {slots bodies : List Listing}
    (linked : AllLinked g labels tables ds slots bodies tables')
    (quiet : ∀ d ∈ ds, d.Quiet g labels) {i : Nat} {c : ClassDecl}
    (listed : ds[i]? = some (.cls c)) (once : ∀ d ∈ ds.drop (i + 1), d.class? c.name = none)
    (earlier : ∀ parent, c.parent = some parent → ∀ d ∈ ds.drop i, d.class? parent = none) :
    ∃ slot starts, slots[i]? = some slot ∧
      slot.map Prod.snd = Instr.writing (tables' c.name) ∧
      tables' c.name = fillAddresses (c.parent.elim [] tables') c.methods starts ∧
      starts.length = c.methods.length ∧ ∀ n start, starts[n]? = some start →
        ∃ body, bodies[(allRoutines (ds.take i)).length + bodyIndex c.methods n]? = some body ∧
          body.head? = some (start, ⟨.copyFp, none⟩) := by
  obtain ⟨slot, before, own, after, mid, mid', found, rfl, long, one, others⟩ := linked.split listed
  have quietRest : ∀ d ∈ ds.drop (i + 1), d.Quiet g labels :=
    fun d mem => quiet d (List.mem_of_mem_drop mem)
  obtain ⟨bound, here⟩ := List.getElem?_eq_some_iff.mp listed
  have start : ds.drop i = .cls c :: ds.drop (i + 1) := by
    rw [List.drop_eq_getElem_cons bound, here]
  have quietOwn := quiet _ (List.mem_of_getElem? listed)
  obtain _ | _ | @⟨_, _, _, table, starts, _, _, filled, writes, methods⟩ := one
  have written : tables' c.name = table := by
    rw [others.keeps quietRest once, methods.keeps quietOwn, Function.update_self]
  have inherited : c.parent.elim [] mid = c.parent.elim [] tables' := by
    cases up : c.parent with
    | none => rfl
    | some parent =>
      have apart : ∀ d ∈ Decl.cls c :: ds.drop (i + 1), d.class? parent = none :=
        start ▸ earlier parent up
      have ne : parent ≠ c.name := by
        rintro rfl
        simpa [class?] using apart _ List.mem_cons_self
      have later := others.keeps quietRest fun d mem => apart d (List.mem_cons_of_mem _ mem)
      rw [methods.keeps quietOwn, Function.update_of_ne ne] at later
      exact later.symm
  obtain ⟨each, placed⟩ := methods.bodies
  refine ⟨slot, starts, found, written ▸ writes, ?_, each, ?_⟩
  · rw [written, filled, inherited]
  · intro n address isStart
    obtain ⟨body, inOwn, opens⟩ := placed n address isStart
    refine ⟨body, ?_, opens⟩
    rw [← long, List.append_assoc]
    exact getElem?_middle inOwn before after

end Decl

end ObjectLang
