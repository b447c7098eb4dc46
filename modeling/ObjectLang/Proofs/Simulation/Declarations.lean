import ObjectLang.Proofs.Runtime.Dispatch
import ObjectLang.Proofs.Simulation.Expressions

/-!
Declarations. Each one leaves a word on the stack and becomes the latest event of the history: the
value of a variable, the entry of a function, the address of a class's dispatch table. A sequence of
declarations is executed one by one.
-/
namespace ObjectLang

open Machine Symbolic

theorem Machine.stackAddress_succ (m : Machine) (position : Nat) :
    m.stackAddress (position + 1) = m.stackAddress position - 1 := by
  rw [stackAddress, stackAddress, Int32.ofNat_add, Int32.sub_sub (_ - 1)]
  rfl

namespace World

variable {L : Loaded} {G : History} {W : World}

theorem Sound.further {G' : History} (sound : W.Sound L G) (part : G <:+ G') : W.Sound L G' := by
  intro i K found
  obtain ⟨c, t, H, same, listed, rest⟩ := sound i K found
  exact ⟨c, t, H, same, listed.trans part, rest⟩

def grow (W : World) (words : List Word) : World := { W with heap := W.heap ++ words }

theorem extends_grow (W : World) (words : List Word) : W.Extends (W.grow words) :=
  ⟨List.prefix_append _ _, fun _ _ found => found⟩

theorem Sound.grow (sound : W.Sound L G) (words : List Word) : (W.grow words).Sound L G := by
  have grows := W.extends_grow words
  intro i K found
  obtain ⟨c, t, H, same, listed, stored, fields⟩ := sound i K found
  refine ⟨c, t, H, same, listed, grows.read stored, ?_⟩
  intro j ty field
  obtain ⟨k, w, place, stored, typed⟩ := fields j ty field
  exact ⟨k, w, place, grows.read stored, typed.extend grows⟩

end World

def Level (L : Loaded) (H : History) (c : Snapshot) : Prop :=
  L.machine.stackAddress c.stack.length = H.frame L.base + H.context.nextOffset

/-- The declarations have been executed between two snapshots. Those of the program itself extend
what it has declared. -/
structure Executed (L : Loaded) (G : History) (V : World) (H : History) (c : Snapshot)
    (ds : List Decl) (G' : History) (W : World) (H' : History) (d : Snapshot) : Prop where
  context : H'.context = ds.foldl Context.after H.context
  frame : H'.frame L.base = H.frame L.base
  stack : ∃ words, words.length = ds.length ∧ d.stack = words ++ c.stack
  level : Level L H' d
  grows : V.Extends W
  inner : H.context.isGlobal = false → G' = G
  outer : H.context.isGlobal = true → G' = H'
  agrees : Agrees L G' W H' d

def Declares (L : Loaded) (G : History) (V : World) (H : History) (c : Snapshot) (ip : Nat)
    (ds : List Decl) (env : Env) (printed : List Word) (q : Point) : Prop :=
  q.1 = ip ∧ q.2.printed = printed ∧ ∃ (G' : History) (W : World) (H' : History),
    H'.env = env ∧ Executed L G V H c ds G' W H' q.2

section

variable {L : Loaded} {G G' H H' : History} {U V W : World} {c d e : Snapshot} {ds es : List Decl}
  {ip : Nat}

theorem Executed.refl (agrees : Agrees L G W H c) (level : Level L H c)
    (global : H.context.isGlobal = true → G = H) : Executed L G W H c [] G W H c where
  context := rfl
  frame := rfl
  stack := ⟨[], rfl, rfl⟩
  level := level
  grows := .refl W
  inner := fun _ => rfl
  outer := global
  agrees := agrees

theorem Executed.trans {G'' H'' : History} (first : Executed L G U H c ds G' V H' d)
    (second : Executed L G' V H' d es G'' W H'' e) :
    Executed L G U H c (ds ++ es) G'' W H'' e := by
  have same : H'.context.isGlobal = H.context.isGlobal := by
    rw [first.context, Context.isGlobal_foldl]
  obtain ⟨words, count, stack⟩ := first.stack
  obtain ⟨more, count', stack'⟩ := second.stack
  exact {
    context := by rw [second.context, first.context, List.foldl_append]
    frame := second.frame.trans first.frame
    stack := ⟨more ++ words, by simp [count, count', Nat.add_comm], by
      rw [stack', stack, List.append_assoc]⟩
    level := second.level
    grows := first.grows.trans second.grows
    inner := fun inner => (second.inner (same ▸ inner)).trans (first.inner inner)
    outer := fun outer => second.outer (same ▸ outer)
    agrees := second.agrees }

theorem Leaves.executed {event : Event} {decl : Decl} {w : Word} {printed : List Word} {q : Point}
    (leaves : Leaves L G V H c ip [w] printed W q) (level : Level L H c)
    (global : H.context.isGlobal = true → G = H)
    (after : event.after H.context = H.context.after decl)
    (next : (event.after H.context).nextOffset = H.context.nextOffset - 1)
    (frame : History.frame L.base (event :: H) = H.frame L.base)
    (holds : ∀ G', G <:+ G' → (H.context.isGlobal = true → G' = event :: H) →
      Holds L G' W q.2.stack (event :: H)) :
    ∃ G', Executed L G V H c [decl] G' W (event :: H) q.2 := by
  have stack : ∃ words, words.length = [decl].length ∧ q.2.stack = words ++ c.stack :=
    ⟨[w], rfl, leaves.stack⟩
  have level' : Level L (event :: H) q.2 := by
    have before : L.machine.stackAddress c.stack.length = _ := level
    rw [Level, leaves.stack, frame, History.context, next, List.singleton_append, List.length_cons,
      stackAddress_succ, before, Int32.sub_eq_add_neg, Int32.sub_eq_add_neg, Int32.add_assoc]
  cases place : H.context.isGlobal with
  | true =>
    have here := global place
    subst here
    have further : G <:+ event :: G := List.suffix_cons _ _
    have all := holds (event :: G) further fun _ => rfl
    refine ⟨event :: G, after, frame, stack, level', leaves.grows, ?_, fun _ => rfl, ?_⟩
    · simp [place]
    · exact { leaves.agrees with
        fp := leaves.agrees.fp.trans frame.symm
        holds := all
        globals := all
        objects := leaves.agrees.objects.further further }
  | false =>
    refine ⟨G, after, frame, stack, level', leaves.grows, fun _ => rfl, ?_, ?_⟩
    · simp [place]
    · exact { leaves.agrees with
        fp := leaves.agrees.fp.trans frame.symm
        holds := holds G (List.suffix_refl _) (by simp [place]) }

theorem Agrees.goes_tableCode {table : List Label} {targets : List Nat} {line : Line}
    (agrees : Agrees L G W H c) (checks : L.machine.config.flags.checkCollision = true)
    (placed : List.Forall₂ (fun l target => L.labels.address? l = some target) table targets)
    (stands : Code.At L.machine.code L.labels ip (onLine line (tableCode table))) :
    ∃ e, L.machine.Goes (ip, c) (ip + Code.width (onLine line (tableCode table)), e) ∧
      Leaves L G W H c (ip + Code.width (onLine line (tableCode table)))
        [Int32.ofNat W.heap.length] c.printed (W.grow (targets.map Int32.ofNat))
        (ip + Code.width (onLine line (tableCode table)), e) := by
  have effects := effects_tableCode L.linked checks placed (c := c) (by rw [agrees.heap, agrees.hp])
  rw [agrees.heap, agrees.hp] at effects
  refine ⟨_, effects.goes stands, agrees.leaves (d := { c with
    stack := Int32.ofNat W.heap.length :: c.stack
    heap := W.heap ++ targets.map Int32.ofNat
    hp := W.heap.length + targets.length }) (W.extends_grow _) (agrees.objects.grow _) rfl ?_ rfl rfl⟩
  simp [World.grow]

theorem Executed.declares {decl : Decl} {env : Env} {printed : List Word} {q : Point}
    (first : Executed L G V H c [decl] G' W H' d)
    (rest : Declares L G' W H' d ip ds env printed q) :
    Declares L G V H c ip (decl :: ds) env printed q := by
  obtain ⟨here, shown, G'', U, H'', same, second⟩ := rest
  exact ⟨here, shown, G'', U, H'', same, first.trans second⟩

end

/-- What is known besides when the declarations are those of the program itself: with them it is
complete, and lowering has tables for the classes so far. -/
structure Global (L : Loaded) (G H : History) (ds : List Decl) (s : Supply) : Prop where
  here : G = H
  ends : ds.foldl Context.after H.context = L.final
  sound : H.context.Hierarchical L.inheritance
  tables : L.Tables H s

theorem Global.next {L : Loaded} {G G' H : History} {d : Decl} {ds : List Decl} {event : Event}
    {s u : Supply} (global : Global L G H (d :: ds) s) (typed : d.Typed L.inheritance H.context)
    (plain : Decl.Plain d.declaredTypes) (after : event.after H.context = H.context.after d)
    (here : G' = event :: H) (tables : L.Tables (event :: H) u) :
    Global L G' (event :: H) ds u where
  here := here
  ends := by
    rw [History.context, after]
    exact global.ends
  sound := by
    rw [History.context, after]
    exact global.sound.after typed plain
  tables := tables

namespace Decl

theorem AllTyped.head {h : Inheritance} {ctx : Context} {d : Decl} {ds : List Decl}
    (typed : AllTyped h ctx (d :: ds)) : d.Typed h ctx := by
  cases typed with
  | cons head _ => exact head

def AllSimulated (L : Loaded) (budget : Nat) (call : Call) (ds : List Decl) : Prop :=
  ∀ ⦃G H : History⦄ ⦃W : World⦄ ⦃c : Snapshot⦄ ⦃s t : Supply⦄ ⦃f : Fragment⦄ ⦃ip : Nat⦄,
    AllTyped L.inheritance H.context ds → Plain (allDeclaredTypes ds) → Agrees L G W H c →
    Level L H c → (H.context.isGlobal = true → Global L G H ds s) →
    Lower.Yields (allCode L.base (resolveAll H.context ds)) s f t →
    Code.At L.machine.code L.labels ip f.inline → L.Hosts f.bodies →
    L.Meets budget (ip, c) (Declares L G W H c (ip + f.inline.width) ds)
      (evalAll call H.env ds c.printed)

variable {L : Loaded} {budget : Nat} {call : Call} {ds : List Decl}

theorem allSimulated_nil : AllSimulated L budget call [] := by
  intro G H W c s t f ip typed plain agrees level global lowered stands hosts
  obtain ⟨rfl, rfl⟩ := yields_allCode_nil.mp lowered
  exact .pure ⟨rfl, rfl, G, W, H, rfl, .refl agrees level fun outer => (global outer).here⟩

theorem AllSimulated.after {G G' H : History} {V W : World} {c e : Snapshot} {s t u : Supply}
    {tail : Fragment} {ip : Nat} {d : Decl} {event : Event} (rest : AllSimulated L budget call ds)
    (executed : Executed L G V H c [d] G' W (event :: H) e)
    (after : event.after H.context = H.context.after d)
    (typed : AllTyped L.inheritance H.context (d :: ds))
    (plain : Plain (allDeclaredTypes (d :: ds)))
    (global : H.context.isGlobal = true → Global L G H (d :: ds) s)
    (tables : H.context.isGlobal = true → L.Tables (event :: H) u)
    (lowered : Lower.Yields (allCode L.base (resolveAll (H.context.after d) ds)) u tail t)
    (stands : Code.At L.machine.code L.labels ip tail.inline) (hosts : L.Hosts tail.bodies) :
    L.Meets budget (ip, e) (Declares L G V H c (ip + tail.inline.width) (d :: ds))
      (evalAll call (History.env (event :: H)) ds e.printed) := by
  obtain ⟨own, others⟩ := types_cons plain
  have context : History.context (event :: H) = H.context.after d := after
  cases typed with
  | cons head following =>
    rw [← context] at following lowered
    refine (rest following others executed.agrees executed.level ?_ lowered stands hosts).weaken
      fun _ _ _ => executed.declares
    intro outer
    rw [context, Context.isGlobal_after] at outer
    exact (global outer).next head own after (executed.outer outer) (tables outer)

theorem allSimulated_var {decl : VarDecl} (calls : CallsMeet L budget call)
    (rest : AllSimulated L budget call ds) : AllSimulated L budget call (.var decl :: ds) := by
  intro G H W c s t f ip typed plain agrees level global lowered stands hosts
  obtain ⟨line, name, ty, init⟩ := decl
  obtain ⟨head, tail, u, one, more, rfl⟩ := yields_allCode_cons.mp lowered
  obtain ⟨code, initLowered, rfl⟩ := yields_var.mp one
  simp only [Code.at_append, Code.width_append, ← Nat.add_assoc] at stands ⊢
  cases typed.head with
  | @var _ _ found free initTyped fits =>
    refine .bind (Expr.simulated calls init initTyped agrees initLowered stands.1) ?_
    rintro value printed ⟨ip', d⟩ ⟨W', leaves, hasTy⟩
    obtain ⟨rfl⟩ := leaves.ip
    obtain ⟨rfl⟩ := leaves.printed
    have executed : ∃ G', Executed L G W H c [.var ⟨line, name, ty, init⟩] G' W'
        (.var name ty value :: H) d := by
      refine leaves.executed level (fun outer => (global outer).here) rfl rfl rfl ?_
      intro G' further _
      refine .var (leaves.agrees.holds.extend (.refl _) further []) free
        ((types_cons plain).1 ty (by simp [declaredTypes])) ?_ (hasTy.sub fits)
      rw [← show L.machine.stackAddress c.stack.length = _ from level, leaves.stack]
      exact .top L.machine value c.stack
    obtain ⟨G', executed⟩ := executed
    refine rest.after executed rfl typed plain global ?_ more stands.2 hosts
    intro outer
    exact (global outer).tables.declare (global outer).sound rfl
      (Expr.enclosed _ initLowered).dispatch

theorem allSimulated_fn {routine : Routine} (rest : AllSimulated L budget call ds) :
    AllSimulated L budget call (.fn routine :: ds) := by
  intro G H W c s t f ip typed plain agrees level global lowered stands hosts
  obtain ⟨head, tail, u, one, more, rfl⟩ := yields_allCode_cons.mp lowered
  obtain ⟨bodies, bodyLowered, rfl⟩ := yields_fn.mp one
  simp only [Code.at_append, Code.width_append, ← Nat.add_assoc] at stands ⊢
  cases typed.head with
  | fn free bodyTyped =>
    have readyAt : L.ReadyAt (H.context.after (.fn routine)) routine ⟨s.next⟩ := {
      code := ⟨_, bodies, _, bodyLowered, fun c mem => hosts c (List.mem_append_left _ mem)⟩
      typed := bodyTyped
      plain := (types_cons plain).1 }
    obtain ⟨address, _, _, _, _, _, placed, _⟩ := readyAt.placed
    have leaves := agrees.stay
      (ip + Code.width (onLine (resolveRoutine (H.context.after (.fn routine)) routine).line
        [pushLabel ⟨s.next⟩])) [Int32.ofNat address] c.ra c.tm
    have executed : ∃ G', Executed L G W H c [.fn routine] G' W
        (.fn routine (Int32.ofNat address) :: H)
        { c with stack := Int32.ofNat address :: c.stack } := by
      refine leaves.executed level (fun outer => (global outer).here) rfl rfl rfl ?_
      intro G' further _
      refine .fn (leaves.agrees.holds.extend (.refl _) further []) free ?_
        ⟨_, address, readyAt, placed, rfl⟩
      rw [← show L.machine.stackAddress c.stack.length = _ from level]
      exact .top L.machine _ c.stack
    obtain ⟨G', executed⟩ := executed
    refine .goes ((Effects.cons (effect_pushLabel L.linked placed) .nil).goes stands.1) ?_
    refine rest.after executed rfl typed plain global ?_ more stands.2
      fun c mem => hosts c (List.mem_append_right _ mem)
    intro outer
    have kept := dispatch_routineCode routine (History.tables_ne_nil (.fn routine 0 :: H))
      bodyTyped bodyLowered
    exact (global outer).tables.declare (global outer).sound rfl kept

theorem known_cls {G H : History} {s : Supply} {decl : ClassDecl}
    (typed : AllTyped L.inheritance H.context (.cls decl :: ds))
    (plain : Plain (allDeclaredTypes (.cls decl :: ds)))
    (global : Global L G H (.cls decl :: ds) s) :
    L.final.HasClass decl.name (H.context.members decl).layout (H.context.members decl).table ∧
      ∀ parent, H.context.parent? decl = some parent →
        L.inheritance.Parent decl.name parent.name := by
  obtain ⟨own, others⟩ := types_cons plain
  have sound := global.sound
  cases typed with
  | cons head following =>
    have grows := (sound.after head own).grows_foldl following others
    have ends : ds.foldl Context.after (H.context.after (.cls decl)) = L.final := global.ends
    cases head with
    | cls outer header overrides methods =>
      have free := ClassDecl.free_of_header header
      rw [ends, Context.after, if_pos outer] at grows
      refine ⟨grows.classes (sound.new_class free), ?_⟩
      intro parent found
      refine grows.parents ?_
      rw [Inheritance.Parent, Inheritance.parent?,
        Context.inheritance_declareClass (sound.unrecorded free), Table.find?_insert_self, found]
      rfl

theorem executed_cls {G H : History} {W : World} {c : Snapshot} {s u : Supply} {ip : Nat}
    {decl : ClassDecl} {bodies : List Code}
    (typed : AllTyped L.inheritance H.context (.cls decl :: ds))
    (plain : Plain (allDeclaredTypes (.cls decl :: ds))) (agrees : Agrees L G W H c)
    (level : Level L H c) (global : Global L G H (.cls decl :: ds) s)
    (lowered : Lower.Yields (methodsCode L.base s.next (decl.resolve H.context).methods)
      (methodSupply s (decl.resolve H.context)) bodies u)
    (stands : Code.At L.machine.code L.labels ip
      (onLine decl.line (tableCode (tableOf s (decl.resolve H.context)))))
    (hosts : L.Hosts bodies) :
    ∃ G' W' t e, L.machine.Goes (ip, c)
        (ip + Code.width (onLine decl.line (tableCode (tableOf s (decl.resolve H.context)))), e) ∧
      Executed L G W H c [.cls decl] G' W' (.cls decl t :: H) e ∧
      L.Tables (.cls decl t :: H) u := by
  obtain ⟨known, up⟩ := known_cls typed plain global
  have own := (types_cons plain).1
  have sound := global.sound
  have fits := L.sized known
  have implemented := global.tables.tableOf_cls (Int32.ofNat W.heap.length) sound typed.head own
    fits up lowered hosts
  have tables := global.tables.cls (Int32.ofNat W.heap.length) sound typed.head own fits up lowered
    hosts
  obtain ⟨targets, placed⟩ := Loaded.targets_of_implemented implemented
  obtain ⟨e, goes, leaves⟩ := agrees.goes_tableCode (L.checked known) placed stands
  cases typed.head with
  | cls outer header overrides methods =>
    have after : Event.after H.context (.cls decl (Int32.ofNat W.heap.length)) =
      H.context.after (.cls decl) := (if_pos outer).symm
    have base : H.frame L.base = L.base := H.frame_of_level (by
      rwa [Context.isGlobal, beq_iff_eq] at outer)
    obtain ⟨G', executed⟩ := leaves.executed level (fun _ => global.here) after rfl rfl (by
      intro G' further isHere
      refine .cls (leaves.agrees.holds.extend (.refl _) further [])
        (ClassDecl.free_of_header header) sound known (isHere outer ▸ List.suffix_refl _) ?_ ?_
      · rw [← base, ← show L.machine.stackAddress c.stack.length = _ from level, leaves.stack]
        exact .top L.machine _ c.stack
      · exact World.dispatches_of_entries (sound.members own overrides fits).2.1 implemented placed
          rfl)
    exact ⟨G', _, _, e, goes, executed, tables⟩

theorem allSimulated_cls {decl : ClassDecl} (rest : AllSimulated L budget call ds) :
    AllSimulated L budget call (.cls decl :: ds) := by
  intro G H W c s t f ip typed plain agrees level global lowered stands hosts
  cases typed.head with
  | cls outer =>
    obtain ⟨head, tail, u, one, more, rfl⟩ := yields_allCode_cons.mp lowered
    rw [resolve_cls outer] at one
    obtain ⟨bodies, methodsLowered, rfl⟩ := yields_cls.mp one
    simp only [Code.at_append, Code.width_append, ← Nat.add_assoc] at stands ⊢
    obtain ⟨G', W', table, e, goes, executed, tables⟩ := executed_cls typed plain agrees level
      (global outer) methodsLowered stands.1 fun c mem => hosts c (List.mem_append_left _ mem)
    have known := (known_cls typed plain (global outer)).1
    have after : Event.after H.context (.cls decl table) = H.context.after (.cls decl) :=
      (if_pos outer).symm
    refine .stuck ⟨_, _, _, known⟩ (.goes goes ?_)
    exact (rest.after executed after typed plain global (fun _ => tables) more stands.2
      fun c mem => hosts c (List.mem_append_right _ mem)).reaches

theorem allSimulated (calls : CallsMeet L budget call) (ds : List Decl) :
    AllSimulated L budget call ds := by
  induction ds with
  | nil => exact allSimulated_nil
  | cons d ds ih =>
    cases d with
    | var decl => exact allSimulated_var calls ih
    | fn routine => exact allSimulated_fn ih
    | cls decl => exact allSimulated_cls ih

end Decl

end ObjectLang
