import ObjectLang.Proofs.Simulation.Declarations

/-!
Routines. A routine finds its arguments below the access link, executes its own declarations above
the return address and leaves its value where the arguments were. That its code does what calls are
evaluated to is proved by induction on the depth of nested calls: each call takes a step of the
machine, so a call that is unfinished at some depth has no result within as many steps.
-/
namespace ObjectLang

open Machine Symbolic

theorem Machine.stackAddress_add (m : Machine) (position count : Nat) :
    m.stackAddress (position + count) + Int32.ofNat count = m.stackAddress position := by
  rw [stackAddress, stackAddress, Int32.ofNat_add, ← Int32.sub_sub, Int32.sub_add_cancel]

theorem Machine.Slot.of_getElem? (m : Machine) {stack : List Word} {i : Nat} {w : Word}
    (found : stack[i]? = some w) : m.Slot stack (m.stackAddress (stack.length - 1 - i)) w := by
  obtain ⟨bound, _⟩ := List.getElem?_eq_some_iff.mp found
  refine ⟨_, ?_, rfl⟩
  rw [List.getElem?_reverse (by omega), show stack.length - 1 - (stack.length - 1 - i) = i by omega,
    found]

section

variable {L : Loaded} {G H : History} {W : World} {stack values : List Word} {params : List Param}
  {offset : Word}

theorem Holds.bindParams (holds : Holds L G W stack H)
    (clean : H.context.scopes.paramErrors offset params = [])
    (plain : ∀ p ∈ params, p.ty.isPlain = true)
    (typed : List.Forall₂ (W.HasTy L) (params.map Param.ty) values)
    (slots : ∀ (i : Nat) (v : Word), values[i]? = some v →
      L.machine.Slot stack (H.frame L.base + (offset + Int32.ofNat i)) v) :
    Holds L G W stack (H.bindParams offset params values) := by
  induction params generalizing H offset values with
  | nil => exact holds
  | cons p params ih =>
    cases typed with
    | @cons _ value _ values head tail =>
      rw [Scopes.paramErrors, List.append_eq_nil_iff] at clean
      have slot := slots 0 value rfl
      rw [show Int32.ofNat 0 = 0 from rfl, Int32.add_zero] at slot
      refine ih (.param holds (by simpa using clean.1) (plain p List.mem_cons_self) slot head)
        clean.2 (fun q mem => plain q (List.mem_cons_of_mem _ mem)) tail ?_
      intro i v found
      have slot := slots (i + 1) v found
      rwa [Nat.add_comm, Int32.ofNat_add, ← Int32.add_assoc offset] at slot

theorem Holds.inRoutine {r : Routine} {rest : List Word} {back control : Word}
    (holds : Holds L G W rest H)
    (clean : (H.context.scopes.enter {}).paramErrors 1 r.params = [])
    (plain : ∀ p ∈ r.params, p.ty.isPlain = true)
    (typed : List.Forall₂ (W.HasTy L) (r.params.map Param.ty) values) :
    Holds L G W (back :: H.frame L.base :: (values ++ control :: rest))
      (H.inRoutine (L.machine.stackAddress (values ++ control :: rest).length) r.params values) := by
  have below := holds.extend (.refl W) (List.suffix_refl G)
    (back :: H.frame L.base :: values ++ [control])
  simp only [List.cons_append, List.append_assoc, List.nil_append] at below
  have link : L.machine.Slot (back :: H.frame L.base :: (values ++ control :: rest))
      (L.machine.stackAddress (values ++ control :: rest).length) (H.frame L.base) :=
    (Slot.top L.machine (H.frame L.base) (values ++ control :: rest)).append [back]
  refine Holds.bindParams (.enter below link) clean plain typed ?_
  intro i v found
  obtain ⟨bound, _⟩ := List.getElem?_eq_some_iff.mp found
  have inside : (values ++ control :: rest)[i]? = some v := by
    rw [List.getElem?_append_left bound, found]
  have slot := (Slot.of_getElem? L.machine inside).append [back, H.frame L.base]
  have place := L.machine.stackAddress_add ((values ++ control :: rest).length - 1 - i) (1 + i)
  rw [show (values ++ control :: rest).length - 1 - i + (1 + i) = (values ++ control :: rest).length by
    simp only [List.length_append, List.length_cons]; omega, Int32.ofNat_add] at place
  exact place ▸ slot

theorem agrees_inRoutine {r : Routine} {c : Snapshot} {rest : List Word} {control : Word}
    (heap : c.heap = W.heap) (hp : c.hp = W.heap.length) (holds : Holds L G W rest H)
    (globals : Holds L G W rest G) (sound : W.Sound L G)
    (clean : (H.context.scopes.enter {}).paramErrors 1 r.params = [])
    (plain : ∀ p ∈ r.params, p.ty.isPlain = true)
    (typed : List.Forall₂ (W.HasTy L) (r.params.map Param.ty) values) :
    Agrees L G W
      (H.inRoutine (L.machine.stackAddress (values ++ control :: rest).length) r.params values)
      { c with
        stack := c.ra :: H.frame L.base :: (values ++ control :: rest)
        fp := L.machine.stackAddress (values ++ control :: rest).length } where
  heap := heap
  hp := hp
  fp := History.frame_inRoutine.symm
  holds := holds.inRoutine clean plain typed
  globals := by
    have below := globals.extend (.refl W) (List.suffix_refl G)
      (c.ra :: H.frame L.base :: values ++ [control])
    simpa using below
  objects := sound

end

namespace Decl

theorem length_resolveAll (ctx : Context) (ds : List Decl) :
    (resolveAll ctx ds).length = ds.length := by
  induction ds generalizing ctx with
  | nil => rfl
  | cons d ds ih => exact congrArg (· + 1) (ih _)

end Decl

variable {L : Loaded} {budget : Nat}

/-- From the end of the prologue a routine executes its declarations, evaluates its body and
returns. -/
theorem meets_body {call : Call} (calls : CallsMeet L budget call) {G H : History} {W : World}
    {c : Snapshot} {r : Routine} {ty : Ty} {s u t : Supply} {inner : Fragment} {result : Code}
    {line : Line} {ip address : Nat} {values rest : List Word} {back link control : Word}
    (inside : H.context.isGlobal = false)
    (localsTyped : Decl.AllTyped L.inheritance H.context r.locals)
    (plain : Decl.Plain (Decl.allDeclaredTypes r.locals))
    (bodyTyped : r.body.Typed L.inheritance (r.locals.foldl Context.after H.context) ty)
    (fits : ty.subtype L.inheritance r.ret = true) (agrees : Agrees L G W H c)
    (level : Level L H c)
    (localsLowered : Lower.Yields
      (Decl.allCode L.base (Decl.resolveAll H.context r.locals)) s inner u)
    (bodyLowered : Lower.Yields
      ((r.body.resolve (r.locals.foldl Context.after H.context)).code L.base) u result t)
    (hosts : L.Hosts inner.bodies)
    (stands : Code.At L.machine.code L.labels ip (inner.inline ++ result ++
      onLine line (Routine.epilogue values.length r.locals.length)))
    (stack : c.stack = back :: link :: (values ++ control :: rest))
    (named : Word.index? back = some address) :
    L.Meets budget (ip, c) (Returns L G W rest control address r.ret)
      ((do
        let env ← Decl.evalAll call H.env r.locals
        r.body.evalWith call env : Eval Word) c.printed) := by
  simp only [Code.at_append, Code.width_append, ← Nat.add_assoc] at stands
  obtain ⟨⟨localsStand, bodyStands⟩, epilogueStands⟩ := stands
  refine .bind (Decl.allSimulated calls r.locals localsTyped plain agrees level (by simp [inside])
    localsLowered localsStand hosts) ?_
  rintro env printed ⟨ip', d⟩ ⟨rfl, rfl, G', W', K, rfl, executed⟩
  obtain ⟨rfl⟩ := executed.inner inside
  obtain ⟨words, localsCount, grown⟩ := executed.stack
  rw [← executed.context] at bodyTyped bodyLowered
  refine (Expr.simulated calls r.body bodyTyped executed.agrees bodyLowered bodyStands).extend ?_
  rintro value printed ⟨ip', e⟩ ⟨W'', leaves, hasTy⟩
  obtain ⟨rfl⟩ := leaves.ip
  rw [← localsCount] at epilogueStands
  obtain ⟨ra, goes⟩ := goes_epilogue L.linked (c := e) epilogueStands
    (by rw [leaves.stack, grown, stack]; rfl) named
  exact ⟨_, goes, rfl, rfl, rfl, leaves.printed, W'', executed.grows.trans leaves.grows,
    leaves.agrees.heap, leaves.agrees.hp, leaves.agrees.objects, hasTy.sub fits⟩

theorem callsMeet_succ (calls : CallsMeet L budget (Routine.invoke budget)) :
    CallsMeet L (budget + 1) (Routine.invoke (budget + 1)) := by
  intro G H W c r entry address back values rest control ready named returns top heap hp holds
    globals sound typed
  obtain ⟨label, place, readyAt, placed, rfl⟩ := ready
  obtain ⟨start, inner, result, s, u, t, marked, localsLowered, bodyLowered, hosts, stands⟩ :=
    readyAt.placed
  rw [Word.index?_ofNat (L.linked.labels _ _ placed), Option.some.injEq] at named
  rw [placed, Option.some.injEq] at marked
  subst named marked
  obtain ⟨⟨plainParams, _⟩, plainLocals⟩ := Decl.types_routine readyAt.plain
  have count : values.length = r.params.length := by simpa using typed.length_eq.symm
  have context : (H.inRoutine (L.machine.stackAddress (values ++ control :: rest).length) r.params
      values).context = H.context.inRoutine r.params := History.context_inRoutine count
  simp only [Decl.routineItems, Decl.resolveRoutine_eq, Decl.length_resolveAll, List.append_assoc,
    List.cons_append, List.nil_append, Code.at_mark] at stands
  rw [← count, ← List.append_assoc inner.inline] at stands
  obtain ⟨_, stands⟩ := stands
  obtain ⟨prologueStands, stands⟩ := Code.at_append.mp stands
  obtain ⟨p, advances, goes⟩ := (effects_prologue L.linked top).step prologueStands
  cases readyAt.typed with
  | @intro _ _ ty clean localsTyped bodyTyped fits =>
    have agrees := @agrees_inRoutine L G H W values r c rest control heap hp holds globals sound
      clean plainParams typed
    have level : Level L (H.inRoutine (L.machine.stackAddress (values ++ control :: rest).length)
        r.params values) { c with
          stack := c.ra :: H.frame L.base :: (values ++ control :: rest)
          fp := L.machine.stackAddress (values ++ control :: rest).length } := by
      have cancels : Int32.ofNat 2 + (H.context.inRoutine r.params).nextOffset = 0 :=
        (by decide : Int32.ofNat 2 + (-2) = 0)
      rw [Level, context, History.frame_inRoutine,
        ← L.machine.stackAddress_add (values ++ control :: rest).length 2, Int32.add_assoc, cancels,
        Int32.add_zero]
      rfl
    have inside : (H.context.inRoutine r.params).isGlobal = false := by
      rw [Context.isGlobal, Context.level_inRoutine]
      simpa using H.tables_ne_nil
    rw [← context] at inside localsTyped bodyTyped localsLowered bodyLowered
    have meets := meets_body calls inside localsTyped plainLocals bodyTyped fits agrees level
      localsLowered bodyLowered hosts stands rfl returns
    rw [History.env_inRoutine] at meets
    have unfolded : Routine.invoke (budget + 1) H.env r values = (do
        let env ← Decl.evalAll (Routine.invoke budget) (H.env.bindParams r.params values) r.locals
        r.body.evalWith (Routine.invoke budget) env) := if_pos count
    rw [unfolded]
    exact .step advances (.goes goes meets)

theorem callsMeet (L : Loaded) (budget : Nat) : CallsMeet L budget (Routine.invoke budget) := by
  induction budget with
  | zero =>
    intro G H W c r entry address back values rest control ready named returns top heap hp holds
      globals sound typed
    exact safe_zero
  | succ budget ih => exact callsMeet_succ ih

end ObjectLang
