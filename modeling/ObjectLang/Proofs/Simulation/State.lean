import ObjectLang.Proofs.Runtime.Access
import ObjectLang.Proofs.Simulation.Outcome

/-!
The state of the machine between the parts of a program. Before and after each expression the
snapshot agrees with a history; an expression adds its value to the stack, may add to the heap, and
changes nothing else that a history speaks of.
-/
namespace ObjectLang

open Machine

structure Agrees (L : Loaded) (G : History) (W : World) (H : History) (c : Snapshot) : Prop where
  heap : c.heap = W.heap
  hp : c.hp = W.heap.length
  fp : c.fp = H.frame L.base
  holds : Holds L G W c.stack H
  globals : Holds L G W c.stack G
  objects : W.Sound L G

/-- At the point, the words have been added to the stack of the snapshot, and the world may have
grown. -/
structure Leaves (L : Loaded) (G : History) (W : World) (H : History) (c : Snapshot) (ip : Nat)
    (words printed : List Word) (W' : World) (q : Point) : Prop where
  ip : q.1 = ip
  stack : q.2.stack = words ++ c.stack
  printed : q.2.printed = printed
  grows : W.Extends W'
  agrees : Agrees L G W' H q.2

def Gives (L : Loaded) (G : History) (W : World) (H : History) (c : Snapshot) (ip : Nat) (ty : Ty)
    (value : Word) (printed : List Word) (q : Point) : Prop :=
  ∃ W', Leaves L G W H c ip [value] printed W' q ∧ W'.HasTy L ty value

def GivesAll (L : Loaded) (G : History) (W : World) (H : History) (c : Snapshot) (ip : Nat)
    (types : List Ty) (values printed : List Word) (q : Point) : Prop :=
  ∃ W', Leaves L G W H c ip values printed W' q ∧ List.Forall₂ (W'.HasTy L) types values

def Returns (L : Loaded) (G : History) (W : World) (rest : List Word) (control : Word) (back : Nat)
    (ty : Ty) (value : Word) (printed : List Word) (q : Point) : Prop :=
  q.1 = back ∧ q.2.stack = value :: rest ∧ q.2.fp = control ∧ q.2.printed = printed ∧
    ∃ W', W.Extends W' ∧ q.2.heap = W'.heap ∧ q.2.hp = W'.heap.length ∧ W'.Sound L G ∧
      W'.HasTy L ty value

/-- From its entry a routine does what calls are evaluated to, whatever history it was declared
in. The access link is on top of the stack, then come the arguments and the caller's frame. -/
def CallsMeet (L : Loaded) (budget : Nat) (call : Call) : Prop :=
  ∀ ⦃G H : History⦄ ⦃W : World⦄ ⦃c : Snapshot⦄ ⦃r : Routine⦄ ⦃entry : Word⦄ ⦃address back : Nat⦄
    ⦃values rest : List Word⦄ ⦃control : Word⦄,
    L.Ready H.context r entry → Word.index? entry = some address →
    Word.index? c.ra = some back → c.stack = H.frame L.base :: (values ++ control :: rest) →
    c.heap = W.heap → c.hp = W.heap.length → Holds L G W rest H → Holds L G W rest G →
    W.Sound L G → List.Forall₂ (W.HasTy L) (r.params.map Param.ty) values →
    L.Meets budget (address, c) (Returns L G W rest control back r.ret)
      (call H.env r values c.printed)

variable {L : Loaded} {G H : History} {V W : World} {c d : Snapshot} {ip : Nat}
  {words printed : List Word}

theorem Agrees.leaves (agrees : Agrees L G V H c) (grows : V.Extends W) (sound : W.Sound L G)
    (heap : d.heap = W.heap) (hp : d.hp = W.heap.length) (fp : d.fp = c.fp)
    (stack : d.stack = words ++ c.stack) : Leaves L G V H c ip words d.printed W (ip, d) where
  ip := rfl
  stack := stack
  printed := rfl
  grows := grows
  agrees := {
    heap := heap
    hp := hp
    fp := fp.trans agrees.fp
    holds := stack ▸ agrees.holds.extend grows (List.suffix_refl _) words
    globals := stack ▸ agrees.globals.extend grows (List.suffix_refl _) words
    objects := sound }

theorem Agrees.stay (agrees : Agrees L G W H c) (ip : Nat) (words : List Word) (ra tm : Word) :
    Leaves L G W H c ip words c.printed W
      (ip, { c with stack := words ++ c.stack, ra := ra, tm := tm }) :=
  agrees.leaves (d := { c with stack := words ++ c.stack, ra := ra, tm := tm }) (.refl W)
    agrees.objects agrees.heap agrees.hp rfl rfl

theorem Agrees.gives {ty : Ty} {value : Word} (agrees : Agrees L G W H c)
    (typed : W.HasTy L ty value) (ip : Nat) (ra tm : Word) :
    Gives L G W H c ip ty value c.printed
      (ip, { c with stack := value :: c.stack, ra := ra, tm := tm }) :=
  ⟨W, agrees.stay ip [value] ra tm, typed⟩

theorem Leaves.trans {U : World} {q r : Point} {ip' : Nat} {more printed' : List Word}
    (first : Leaves L G U H c ip words printed V q)
    (second : Leaves L G V H q.2 ip' more printed' W r) :
    Leaves L G U H c ip' (more ++ words) printed' W r where
  ip := second.ip
  stack := by rw [second.stack, first.stack, List.append_assoc]
  printed := second.printed
  grows := first.grows.trans second.grows
  agrees := second.agrees

theorem Leaves.move {q : Point} (leaves : Leaves L G V H c ip words printed W q) (ip' : Nat) :
    Leaves L G V H c ip' words printed W (ip', q.2) :=
  { leaves with ip := rfl }

theorem Leaves.replace {q : Point} (leaves : Leaves L G V H c ip words printed W q)
    (agrees : Agrees L G V H c) (ip' : Nat) (words' printed' : List Word) (ra tm : Word) :
    Leaves L G V H c ip' words' printed' W (ip', { q.2 with
      stack := words' ++ c.stack, ra := ra, tm := tm, printed := printed' }) :=
  agrees.leaves (d := { q.2 with stack := words' ++ c.stack, ra, tm, printed := printed' })
    leaves.grows leaves.agrees.objects leaves.agrees.heap leaves.agrees.hp
    (leaves.agrees.fp.trans agrees.fp.symm) rfl

theorem Returns.gives {ty : Ty} {value : Word} {q : Point} (agrees : Agrees L G V H c)
    (grows : V.Extends W) (returns : Returns L G W c.stack c.fp ip ty value printed q) :
    Gives L G V H c ip ty value printed q := by
  obtain ⟨here, stack, fp, shown, W', more, heap, hp, sound, typed⟩ := returns
  obtain ⟨ip', d⟩ := q
  subst here shown
  exact ⟨W', agrees.leaves (grows.trans more) sound heap hp fp stack, typed⟩

theorem Gives.weaken {a b : Ty} {value : Word} {q : Point}
    (gives : Gives L G W H c ip a value printed q) (sub : a.subtype L.inheritance b = true) :
    Gives L G W H c ip b value printed q := by
  obtain ⟨W', leaves, typed⟩ := gives
  exact ⟨W', leaves, typed.sub sub⟩

theorem Agrees.ident {name : String} {b : Binding} (agrees : Agrees L G W H c)
    (found : H.context.scopes.lookup name = some b) (alone : b.ty.isValue = true) :
    ∃ w, W.HasTy L b.ty w ∧ Denotes L H name (.word w) ∧
      Effects L.machine L.labels
        (Use.frame L.base ⟨b, H.context.scopes.level⟩ ++ Sequence.loadOffset b.offset) c
        { c with stack := w :: c.stack } := by
  cases agrees.holds.lookup found with
  | @value frame w place slot plain typed meaning =>
    exact ⟨w, typed, meaning, (place.effects agrees.fp).append
      (@effects_loadOffset _ _ { c with stack := frame :: c.stack } w c.stack L.linked _ _ rfl slot)⟩
  | routine place slot listed shape meaning =>
    rw [shape] at alone
    cases alone
  | cls shape =>
    rw [shape] at alone
    cases alone
  | @member d t a K place listed own meaning =>
    have isField : b.ty.isMethod = false := by
      cases shape : b.ty with
      | method => simp [shape, Ty.isValue] at alone
      | _ => rfl
    have inside := agrees.holds.suffix listed
    have known := inside.known (List.suffix_cons _ _)
    obtain ⟨k, w, address, stored, typed⟩ :=
      inside.receiver.field agrees.objects agrees.globals known own isField
    rw [← agrees.heap] at stored
    exact ⟨w, typed, .inr ⟨⟨_, _, _, known⟩, meaning⟩, (place.effects agrees.fp).append
      (@effects_loadOffset_heap _ _ { c with stack := a :: c.stack } w c.stack L.linked _ _ k rfl
        address stored)⟩

end ObjectLang
