import ObjectLang.Proofs.Machine.Execution

/-!
What each instruction does to a snapshot, wherever in the program it stands, and what straight code
does. Branches and calls are described with the addresses they lead to.
-/
namespace ObjectLang.Machine

open Symbolic

def Effect (m : Machine) (labels : Labels) (i : Symbolic) (c d : Snapshot) : Prop :=
  ∀ ip, i.At m.code labels ip → m.Advances (ip, c) (ip + i.op.width, d)

inductive Effects (m : Machine) (labels : Labels) : List Symbolic → Snapshot → Snapshot → Prop
  | nil {c} : Effects m labels [] c c
  | cons {i is c d e} (head : Effect m labels i c d) (tail : Effects m labels is d e) :
      Effects m labels (i :: is) c e

variable {m : Machine} {labels : Labels} {ip : Nat} {c d e : Snapshot} {w u v : Word}
  {rest : List Word}

theorem Effects.append {is js : List Symbolic} (first : Effects m labels is c d)
    (second : Effects m labels js d e) : Effects m labels (is ++ js) c e := by
  induction first with
  | nil => exact second
  | cons head _ ih => exact .cons head (ih second)

theorem Effects.goes {is : List Symbolic} (effects : Effects m labels is c d) {line : Line}
    (stands : Code.At m.code labels ip (onLine line is)) :
    m.Goes (ip, c) (ip + Code.width (onLine line is), d) := by
  induction effects generalizing ip with
  | nil => exact .refl
  | cons head _ ih =>
    obtain ⟨here, next⟩ := Code.at_instr.mp stands
    have step := head ip here
    have goes := ih next
    rw [Nat.add_assoc] at goes
    exact .head step goes

theorem Effects.step {i : Symbolic} {is : List Symbolic} (effects : Effects m labels (i :: is) c d)
    {line : Line} (stands : Code.At m.code labels ip (onLine line (i :: is))) :
    ∃ p, m.Advances (ip, c) p ∧ m.Goes p (ip + Code.width (onLine line (i :: is)), d) := by
  cases effects with
  | cons head tail =>
    obtain ⟨here, next⟩ := Code.at_instr.mp stands
    have goes := tail.goes next
    rw [Nat.add_assoc] at goes
    exact ⟨_, head ip here, goes⟩

/-! One lemma for each opcode that does not jump. -/

section

variable (linked : m.Linked labels)

include linked

theorem effect_push (w : Word) :
    Effect m labels (Symbolic.push w) c { c with stack := w :: c.stack } := by
  intro ip stands
  exact advances_of_exec stands.1 ((does_fetch stands.2).bind (does_push linked.memory w))

theorem effect_pushLabel {l : Label} {target : Nat} (placed : labels.address? l = some target) :
    Effect m labels (pushLabel l) c { c with stack := Int32.ofNat target :: c.stack } := by
  intro ip stands
  obtain ⟨found, other, placed', word⟩ := stands
  rw [placed, Option.some.injEq] at placed'
  subst placed'
  exact advances_of_exec found ((does_fetch word).bind (does_push linked.memory _))

theorem effect_pop (top : c.stack = w :: rest) :
    Effect m labels (plain .pop) c { c with stack := rest } := by
  intro ip stands
  exact advances_of_exec stands.1 ((does_pop linked.memory top).bind (.pure _ _))

theorem does_combine (f : Word → Word → Word) (top : c.stack = u :: v :: rest) :
    Does m (m.combine f) (ip, c) () (ip, { c with stack := f v u :: rest }) :=
  (does_pop linked.memory top).bind ((does_pop linked.memory rfl).bind (does_push linked.memory _))

theorem effect_add (top : c.stack = u :: v :: rest) :
    Effect m labels (plain .add) c { c with stack := (v + u) :: rest } :=
  fun _ stands => advances_of_exec stands.1 (does_combine linked (· + ·) top)

theorem effect_sub (top : c.stack = u :: v :: rest) :
    Effect m labels (plain .sub) c { c with stack := (v - u) :: rest } :=
  fun _ stands => advances_of_exec stands.1 (does_combine linked (· - ·) top)

theorem effect_mult (top : c.stack = u :: v :: rest) :
    Effect m labels (plain .mult) c { c with stack := (v * u) :: rest } :=
  fun _ stands => advances_of_exec stands.1 (does_combine linked (· * ·) top)

theorem effect_div (top : c.stack = u :: v :: rest) (divides : u ≠ 0) :
    Effect m labels (plain .div) c { c with stack := (v / u) :: rest } := by
  intro ip stands
  refine advances_of_exec stands.1
    ((does_pop linked.memory top).bind ((does_pop linked.memory rfl).bind ?_))
  rw [if_neg divides]
  exact (Does.pure _ _).bind (does_push linked.memory _)

theorem stops_div (stands : (plain .div).At m.code labels ip) (top : c.stack = 0 :: v :: rest) :
    m.Stops (ip, c) (· = .divisionByZero ip) := by
  refine stops_of_exec stands.1
    ((does_pop linked.memory top).bind_fails ((does_pop linked.memory rfl).bind_fails ?_))
  intro s shows
  exact ⟨_, s, rfl, .inl rfl⟩

theorem effect_loadW {address : Word} (top : c.stack = address :: rest)
    (slot : m.Slot rest address w) :
    Effect m labels (plain .loadW) c { c with stack := w :: rest } := by
  intro ip stands
  exact advances_of_exec stands.1 ((does_pop linked.memory top).bind
    ((does_loadWord_stack linked.memory slot).bind (does_push linked.memory _)))

theorem effect_loadW_heap {i : Nat} (top : c.stack = Int32.ofNat i :: rest)
    (found : c.heap[i]? = some w) :
    Effect m labels (plain .loadW) c { c with stack := w :: rest } := by
  intro ip stands
  refine advances_of_exec stands.1 ((does_pop linked.memory top).bind ?_)
  exact (@does_loadWord_heap m _ { c with stack := rest } w linked.memory i found).bind
    (does_push linked.memory _)

theorem stops_loadW {address : Word} (stands : (plain .loadW).At m.code labels ip)
    (top : c.stack = address :: rest) (negative : address.toInt < 0) :
    m.Stops (ip, c) (fun fault => ∃ ip, fault = .memoryOutOfBounds address ip) :=
  stops_of_exec stands.1 ((does_pop linked.memory top).bind_fails (fails_loadWord negative).bind)

theorem effect_storeW (checks : m.config.flags.checkCollision = true)
    (top : c.stack = Int32.ofNat c.hp :: w :: rest) (level : c.heap.length = c.hp)
    (used : rest ≠ []) :
    Effect m labels (plain .storeW) c { c with stack := rest, heap := c.heap ++ [w] } := by
  intro ip stands
  refine advances_of_exec stands.1 ((does_pop linked.memory top).bind
    ((does_pop linked.memory rfl).bind ?_))
  exact @does_storeWord m _ { c with stack := rest } linked.memory checks level used w

theorem effect_loadRa : Effect m labels (plain .loadRa) c { c with stack := c.ra :: c.stack } := by
  intro ip stands
  refine advances_of_exec stands.1 (Does.get fun s shows => ?_)
  rw [show s.ra = c.ra from shows.ra]
  exact does_push linked.memory _

theorem effect_storeRa (top : c.stack = w :: rest) :
    Effect m labels (plain .storeRa) c { c with stack := rest, ra := w } :=
  fun _ stands => advances_of_exec stands.1 ((does_pop linked.memory top).bind (does_setRa w))

theorem effect_loadTm : Effect m labels (plain .loadTm) c { c with stack := c.tm :: c.stack } := by
  intro ip stands
  refine advances_of_exec stands.1 (Does.get fun s shows => ?_)
  rw [show s.tm = c.tm from shows.tm]
  exact does_push linked.memory _

theorem effect_storeTm (top : c.stack = w :: rest) :
    Effect m labels (plain .storeTm) c { c with stack := rest, tm := w } :=
  fun _ stands => advances_of_exec stands.1 ((does_pop linked.memory top).bind (does_setTm w))

theorem effect_loadFp : Effect m labels (plain .loadFp) c { c with stack := c.fp :: c.stack } := by
  intro ip stands
  refine advances_of_exec stands.1 (Does.get fun s shows => ?_)
  rw [show s.fp = c.fp from shows.fp]
  exact does_push linked.memory _

theorem effect_storeFp (top : c.stack = w :: rest) :
    Effect m labels (plain .storeFp) c { c with stack := rest, fp := w } :=
  fun _ stands => advances_of_exec stands.1 ((does_pop linked.memory top).bind (does_setFp w))

omit linked in
theorem effect_copyFp (top : c.stack = w :: rest) :
    Effect m labels (plain .copyFp) c { c with fp := m.stackAddress rest.length } := by
  intro ip stands
  refine advances_of_exec stands.1 (Does.get fun s shows => ?_)
  have bound := shows.length_stack
  have pointer : s.sp = m.stackAddress rest.length := by
    have sp : s.sp = Int32.ofNat (m.config.memorySize - c.stack.length) := shows.sp
    rw [top, List.length_cons] at sp bound
    rw [sp, stackAddress, Int32.ofNat_sub _ _ (by omega), Int32.ofNat_add]
    have one : Int32.ofNat 1 = 1 := rfl
    rw [one]
    grind
  rw [pointer]
  exact does_setFp _

theorem effect_loadHp :
    Effect m labels (plain .loadHp) c { c with stack := Int32.ofNat c.hp :: c.stack } := by
  intro ip stands
  refine advances_of_exec stands.1 (Does.get fun s shows => ?_)
  rw [show s.hp = Int32.ofNat c.hp from shows.hp]
  exact does_push linked.memory _

theorem effect_storeHp (checks : m.config.flags.checkCollision = true)
    (top : c.stack = Int32.ofNat (c.hp + 1) :: rest) (ahead : c.heap.length = c.hp + 1) :
    Effect m labels (plain .storeHp) c { c with stack := rest, hp := c.hp + 1 } := by
  intro ip stands
  refine advances_of_exec stands.1 ((does_pop linked.memory top).bind ?_)
  exact @does_setHp m _ { c with stack := rest } linked.memory checks ahead _ rfl

theorem effect_print (top : c.stack = w :: rest) :
    Effect m labels (plain .print) c { c with printed := c.printed ++ [w] } :=
  fun _ stands => advances_of_exec stands.1 (does_printTop linked.memory top)

/-! Instructions that lead elsewhere, and the one that ends a run. -/

theorem advances_branch {l : Label} {target : Nat} (stands : (branch .branch l).At m.code labels ip)
    (placed : labels.address? l = some target) : m.Advances (ip, c) (target, c) := by
  obtain ⟨found, other, placed', word⟩ := stands
  rw [placed, Option.some.injEq] at placed'
  subst placed'
  exact advances_of_exec found ((does_fetch word).bind
    (does_jump (Word.index?_ofNat (linked.labels l target placed))))

theorem does_branchIf {test : Word → Word → Bool} {target : Nat}
    (word : m.code[ip]? = some (Int32.ofNat target)) (bound : target < Word.limit)
    (top : c.stack = u :: v :: rest) :
    Does m (m.branchIf test) (ip, c) ()
      (if test v u then target else ip + 1, { c with stack := rest }) := by
  refine (does_fetch word).bind ((does_pop linked.memory top).bind
    ((does_pop linked.memory rfl).bind ?_))
  cases test v u with
  | true => exact does_jump (Word.index?_ofNat bound)
  | false => exact .pure _ _

theorem advances_branchEq {l : Label} {target : Nat}
    (stands : (branch .branchEq l).At m.code labels ip) (placed : labels.address? l = some target)
    (top : c.stack = u :: v :: rest) :
    m.Advances (ip, c) (if v = u then target else ip + 2, { c with stack := rest }) := by
  obtain ⟨found, other, placed', word⟩ := stands
  rw [placed, Option.some.injEq] at placed'
  subst placed'
  have done := @does_branchIf m labels _ c u v rest linked (· == ·) target word
    (linked.labels l target placed) top
  simp only [beq_iff_eq] at done
  exact advances_of_exec found done

theorem advances_branchLessEq {l : Label} {target : Nat}
    (stands : (branch .branchLessEq l).At m.code labels ip)
    (placed : labels.address? l = some target) (top : c.stack = u :: v :: rest) :
    m.Advances (ip, c) (if v ≤ u then target else ip + 2, { c with stack := rest }) := by
  obtain ⟨found, other, placed', word⟩ := stands
  rw [placed, Option.some.injEq] at placed'
  subst placed'
  have done := @does_branchIf m labels _ c u v rest linked (fun lower upper => lower ≤ upper)
    target word (linked.labels l target placed) top
  simp only [decide_eq_true_eq] at done
  exact advances_of_exec found done

theorem advances_js {target : Nat} (stands : (plain .js).At m.code labels ip)
    (top : c.stack = w :: rest) (named : Word.index? w = some target) :
    m.Advances (ip, c) (target, { c with stack := rest, ra := Int32.ofNat (ip + 1) }) := by
  refine advances_of_exec stands.1 ((does_pop linked.memory top).bind
    (Does.get fun s shows => ?_))
  rw [show s.ip = ip + 1 from shows.ip]
  exact (does_setRa _).bind (does_jump named)

theorem stops_js (stands : (plain .js).At m.code labels ip) (top : c.stack = -1 :: rest) :
    m.Stops (ip, c) (· = .codeOutOfBounds (-1)) := by
  refine stops_of_exec stands.1 ((does_pop linked.memory top).bind_fails
    (Fails.get fun s shows => ?_))
  exact (does_setRa _).bind_fails fails_jump_null

theorem halt_run {wanted : Run → Prop} (lenient : m.Lenient wanted)
    (stands : (plain .halt).At m.code labels ip) (top : c.stack = w :: rest)
    (good : ∀ s : State, s.outcome = ⟨c.printed, some w, s.steps⟩ → wanted (.halted s)) {s : State}
    (shows : m.Shows s (ip, c)) (budget : Nat) :
    (m.runFor (budget + 1) s).ended = true ∧ wanted (m.runFor (budget + 1) s) := by
  rcases step_eq shows stands.1 with ⟨s', shows', run⟩ | ⟨fault, s', run, exhausted⟩
  · have halts : m.step s = .ok () { s' with halted := true } := run
    have last : s'.top? = some w := shows'.top? linked.memory top
    have printed : s'.printed.toList = c.printed := shows'.printed
    have ends : m.runFor (budget + 1) s = .halted { s' with halted := true } := by
      rw [runFor_of_step_ok shows.running halts]
      cases budget <;> simp [runFor]
    rw [ends]
    refine ⟨rfl, good _ ?_⟩
    rw [State.outcome, ← printed, ← last]
    rfl
  · rw [runFor_of_step_error shows.running run]
    exact ⟨rfl, lenient s' fault exhausted⟩

theorem ends_halt {wanted : Run → Prop} (lenient : m.Lenient wanted)
    (stands : (plain .halt).At m.code labels ip) (top : c.stack = w :: rest)
    (good : ∀ s : State, s.outcome = ⟨c.printed, some w, s.steps⟩ → wanted (.halted s)) :
    m.Ends wanted (ip, c) := by
  intro s shows
  exact ⟨1, halt_run linked lenient stands top good shows 0⟩

theorem safe_halt {wanted : Run → Prop} {budget : Nat} (lenient : m.Lenient wanted)
    (stands : (plain .halt).At m.code labels ip) (top : c.stack = w :: rest)
    (good : ∀ s : State, s.outcome = ⟨c.printed, some w, s.steps⟩ → wanted (.halted s)) :
    m.Safe wanted budget (ip, c) := by
  cases budget with
  | zero => exact safe_zero
  | succ budget =>
    intro s shows _
    exact (halt_run linked lenient stands top good shows budget).2

end

end ObjectLang.Machine
