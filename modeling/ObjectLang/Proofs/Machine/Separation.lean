import Mathlib.Logic.Function.Iterate
import Mathlib.Logic.Relation
import ObjectLang.Proofs.Machine.Effects
import ObjectLang.Proofs.Machine.Regularity

/-!
Heap and stack stay apart. With the check for collisions the heap pointer is below the stack pointer
after every step that succeeds: the check is made where the stack grows and where the heap pointer
is set, and nothing else brings the two together. An instruction that does not store in memory
itself writes only where it puts its result, on top of the stack.
-/
namespace ObjectLang

namespace Machine

variable {m : Machine} {s s' : State} {act : Act} {start : Nat} {op : Opcode} {words : List Word}

structure Apart (m : Machine) (s : State) : Prop where
  bounded : m.Bounded s
  below : s.hp < s.sp

theorem Apart.counted (apart : m.Apart s) (steps ip : Nat) :
    m.Apart { s with steps := steps, ip := ip } :=
  ⟨⟨apart.bounded.memory, apart.bounded.low, apart.bounded.high⟩, apart.below⟩

theorem Acts.memory (acts : Acts m s act (.ok () s')) (fits : act.Fits start op words)
    (other : op ≠ .storeW) {i : Nat}
    (outside : (i : Int) < s'.sp.toInt ∨ s'.sp.toInt + op.given ≤ i) :
    s'.memory[i]? = s.memory[i]? := by
  cases acts with
  | @pushed _ w j gives place inside clear =>
    have one : op.given = 1 := by cases gives <;> exact fits
    have elsewhere : j ≠ i := by
      simp only at outside
      omega
    exact Array.getElem?_set_ne inside elsewhere
  | stored => exact absurd fits.1 other
  | _ => rfl

/-- The check for collisions is made where the stack grows and where the heap pointer is set. -/
theorem Acts.below (acts : Acts m s act (.ok () s'))
    (checks : m.config.flags.checkCollision = true) :
    s'.hp < s'.sp ∨ (s'.hp = s.hp ∧ s'.sp = s.sp) := by
  cases acts with
  | pushed gives place inside clear => exact .inl (clear checks)
  | hp clear => exact .inl (clear checks)
  | _ => exact .inr ⟨rfl, rfl⟩

theorem bounded_exec (small : m.config.memorySize < Word.limit) (bounded : m.Bounded s)
    (run : m.exec start op s = .ok () s') : m.Bounded s' := by
  have steady := (steady_lifts m).exec (steady_parts small ⟨fun _ => pure (), pure 0⟩) start op
  obtain ⟨_, evolves⟩ := steady s bounded
  rw [← exec_parts, run] at evolves
  exact evolves.bounded

theorem memory_exec (run : m.exec start op s = .ok () s') (other : op ≠ .storeW) {i : Nat}
    (outside : (i : Int) < s'.sp.toInt ∨ s'.sp.toInt + op.given ≤ i) :
    s'.memory[i]? = s.memory[i]? := by
  obtain ⟨operand, ip, performed⟩ := exec_performs m start op s
  rw [run] at performed
  cases performed with
  | acted read _ _ taken acts => exact acts.memory (fits_act start read taken) other outside

theorem apart_exec (checks : m.config.flags.checkCollision = true)
    (small : m.config.memorySize < Word.limit) (apart : m.Apart s)
    (run : m.exec start op s = .ok () s') : m.Apart s' := by
  refine ⟨bounded_exec small apart.bounded run, ?_⟩
  obtain ⟨operand, ip, performed⟩ := exec_performs m start op s
  rw [run] at performed
  cases performed with
  | @acted _ words _ read _ tops taken acts =>
    rcases acts.below checks with below | ⟨hp, sp⟩
    · exact below
    · have dropped := (apart.counted s.steps ip).bounded.toInt_sp_drop small tops
      have below := Int32.lt_iff_toInt_lt.mp apart.below
      rw [hp, sp, Int32.lt_iff_toInt_lt, ← taken, dropped]
      show s.hp.toInt < s.sp.toInt + words.length
      omega

theorem step_ok (run : m.step s = .ok () s') :
    (s' = s ∧ s.halted = true) ∨ ∃ op, m.nextOpcode? s = some op ∧
      m.exec s.ip op { s with steps := s.steps + 1, ip := s.ip + 1 } = .ok () s' := by
  have stepped := steps m s
  rw [run] at stepped
  cases stepped with
  | halted ended => exact .inl ⟨rfl, ended⟩
  | executed next done => exact .inr ⟨_, next, done⟩

/-- Between bounded states the stack pointer moves by the difference of the words that are given and
taken, without wrapping. -/
theorem toInt_sp_exec (small : m.config.memorySize < Word.limit)
    (bounded : m.Bounded s) (bounded' : m.Bounded s') (run : m.exec start op s = .ok () s') :
    s'.sp.toInt = s.sp.toInt + op.taken - op.given := by
  have effect : -2 ≤ op.effect ∧ op.effect ≤ 1 := by cases op <;> decide
  have moved := congrArg Int32.toInt (raises_exec m start op s () s' run)
  rw [Int32.toInt_sub, Int32.toInt_ofInt_of_le (by omega) (by omega), Int.bmod_def] at moved
  rw [op.effect_eq] at moved effect
  have low := bounded.low
  have high := bounded.high
  have low' := bounded'.low
  unfold Word.limit at small
  split at moved
  · omega
  · omega

def popped (m : Machine) (s : State) : Nat := ((m.nextOpcode? s).map Opcode.taken).getD 0

theorem step_spares (checks : m.config.flags.checkCollision = true)
    (small : m.config.memorySize < Word.limit) (apart : m.Apart s) (run : m.step s = .ok () s')
    (other : m.nextOpcode? s ≠ some .storeW) {address : Nat}
    (spared : ((address : Int) < s.hp.toInt ∧ (address : Int) < s'.hp.toInt) ∨
      s.sp.toInt + m.popped s ≤ address) : s'.memory[address]? = s.memory[address]? := by
  rcases step_ok run with ⟨rfl, _⟩ | ⟨op, next, done⟩
  · rfl
  · have opcode : op ≠ .storeW := fun same => other (same ▸ next)
    have counted := apart.counted (s.steps + 1) (s.ip + 1)
    have apart' := apart_exec checks small counted done
    have moved := toInt_sp_exec small counted.bounded apart'.bounded done
    have below := Int32.lt_iff_toInt_lt.mp apart'.below
    have words : m.popped s = op.taken := by simp [popped, next]
    -- The word that is put on the stack is above the heap as the step leaves it, and below the words
    -- of the stack that the step has not taken.
    apply memory_exec done opcode
    simp only at moved
    omega

theorem step_apart (checks : m.config.flags.checkCollision = true)
    (small : m.config.memorySize < Word.limit) (apart : m.Apart s) (run : m.step s = .ok () s') :
    m.Apart s' := by
  rcases step_ok run with ⟨rfl, _⟩ | ⟨op, _, done⟩
  · exact apart
  · exact apart_exec checks small (apart.counted (s.steps + 1) (s.ip + 1)) done

def Succeeds (m : Machine) (s s' : State) : Prop := m.step s = .ok () s'

theorem succeeds_of_call (clean : (m.call s).1 = none) : m.Succeeds s (m.call s).2 := by
  unfold call at clean ⊢
  cases run : m.step s with
  | error fault s' => simp [run] at clean
  | ok done s' => exact run

theorem succeeds_iterate {count : Nat}
    (clean : ∀ i < count, (m.call ((fun s => (m.call s).2)^[i] s)).1 = none) :
    Relation.ReflTransGen m.Succeeds s ((fun s => (m.call s).2)^[count] s) := by
  induction count with
  | zero => exact .refl
  | succ count ih =>
    rw [Function.iterate_succ_apply']
    have before := ih fun i early => clean i (by omega)
    exact before.tail (succeeds_of_call (clean count (by omega)))

theorem apart_of_succeeds (checks : m.config.flags.checkCollision = true)
    (small : m.config.memorySize < Word.limit) (used : 1 ≤ m.config.memorySize)
    (reached : Relation.ReflTransGen m.Succeeds m.start s) : m.Apart s := by
  induction reached with
  | refl =>
    refine ⟨(regular_start small).bounded, ?_⟩
    show (0 : Word) < Word.ofSize m.config.memorySize
    rw [Word.ofSize_eq small, Int32.lt_iff_toInt_lt, Int32.toInt_ofNat_of_lt small]
    have zero : (0 : Word).toInt = 0 := rfl
    omega
  | tail _ run apart => exact step_apart checks small apart run

/-- With the check for collisions the heap stays below the stack as long as steps succeed, and a
step leaves alone what lies below the heap pointer, before and after it, and what lies on the stack
below the words it takes; a store is the only exception. -/
theorem heap_below_stack (config : Config) (p : Image) (m : Machine) (s : State)
    (loaded : load config p = .ok m) (checks : config.flags.checkCollision = true)
    (used : 1 ≤ config.memorySize) (small : config.memorySize < Word.limit)
    (reached : Relation.ReflTransGen m.Succeeds m.start s) :
    s.hp < s.sp ∧
      ∀ s', m.step s = .ok () s' → m.nextOpcode? s ≠ some .storeW → ∀ address : Nat,
        ((address : Int) < s.hp.toInt ∧ (address : Int) < s'.hp.toInt) ∨
          s.sp.toInt + m.popped s ≤ address →
        s'.memory[address]? = s.memory[address]? := by
  obtain rfl : m.config = config := by
    unfold load at loaded
    split at loaded
    · cases loaded
    · cases loaded
      rfl
  have apart := apart_of_succeeds checks small used reached
  refine ⟨apart.below, ?_⟩
  intro s' run other address spared
  exact step_spares checks small apart run other spared

def sumAboveHeap : Image := ⟨[0, 9, 0, 5, 0, 1, 19, 0, 7, 2, 22], []⟩

theorem heap_below_stack_sumAboveHeap :
    ∃ m s s', load { memorySize := 5, flags := { checkCollision := true } } sumAboveHeap = .ok m ∧
      Relation.ReflTransGen m.Succeeds m.start s ∧ m.nextOpcode? s = some .add ∧
      m.step s = .ok () s' ∧ s.memory.toList = [0, 0, 7, 5, 9] ∧
      s'.memory.toList = [0, 0, 7, 12, 9] ∧ s.hp < s.sp ∧
      s'.memory[0]? = s.memory[0]? ∧ s'.memory[4]? = s.memory[4]? := by
  let config : Config := { memorySize := 5, flags := { checkCollision := true } }
  let m : Machine := ⟨config, sumAboveHeap.words.toArray⟩
  let next (s : State) : State := (m.call s).2
  let s := next^[5] m.start
  have clean : ∀ i < 6, (m.call (next^[i] m.start)).1 = none := by decide +kernel
  have reached : Relation.ReflTransGen m.Succeeds m.start s :=
    succeeds_iterate fun i early => clean i (by omega)
  have run : m.step s = .ok () (next s) := succeeds_of_call (clean 5 (by decide))
  have other : m.nextOpcode? s = some .add := by decide +kernel
  obtain ⟨below, spared⟩ :=
    heap_below_stack config sumAboveHeap m s rfl rfl (by decide) (by decide) reached
  have heap := spared (next s) run (by simp [other]) 0 (by decide +kernel)
  have stack := spared (next s) run (by simp [other]) 4 (by decide +kernel)
  exact ⟨m, s, next s, rfl, reached, other, run, by decide +kernel, by decide +kernel, below, heap,
    stack⟩

end Machine

end ObjectLang
