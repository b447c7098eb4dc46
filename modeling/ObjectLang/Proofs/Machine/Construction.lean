import ObjectLang.Proofs.Machine.Decoding
import ObjectLang.Proofs.Machine.Control
import ObjectLang.Proofs.Machine.Regularity

/-!
How an object is made. The code that makes one moves the fields from the stack to the heap, the
topmost first, puts the table of the class above them and leaves its address on the stack. The heap
pointer is moved with the help of the stack, in the same memory; the check for collisions keeps the
two apart, so if the code runs to its end the object is where it belongs. Nothing is assumed about
the rest of the memory or the size of it.
-/
namespace ObjectLang.Machine

open Symbolic

/-- The state has the heap at the start of memory and the stack at its end, and agrees with the base
in the registers that making an object leaves alone. -/
structure Holds (base s : State) (level : Nat) (heap stack : List Word) : Prop where
  memory : ∃ free, s.memory.toList = heap ++ free ++ stack
  size : s.memory.size = base.memory.size
  sp : s.sp.toInt + stack.length = base.memory.size
  hp : s.hp.toInt = level
  below : level + stack.length < base.memory.size
  fp : s.fp = base.fp
  ra : s.ra = base.ra
  tm : s.tm = base.tm
  printed : s.printed = base.printed

structure Runs (m : Machine) (labels : Labels) (line : Line) (stop : Nat) (code : List Symbolic)
    (s s' : State) : Prop where
  stands : Code.At m.code labels s.ip (onLine line code)
  stop : s.ip + Code.width (onLine line code) = stop
  run : m.runFor code.length s = .running s'

def State.stack (s : State) : List Word := s.memory.toList.drop s.sp.toInt.toNat

/-- What making an object has done: the words are its fields, the heap ended at `h`, the stack began
at `top`, and the table of the class was at the address `d`. -/
structure Constructed (words : List Word) (h top d : Nat) (s s' : State) : Prop where
  fields : ∀ i w, words[i]? = some w → s'.memory[h + words.length - (i + 1)]? = some w
  table : s'.memory[h + words.length]? = s.memory[d]?
  hp : s'.hp.toInt = h + words.length + 1
  sp : s'.sp.toInt + 1 = top + words.length
  fp : s'.fp = s.fp
  ra : s'.ra = s.ra
  tm : s'.tm = s.tm
  printed : s'.printed = s.printed
  size : s'.memory.size = s.memory.size
  elsewhere : ∀ i, i < h ∨ top + words.length ≤ i → s'.memory[i]? = s.memory[i]?

variable {m : Machine} {labels : Labels} {line : Line} {stop level : Nat} {code : List Symbolic}
  {base s s' : State} {op : Opcode} {heap stack : List Word} {v w : Word}

/-! Small actions. -/

theorem Holds.words (holds : Holds base s level heap stack) :
    ∃ free, s.memory.toList = heap ++ free ++ stack ∧
      heap.length + free.length + stack.length = base.memory.size := by
  obtain ⟨free, words⟩ := holds.memory
  refine ⟨free, words, ?_⟩
  rw [← holds.size, ← Array.length_toList, words, List.length_append, List.length_append]

theorem Holds.getElem?_heap (holds : Holds base s level heap stack) {i : Nat}
    (inside : i < heap.length) : s.memory[i]? = heap[i]? := by
  obtain ⟨free, words⟩ := holds.memory
  rw [← Array.getElem?_toList, words, List.append_assoc, List.getElem?_append_left inside]

theorem Holds.getElem?_stack (holds : Holds base s level heap stack) {i k : Nat}
    (place : i + stack.length = base.memory.size + k) : s.memory[i]? = stack[k]? := by
  obtain ⟨free, words, total⟩ := holds.words
  have past : i = (heap ++ free).length + k := by
    rw [List.length_append]
    omega
  rw [← Array.getElem?_toList, words, past, List.getElem?_append_right (by omega),
    Nat.add_sub_cancel_left]

theorem Holds.push (holds : Holds base s level heap stack) (fits : heap.length ≤ level + 1)
    (checks : m.config.flags.checkCollision = true) (run : m.push w s = .ok () s') :
    Holds base s' level heap (w :: stack) := by
  obtain ⟨free, words, total⟩ := holds.words
  obtain ⟨i, inside, place, rfl, clear⟩ := push_ok run
  have pointer := holds.sp
  have pred : (s.sp - 1).toInt = s.sp.toInt - 1 := Word.toInt_pred (by unfold Word.limit; omega)
  have apart := Int32.lt_iff_toInt_lt.mp (clear checks)
  simp only [holds.hp] at apart
  obtain ⟨free', moved⟩ := @set_below heap free stack i w (by omega) (by omega)
  exact { holds with
    memory := ⟨free', by simp only [Array.toList_set, words, moved]⟩
    size := by simp [holds.size]
    sp := by
      simp only [List.length_cons]
      omega
    below := by
      simp only [List.length_cons]
      omega }

theorem Holds.pop (holds : Holds base s level heap (w :: stack))
    (room : base.memory.size < stack.length + Word.limit) (run : pop s = .ok v s') :
    v = w ∧ Holds base s' level heap stack := by
  obtain ⟨free, words⟩ := holds.memory
  obtain ⟨top, rfl⟩ := pop_ok run
  obtain ⟨i, place, found⟩ := top?_eq_some.mp top
  have pointer := holds.sp
  have below := holds.below
  simp only [List.length_cons] at pointer below
  have succ : (s.sp + 1).toInt = s.sp.toInt + 1 := Word.toInt_succ (by omega)
  refine ⟨?_, ?_⟩
  · rw [holds.getElem?_stack (k := 0) (by simp only [List.length_cons]; omega)] at found
    simpa using found.symm
  · exact { holds with
      memory := ⟨free ++ [w], by simp [State.drop, words]⟩
      sp := by
        show (s.sp + 1).toInt + stack.length = base.memory.size
        omega
      below := by omega }

theorem Holds.store {address : Word} (holds : Holds base s heap.length heap stack)
    (place : address.toInt = heap.length) (run : storeWord address w s = .ok () s') :
    Holds base s' heap.length (heap ++ [w]) stack := by
  obtain ⟨free, words, total⟩ := holds.words
  obtain ⟨i, inside, named, rfl⟩ := storeWord_ok run
  have below := holds.below
  obtain rfl : i = heap.length := by omega
  cases free with
  | nil =>
    simp only [List.length_nil] at total
    omega
  | cons x free =>
    exact { holds with
      memory := ⟨free, by simp [Array.toList_set, words]⟩
      size := by simp [holds.size] }

/-! Instructions. -/

theorem Holds.counted (holds : Holds base s level heap stack) (steps ip : Nat) :
    Holds base { s with steps := steps, ip := ip } level heap stack :=
  { holds with }

/-- The stack pointer is a word, so the memory below the stack is within the range of words. -/
theorem Holds.room (holds : Holds base s level heap stack) :
    base.memory.size < stack.length + Word.limit := by
  have pointer := holds.sp
  have high := s.sp.toInt_lt
  unfold Word.limit
  omega

theorem runFor_succ {budget : Nat} (run : m.runFor (budget + 1) s = .running s') :
    ∃ s₁, m.step s = .ok () s₁ ∧ s.halted = false ∧ m.runFor budget s₁ = .running s' := by
  unfold runFor at run
  cases halted : s.halted with
  | true => simp [halted] at run
  | false =>
    simp only [halted, Bool.false_eq_true, if_false] at run
    cases step : m.step s with
    | error fault s₁ => simp [step] at run
    | ok done s₁ =>
      rw [step] at run
      exact ⟨s₁, rfl, rfl, run⟩

theorem Runs.next {i : Symbolic} {instr : Instr}
    (runs : m.Runs labels line stop (i :: code) s s')
    (decoded : Image.decodeAt ⟨m.code.toList, []⟩ s.ip = .ok instr) (same : instr.op = i.op)
    (forward : i.op.isJump = false) :
    ∃ s₁,
      m.perform s.ip instr { s with steps := s.steps + 1, ip := s.ip + i.op.width } = .ok () s₁ ∧
      m.Runs labels line stop code s₁ s' := by
  obtain ⟨s₁, step, running, rest⟩ := runFor_succ runs.run
  have left : ∀ limit, m.config.maxSteps = some limit → s.steps < limit := by
    intro limit known
    by_contra beyond
    have exhausted : m.exhausted? s = some limit := by
      simp [exhausted?, known, Option.filter]
      omega
    simp [Machine.step, running, exhausted] at step
  rw [step_decoded running left decoded, same] at step
  refine ⟨s₁, step, ?_⟩
  have moved : s₁.ip = s.ip + i.op.width :=
    ip_perform_forward (by rw [same]; exact forward) step
  obtain ⟨_, stands⟩ := at_onLine_cons.mp runs.stands
  have ends := runs.stop
  rw [width_onLine_cons, ← Nat.add_assoc, ← moved] at ends
  rw [← moved] at stands
  exact ⟨stands, ends, rest⟩

theorem decodeAt_push {ip : Nat} (stands : (Symbolic.push w).At m.code labels ip) :
    Image.decodeAt ⟨m.code.toList, []⟩ ip = .ok ⟨.push, some w⟩ := by
  obtain ⟨opcode, operand⟩ := stands
  simp only [Symbolic.push] at opcode operand
  simp [Image.decodeAt, opcode, operand, Opcode.ofWord?_toWord, Opcode.hasOperand]

theorem decodeAt_plain {ip : Nat} (stands : (plain op).At m.code labels ip)
    (bare : op.hasOperand = false) :
    Image.decodeAt ⟨m.code.toList, []⟩ ip = .ok ⟨op, none⟩ := by
  have opcode : m.code[ip]? = some op.toWord := stands.1
  simp [Image.decodeAt, opcode, Opcode.ofWord?_toWord, bare]

theorem Runs.plain (runs : m.Runs labels line stop (plain op :: code) s s')
    (bare : op.hasOperand = false) (forward : op.isJump = false) :
    ∃ s₁, m.exec s.ip op { s with steps := s.steps + 1, ip := s.ip + 1 } = .ok () s₁ ∧
      m.Runs labels line stop code s₁ s' := by
  have decoded := decodeAt_plain (at_onLine_cons.mp runs.stands).1 bare
  obtain ⟨s₁, run, rest⟩ := runs.next decoded rfl forward
  have one : (Symbolic.plain op).op.width = 1 := by simp [Symbolic.plain, Opcode.width, bare]
  rw [← exec_bare bare, one] at run
  exact ⟨s₁, run, rest⟩

theorem Runs.storeW (runs : m.Runs labels line stop (Symbolic.plain .storeW :: code) s s')
    (holds : Holds base s heap.length heap (w :: v :: stack)) (named : w.toInt = heap.length)
    (room : base.memory.size < stack.length + Word.limit) :
    ∃ s₁, m.Runs labels line stop code s₁ s' ∧ Holds base s₁ heap.length (heap ++ [v]) stack := by
  obtain ⟨s₁, run, rest⟩ := runs.plain rfl rfl
  obtain ⟨address, s₂, first, run⟩ := bind_eq_ok run
  obtain ⟨rfl, holds₁⟩ := (holds.counted _ _).pop (by simp only [List.length_cons]; omega) first
  obtain ⟨value, s₃, second, run⟩ := bind_eq_ok run
  obtain ⟨rfl, holds₂⟩ := holds₁.pop room second
  exact ⟨s₁, rest, holds₂.store named run⟩

theorem Runs.done (runs : m.Runs labels line stop [] s s') : s' = s ∧ s.ip = stop := by
  have run := runs.run
  simp only [List.length_nil, runFor] at run
  split at run <;> cases run
  exact ⟨rfl, runs.stop⟩

section Checked

variable (checks : m.config.flags.checkCollision = true)
include checks

theorem Runs.push (runs : m.Runs labels line stop (Symbolic.push w :: code) s s')
    (holds : Holds base s level heap stack) (fits : heap.length ≤ level + 1) :
    ∃ s₁, m.Runs labels line stop code s₁ s' ∧ Holds base s₁ level heap (w :: stack) := by
  have decoded := decodeAt_push (at_onLine_cons.mp runs.stands).1
  obtain ⟨s₁, run, rest⟩ := runs.next decoded rfl rfl
  exact ⟨s₁, rest, (holds.counted _ _).push fits checks run⟩

theorem Runs.loadHp (runs : m.Runs labels line stop (Symbolic.plain .loadHp :: code) s s')
    (holds : Holds base s level heap stack) (fits : heap.length ≤ level + 1) :
    ∃ (pointer : Word) (s₁ : State), pointer.toInt = level ∧ m.Runs labels line stop code s₁ s' ∧
      Holds base s₁ level heap (pointer :: stack) := by
  obtain ⟨s₁, run, rest⟩ := runs.plain rfl rfl
  obtain ⟨_, s₂, read, run⟩ := bind_eq_ok run
  cases read
  exact ⟨s.hp, s₁, holds.hp, rest, (holds.counted _ _).push fits checks run⟩

theorem Runs.add (runs : m.Runs labels line stop (Symbolic.plain .add :: code) s s')
    (holds : Holds base s level heap (w :: v :: stack)) (fits : heap.length ≤ level + 1)
    (room : base.memory.size < stack.length + Word.limit) :
    ∃ s₁, m.Runs labels line stop code s₁ s' ∧ Holds base s₁ level heap ((v + w) :: stack) := by
  obtain ⟨s₁, run, rest⟩ := runs.plain rfl rfl
  obtain ⟨upper, s₂, first, run⟩ := bind_eq_ok run
  obtain ⟨rfl, holds₁⟩ := (holds.counted _ _).pop (by simp only [List.length_cons]; omega) first
  obtain ⟨lower, s₃, second, run⟩ := bind_eq_ok run
  obtain ⟨rfl, holds₂⟩ := holds₁.pop room second
  exact ⟨s₁, rest, holds₂.push fits checks run⟩

theorem Runs.loadW (runs : m.Runs labels line stop (Symbolic.plain .loadW :: code) s s')
    (holds : Holds base s level heap (w :: stack)) (fits : heap.length ≤ level + 1)
    (room : base.memory.size < stack.length + Word.limit) {place : Nat}
    (named : w.toInt + stack.length = base.memory.size + place) (found : stack[place]? = some v) :
    ∃ s₁, m.Runs labels line stop code s₁ s' ∧ Holds base s₁ level heap (v :: stack) := by
  obtain ⟨s₁, run, rest⟩ := runs.plain rfl rfl
  obtain ⟨address, s₂, first, run⟩ := bind_eq_ok run
  obtain ⟨rfl, holds₁⟩ := (holds.counted _ _).pop room first
  obtain ⟨loaded, s₃, second, run⟩ := bind_eq_ok run
  obtain ⟨rfl, i, same, read⟩ := loadWord_ok second
  rw [holds₁.getElem?_stack (k := place) (by omega), found] at read
  cases read
  exact ⟨s₁, rest, holds₁.push fits checks run⟩

theorem Runs.storeHp (runs : m.Runs labels line stop (Symbolic.plain .storeHp :: code) s s')
    (holds : Holds base s level heap (w :: stack)) {next : Nat} (named : w.toInt = next)
    (room : base.memory.size < stack.length + Word.limit) :
    ∃ s₁, m.Runs labels line stop code s₁ s' ∧ Holds base s₁ next heap stack := by
  obtain ⟨s₁, run, rest⟩ := runs.plain rfl rfl
  obtain ⟨pointer, s₂, first, run⟩ := bind_eq_ok run
  obtain ⟨rfl, holds₁⟩ := (holds.counted _ _).pop room first
  obtain ⟨_, s₃, moved, run⟩ := bind_eq_ok run
  cases moved
  obtain ⟨rfl, clear⟩ := checkCollision_ok run
  have apart := Int32.lt_iff_toInt_lt.mp (clear checks)
  have pointer := holds₁.sp
  simp only [named] at apart
  exact ⟨_, rest, { holds₁ with hp := named, below := by omega }⟩

/-! Sequences. -/

theorem Runs.heapBump (runs : m.Runs labels line stop (Sequence.heapBump ++ code) s s')
    (holds : Holds base s level heap stack) (ahead : heap.length = level + 1) :
    ∃ s₁, m.Runs labels line stop code s₁ s' ∧ Holds base s₁ heap.length heap stack := by
  have room := holds.room
  obtain ⟨pointer, s₁, named, runs, holds⟩ := runs.loadHp checks holds (by omega)
  obtain ⟨s₂, runs, holds⟩ := runs.push checks holds (by omega)
  obtain ⟨s₃, runs, holds⟩ := runs.add checks holds (by omega) room
  have below := holds.below
  simp only [List.length_cons] at below
  have next : (pointer + 1).toInt = heap.length := by
    rw [Word.toInt_succ (by omega)]
    omega
  exact runs.storeHp checks holds next room

theorem Runs.heapStore (runs : m.Runs labels line stop (Sequence.heapStore ++ code) s s')
    (holds : Holds base s heap.length heap (w :: stack))
    (room : base.memory.size < stack.length + Word.limit) :
    ∃ s₁, m.Runs labels line stop code s₁ s' ∧
      Holds base s₁ (heap ++ [w]).length (heap ++ [w]) stack := by
  obtain ⟨pointer, s₁, named, runs, holds⟩ := runs.loadHp checks holds (by omega)
  obtain ⟨s₂, runs, holds⟩ := runs.storeW holds named room
  exact runs.heapBump checks holds (by simp)

theorem Runs.heapStores {words : List Word} (runs : m.Runs labels line stop
      ((List.replicate words.length Sequence.heapStore).flatten ++ code) s s')
    (holds : Holds base s heap.length heap (words ++ stack))
    (room : base.memory.size < stack.length + Word.limit) :
    ∃ s₁, m.Runs labels line stop code s₁ s' ∧
      Holds base s₁ (heap ++ words).length (heap ++ words) stack := by
  induction words generalizing s heap with
  | nil =>
    refine ⟨s, runs, ?_⟩
    rw [List.append_nil]
    exact holds
  | cons w words ih =>
    rw [List.length_cons, List.replicate_succ, List.flatten_cons, List.append_assoc] at runs
    have more : base.memory.size < (words ++ stack).length + Word.limit := by
      rw [List.length_append]
      omega
    obtain ⟨s₁, runs, holds⟩ := runs.heapStore checks holds more
    obtain ⟨s₂, runs, holds⟩ := ih runs holds
    rw [List.append_assoc, List.singleton_append] at holds
    exact ⟨s₂, runs, holds⟩

theorem Runs.newTail {g : Word} {b : Binding} {words : List Word} {place : Nat}
    (runs : m.Runs labels line stop (Expr.newTail g words.length b) s s')
    (holds : Holds base s heap.length heap (words ++ stack))
    (named : (g + b.offset).toInt + stack.length = base.memory.size + place)
    (found : stack[place]? = some w) :
    s'.ip = stop ∧ ∃ pointer : Word, pointer.toInt = (heap ++ words).length ∧
      Holds base s' (heap ++ words ++ [w]).length (heap ++ words ++ [w]) (pointer :: stack) := by
  have high := (g + b.offset).toInt_lt
  have room : base.memory.size < stack.length + Word.limit := by
    unfold Word.limit
    omega
  rw [Expr.newTail, List.append_assoc] at runs
  obtain ⟨s₁, runs, holds⟩ := runs.heapStores checks holds room
  obtain ⟨s₂, runs, holds⟩ := runs.push checks holds (by omega)
  obtain ⟨s₃, runs, holds⟩ := runs.loadW checks holds (by omega) room named found
  obtain ⟨place, s₄, placed, runs, holds⟩ := runs.loadHp checks holds (by omega)
  obtain ⟨s₅, runs, holds⟩ := runs.storeW holds placed room
  have longer : (heap ++ words ++ [w]).length = (heap ++ words).length + 1 := List.length_append
  obtain ⟨pointer, s₆, named, runs, holds⟩ := runs.loadHp checks holds (by omega)
  have bump : m.Runs labels line stop (Sequence.heapBump ++ []) s₆ s' := runs
  obtain ⟨s₇, runs, holds⟩ := bump.heapBump checks holds longer
  obtain ⟨rfl, stopped⟩ := runs.done
  exact ⟨stopped, pointer, named, holds⟩

theorem Runs.below {g : Word} {b : Binding} {fields top : Nat}
    (runs : m.Runs labels line stop (Expr.newTail g fields b) s s') (sp : s.sp.toInt = top) :
    s.hp.toInt + 1 < top := by
  have pushed {w : Word} {ip : Nat} {s₁ : State}
      (run : m.push w { s with steps := s.steps + 1, ip := ip } = .ok () s₁) :
      s.hp.toInt + 1 < top := by
    obtain ⟨i, inside, place, rfl, clear⟩ := push_ok run
    have apart := Int32.lt_iff_toInt_lt.mp (clear checks)
    have pred : (s.sp - 1).toInt = s.sp.toInt - 1 := Word.toInt_pred (by unfold Word.limit; omega)
    simp only [pred] at apart
    omega
  cases fields with
  | zero =>
    obtain ⟨s₁, run, _⟩ := runs.next (decodeAt_push (at_onLine_cons.mp runs.stands).1) rfl rfl
    exact pushed run
  | succ fields =>
    obtain ⟨s₁, run, _⟩ := Runs.plain runs rfl rfl
    obtain ⟨_, _, read, run⟩ := bind_eq_ok run
    cases read
    exact pushed run

end Checked

theorem holds_start {h top : Nat} (hp : s.hp.toInt = h) (sp : s.sp.toInt = top)
    (below : h + 1 < top) (inside : top ≤ s.memory.size) :
    Holds s s h (s.memory.toList.take h) s.stack := by
  have start : s.stack = s.memory.toList.drop top := by rw [State.stack, sp, Int.toNat_natCast]
  have long : s.stack.length = s.memory.size - top := by
    rw [start, List.length_drop, Array.length_toList]
  exact {
    memory := by
      refine ⟨(s.memory.toList.drop h).take (top - h), ?_⟩
      have past : s.memory.toList.drop top = (s.memory.toList.drop h).drop (top - h) := by
        rw [List.drop_drop, Nat.add_sub_cancel' (by omega)]
      rw [start, past, List.append_assoc, List.take_append_drop, List.take_append_drop]
    size := rfl
    sp := by omega
    hp := hp
    below := by omega
    fp := rfl
    ra := rfl
    tm := rfl
    printed := rfl }

theorem Holds.stack_eq (holds : Holds base s level heap stack) : s.stack = stack := by
  obtain ⟨free, words, total⟩ := holds.words
  have pointer := holds.sp
  have start : s.sp.toInt.toNat = (heap ++ free).length := by
    rw [List.length_append]
    omega
  rw [State.stack, words, start, List.drop_left]

theorem Holds.getElem?_rest {words rest : List Word} {top : Nat} (sp : s.sp.toInt = top)
    (holds : Holds s s level heap (words ++ rest)) (k : Nat) :
    s.memory[top + words.length + k]? = rest[k]? := by
  have pointer := holds.sp
  rw [List.length_append] at pointer
  have place : s.memory[top + words.length + k]? = (words ++ rest)[words.length + k]? :=
    holds.getElem?_stack (by rw [List.length_append]; omega)
  rw [place, List.getElem?_append_right (by omega), Nat.add_sub_cancel_left]

theorem Holds.constructed {words rest : List Word} {h top d : Nat} {table pointer : Word}
    (start : Holds s s h heap (words.reverse ++ rest)) (level : heap.length = h)
    (sp : s.sp.toInt = top) (found : s.memory[d]? = some table)
    (holds : Holds s s' (heap ++ words.reverse ++ [table]).length
      (heap ++ words.reverse ++ [table]) (pointer :: rest)) :
    Constructed words h top d s s' := by
  have long : (heap ++ words.reverse ++ [table]).length = h + words.length + 1 := by
    simp [level]
    omega
  have began := start.sp
  simp only [List.length_append, List.length_reverse] at began
  exact {
    fields := by
      intro i w listed
      obtain ⟨inside, _⟩ := List.getElem?_eq_some_iff.mp listed
      have place : h + words.length - (i + 1) = heap.length + (words.length - 1 - i) := by omega
      rw [holds.getElem?_heap (by omega), place, List.append_assoc,
        List.getElem?_append_right (by omega), Nat.add_sub_cancel_left,
        List.getElem?_append_left (by rw [List.length_reverse]; omega),
        List.getElem?_reverse (by omega), ← listed]
      congr 1
      omega
    table := by
      have place : h + words.length = (heap ++ words.reverse).length := by simp [level]
      rw [holds.getElem?_heap (by omega), found, place, List.getElem?_concat_length]
    hp := by rw [holds.hp, long]; rfl
    sp := by
      have ended := holds.sp
      simp only [List.length_cons] at ended
      omega
    fp := holds.fp
    ra := holds.ra
    tm := holds.tm
    printed := holds.printed
    size := holds.size
    elsewhere := by
      rintro i (low | high)
      · rw [holds.getElem?_heap (by omega), start.getElem?_heap (by omega), List.append_assoc,
          List.getElem?_append_left (by omega)]
      · obtain ⟨k, rfl⟩ : ∃ k, i = top + words.length + k := ⟨i - (top + words.length), by omega⟩
        have after : s'.memory[top + words.length + k]? = (pointer :: rest)[k + 1]? :=
          holds.getElem?_stack (by simp only [List.length_cons]; omega)
        have before := start.getElem?_rest sp k
        rw [List.length_reverse] at before
        rw [after, before, List.getElem?_cons_succ] }

theorem toInt_add_fieldOffset {p : Word} {i : Nat} (positive : (i : Int) < p.toInt) :
    (p + Layout.fieldOffset i).toInt = p.toInt - (i + 1) := by
  have high := p.toInt_lt
  rw [Int32.toInt_add, Layout.toInt_fieldOffset (by unfold Word.limit; omega),
    Int.bmod_eq_of_le (by omega) (by omega)]
  omega

theorem Runs.constructs {g : Word} {b : Binding} {words rest : List Word} {h top d : Nat}
    (runs : m.Runs labels line stop (Expr.newTail g words.length b) s s')
    (checks : m.config.flags.checkCollision = true) (hp : s.hp.toInt = h) (sp : s.sp.toInt = top)
    (stack : s.stack = words.reverse ++ rest) (slot : (g + b.offset).toInt = d)
    (above : top + words.length ≤ d) (inside : d < s.memory.size) :
    s'.ip = stop ∧ Constructed words h top d s s' ∧
      ∃ pointer : Word, pointer.toInt = h + words.length ∧ s'.stack = pointer :: rest := by
  have below := runs.below checks sp
  have start := holds_start hp sp (by omega) (by omega)
  rw [stack] at start
  have level : (s.memory.toList.take h).length = h := by
    rw [List.length_take, Array.length_toList]
    omega
  obtain ⟨place, rfl⟩ : ∃ place, d = top + words.length + place :=
    ⟨d - (top + words.length), by omega⟩
  obtain ⟨table, found⟩ : ∃ table, s.memory[top + words.length + place]? = some table :=
    ⟨_, Array.getElem?_eq_getElem inside⟩
  have stored := start.getElem?_rest sp place
  rw [List.length_reverse, found] at stored
  rw [← List.length_reverse] at runs
  have begun := start.sp
  simp only [List.length_append, List.length_reverse] at begun
  obtain ⟨ended, pointer, named, holds⟩ := runs.newTail checks (by rw [level]; exact start)
    (by omega) stored.symm
  rw [List.length_append, List.length_reverse, level] at named
  exact ⟨ended, start.constructed level sp found holds, pointer, by omega, holds.stack_eq⟩

/-- An object is laid out as the code that uses it expects. Where the code of an object expression
has put the arguments on the stack and the rest of it runs to its end, the fields are below the
table of the class in the order of the arguments, the stack has the address of the table instead of
the arguments, and nothing else has changed outside the space between heap and stack. -/
theorem new_constructs (m : Machine) (labels : Labels) (line : Line) (g : Word) (cls : String)
    (args : List Expr) (b : Binding) (supply supply' : Supply) (argCode code : Code)
    (words rest : List Word) (address h top d : Nat) (s s' : State)
    (lowered : Lower.Yields ((Expr.new line cls args (some b)).code g) supply code supply')
    (arguments : Lower.Yields (Expr.argsForward g args) supply argCode supply')
    (stands : Code.At m.code labels address code) (ip : s.ip = address + Code.width argCode)
    (checks : m.config.flags.checkCollision = true) (hp : s.hp.toInt = h) (sp : s.sp.toInt = top)
    (count : words.length = args.length) (stack : s.stack = words.reverse ++ rest)
    (slot : (g + b.offset).toInt = d) (above : top + words.length ≤ d) (inside : d < s.memory.size)
    (run : m.runFor (code.length - argCode.length) s = .running s') :
    s'.ip = address + Code.width code ∧ Constructed words h top d s s' ∧
    ∃ pointer : Word, pointer.toInt = h + words.length ∧ s'.stack = pointer :: rest ∧
      (∃ table, s.memory[d]? = some table ∧ loadWord pointer s' = .ok table s') ∧
      ∀ i w, words[i]? = some w → loadWord (pointer + Layout.fieldOffset i) s' = .ok w s' := by
  obtain ⟨_, _, before, same, _, again, rfl⟩ := Expr.yields_new.mp lowered
  cases same
  cases again.symm.trans arguments
  rw [← count] at stands run ⊢
  have runs : m.Runs labels line (address + Code.width (argCode ++ onLine line
      (Expr.newTail g words.length b))) (Expr.newTail g words.length b) s s' := {
    stands := by
      rw [ip]
      exact (Code.at_append.mp stands).2
    stop := by rw [ip, Code.width_append, Nat.add_assoc]
    run := by
      rw [List.length_append, Nat.add_sub_cancel_left, onLine, List.length_map] at run
      exact run }
  obtain ⟨ended, constructed, pointer, named, stack⟩ :=
    runs.constructs checks hp sp stack slot above inside
  obtain ⟨table, found⟩ : ∃ table, s.memory[d]? = some table :=
    ⟨_, Array.getElem?_eq_getElem inside⟩
  refine ⟨ended, constructed, pointer, named, stack, ⟨table, found, ?_⟩, ?_⟩
  · exact loadWord_of_getElem? (Word.index?_eq_some.mpr (by omega)) (constructed.table.trans found)
  · intro i w listed
    obtain ⟨inside, _⟩ := List.getElem?_eq_some_iff.mp listed
    have address := toInt_add_fieldOffset (p := pointer) (i := i) (by omega)
    exact loadWord_of_getElem? (Word.index?_eq_some.mpr (by omega)) (constructed.fields i w listed)

def makesPair : Machine :=
  ⟨{ memorySize := 12, flags := { checkCollision := true } },
    #[0, 5, 0, 6, 20, 6, 20, 0, 1, 2, 19, 20, 6, 20, 0, 1, 2, 19, 0, 10, 7, 20, 6, 20, 20, 0, 1, 2,
      19]⟩

def beforePair : State :=
  { makesPair.start with
    memory := #[9, 0, 0, 0, 0, 0, 0, 0, 6, 5, 77, 3], ip := 4, sp := 8, hp := 1 }

def pairClass : Binding := { level := 0, ty := .cls ⟨[.int, .int], []⟩, offset := -2 }

theorem new_constructs_makesPair : ∃ s',
    makesPair.runFor 21 beforePair = .running s' ∧
    s'.memory = #[9, 6, 5, 77, 0, 0, 0, 1, 4, 3, 77, 3] ∧
    Constructed [5, 6] 1 8 10 beforePair s' := by
  have arguments : Lower.Yields (Expr.argsForward 12 [.int 1 5, .int 1 6]) {}
      (onLine 1 [Symbolic.push 5, Symbolic.push 6]) {} := rfl
  have lowered : Lower.Yields
      ((Expr.new 1 "Pair" [.int 1 5, .int 1 6] (some pairClass)).code 12) {}
      (onLine 1 ([Symbolic.push 5, Symbolic.push 6] ++ Expr.newTail 12 2 pairClass)) {} := rfl
  have stands : Code.At makesPair.code {} 0
      (onLine 1 ([Symbolic.push 5, Symbolic.push 6] ++ Expr.newTail 12 2 pairClass)) := by
    repeat' constructor
  refine ⟨_, rfl, rfl, ?_⟩
  have made := new_constructs makesPair {} 1 12 "Pair" _ pairClass {} {} _ _ [5, 6] [77, 3] 0 1 8 10
    beforePair _ lowered arguments stands rfl rfl rfl rfl rfl rfl rfl (by decide) (by decide) rfl
  exact made.2.1

end ObjectLang.Machine
