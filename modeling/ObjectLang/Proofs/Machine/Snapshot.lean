import ObjectLang.Machine.Run
import ObjectLang.Proofs.Word

/-!
Machine states read as heap and stack. A snapshot has the heap as a list from address 0 upward and
the stack as a list from the top down; what lies between them is free. Actions of the machine are
described by what they do to snapshots. Wherever a word is pushed the machine may run out of
memory, and wherever it steps it may run out of steps: this is one of the outcomes of an action and
not a condition on the snapshot, so that it has to be considered only where a run ends.
-/
namespace ObjectLang.Machine

structure Snapshot where
  heap : List Word
  /-- The heap pointer. While a word is stored, the heap is one word ahead of it. -/
  hp : Nat
  /-- The top of the stack comes first. -/
  stack : List Word
  fp : Word
  ra : Word
  tm : Word
  printed : List Word

abbrev Point := Nat × Snapshot

/-- The free words between heap and stack. Without the check for collisions the heap stays unused;
with it the heap pointer is below the stack, except that at first the memory may have no words. -/
structure Room (m : Machine) (c : Snapshot) : Prop where
  ahead : c.heap.length ≤ c.hp + 1
  apart : (c.hp = 0 ∧ c.heap = [] ∧ (m.config.flags.checkCollision = true → c.stack = [])) ∨
    (m.config.flags.checkCollision = true ∧ c.hp + c.stack.length < m.config.memorySize)

structure Shows (m : Machine) (s : State) (p : Point) : Prop where
  running : s.halted = false
  ip : s.ip = p.1
  memory : ∃ free, s.memory.toList = p.2.heap ++ free ++ p.2.stack
  size : s.memory.size = m.config.memorySize
  sp : s.sp = Int32.ofNat (m.config.memorySize - p.2.stack.length)
  hp : s.hp = Int32.ofNat p.2.hp
  fp : s.fp = p.2.fp
  ra : s.ra = p.2.ra
  tm : s.tm = p.2.tm
  printed : s.printed.toList = p.2.printed
  room : m.Room p.2

/-- Faults for want of memory or of steps. When the stack fills the memory, its next word would go
to address -1. -/
def Exhausts (m : Machine) (s : State) : Fault → Prop
  | .memoryOutOfBounds address _ => address = -1 ∧ s.sp = 0
  | .heapStackCollision _ _ _ => m.config.flags.checkCollision = true
  | .stepLimitExceeded _ => m.config.maxSteps.isSome = true
  | _ => False

/-- The action takes the machine from one point to another and gives a value, unless memory or
steps run out. -/
def Does {α : Type} (m : Machine) (x : Action α) (p : Point) (a : α) (q : Point) : Prop :=
  ∀ s, m.Shows s p → (∃ s', x s = .ok a s' ∧ m.Shows s' q) ∨
    ∃ fault s', x s = .error fault s' ∧ m.Exhausts s' fault

def Fails {α : Type} (m : Machine) (x : Action α) (p : Point) (kind : Fault → Prop) : Prop :=
  ∀ s, m.Shows s p → ∃ fault s', x s = .error fault s' ∧ (kind fault ∨ m.Exhausts s' fault)

variable {m : Machine} {α β : Type} {x : Action α} {f : α → Action β} {a : α} {b : β}
  {p q r : Point} {kind : Fault → Prop}

theorem bind_ok {s s' : State} (done : x s = .ok a s') : (x >>= f) s = f a s' := by
  simp [bind, EStateM.bind, done]

theorem bind_error {s s' : State} {fault : Fault} (failed : x s = .error fault s') :
    (x >>= f) s = .error fault s' := by
  simp [bind, EStateM.bind, failed]

theorem Does.bind (first : Does m x p a q) (second : Does m (f a) q b r) :
    Does m (x >>= f) p b r := by
  intro s shows
  rcases first s shows with ⟨s', done, shows'⟩ | ⟨fault, s', failed, exhausted⟩
  · rw [bind_ok done]
    exact second s' shows'
  · exact .inr ⟨fault, s', bind_error failed, exhausted⟩

theorem Does.bind_fails (first : Does m x p a q) (second : Fails m (f a) q kind) :
    Fails m (x >>= f) p kind := by
  intro s shows
  rcases first s shows with ⟨s', done, shows'⟩ | ⟨fault, s', failed, exhausted⟩
  · rw [bind_ok done]
    exact second s' shows'
  · exact ⟨fault, s', bind_error failed, .inr exhausted⟩

theorem Fails.bind (first : Fails m x p kind) : Fails m (x >>= f) p kind := by
  intro s shows
  obtain ⟨fault, s', failed, reason⟩ := first s shows
  exact ⟨fault, s', bind_error failed, reason⟩

theorem Does.pure (a : α) (p : Point) : Does m (Pure.pure a) p a p :=
  fun s shows => .inl ⟨s, rfl, shows⟩

/-- A computation that starts by reading the registers can use what the point says about them. -/
theorem Does.get {f : State → Action β} (rest : ∀ s, m.Shows s p → Does m (f s) p b q) :
    Does m (get >>= f) p b q :=
  fun s shows => rest s shows s shows

theorem Fails.get {f : State → Action β} (rest : ∀ s, m.Shows s p → Fails m (f s) p kind) :
    Fails m (get >>= f) p kind :=
  fun s shows => rest s shows s shows

section Shows

variable {s : State} {ip : Nat} {c : Snapshot}

theorem Shows.words (shows : m.Shows s (ip, c)) :
    ∃ free, s.memory.toList = c.heap ++ free ++ c.stack ∧
      c.heap.length + free.length + c.stack.length = m.config.memorySize := by
  obtain ⟨free, words⟩ := shows.memory
  refine ⟨free, words, ?_⟩
  have count := congrArg List.length words
  simp only [Array.length_toList, List.length_append, shows.size] at count
  omega

theorem Shows.length_stack (shows : m.Shows s (ip, c)) :
    c.heap.length + c.stack.length ≤ m.config.memorySize := by
  obtain ⟨free, _, count⟩ := shows.words
  omega

theorem Shows.readHeap (shows : m.Shows s (ip, c)) {i : Nat} {w : Word}
    (found : c.heap[i]? = some w) : s.memory[i]? = some w := by
  obtain ⟨free, words, _⟩ := shows.words
  obtain ⟨bound, _⟩ := List.getElem?_eq_some_iff.mp found
  rw [← Array.getElem?_toList, words, List.append_assoc, List.getElem?_append_left bound, found]

theorem Shows.readStack (shows : m.Shows s (ip, c)) {i : Nat} {w : Word}
    (found : c.stack[i]? = some w) :
    s.memory[m.config.memorySize - c.stack.length + i]? = some w := by
  obtain ⟨free, words, count⟩ := shows.words
  have before : (c.heap ++ free).length = m.config.memorySize - c.stack.length := by
    rw [List.length_append]
    omega
  rw [← Array.getElem?_toList, words, List.getElem?_append_right (by omega), before,
    Nat.add_sub_cancel_left, found]

end Shows

end ObjectLang.Machine
