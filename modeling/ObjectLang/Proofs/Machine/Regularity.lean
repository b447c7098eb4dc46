import ObjectLang.Proofs.Machine.Outcomes

/-!
What every run keeps. Whatever words a program is made of, and whether its instructions succeed or
fail halfway, the memory keeps its size and the stack pointer stays in it; so moving the stack
pointer never wraps. An instruction that fails leaves the state as the actions before the failure
made it, so all this is shown for each action, and holds of instructions because it holds of their
parts.
-/
namespace ObjectLang

namespace Word

theorem toInt_pred {w : Word} (room : -(limit : Int) ≤ w.toInt - 1) :
    (w - 1).toInt = w.toInt - 1 := by
  have high := w.toInt_lt
  have one : (1 : Word).toInt = 1 := rfl
  unfold limit at room
  rw [Int32.toInt_sub, one]
  exact Int.bmod_eq_of_le (by omega) (by omega)

theorem toInt_succ {w : Word} (room : w.toInt + 1 < limit) : (w + 1).toInt = w.toInt + 1 := by
  have low := w.le_toInt
  have one : (1 : Word).toInt = 1 := rfl
  unfold limit at room
  rw [Int32.toInt_add, one]
  exact Int.bmod_eq_of_le (by omega) (by omega)

end Word

namespace Machine

/-- The memory has its size, and the stack pointer points into it or, if the stack is empty, just
past its end. -/
structure Bounded (m : Machine) (s : State) : Prop where
  memory : s.memory.size = m.config.memorySize
  low : 0 ≤ s.sp.toInt
  high : s.sp.toInt ≤ m.config.memorySize

structure Evolves (m : Machine) (s s' : State) : Prop where
  bounded : m.Bounded s'
  printed : s.printed.toList <+: s'.printed.toList
  steps : s'.steps = s.steps

def Steady (m : Machine) (α : Type) (x y : Action α) : Prop :=
  ∀ s, m.Bounded s → y s = x s ∧ m.Evolves s (final (x s))

variable {m : Machine} {s s' : State}

theorem Bounded.evolves (bounded : m.Bounded s) : m.Evolves s s :=
  ⟨bounded, List.prefix_refl _, rfl⟩

/-- Words are popped only where there are words, so the stack pointer does not wrap. -/
theorem Bounded.toInt_sp_drop (bounded : m.Bounded s) (small : m.config.memorySize < Word.limit)
    {words : List Word} (tops : s.Tops words) :
    (s.drop words.length).sp.toInt = s.sp.toInt + words.length := by
  have upTo : ∀ k ≤ words.length, (s.drop k).sp.toInt = s.sp.toInt + k := by
    intro k within
    induction k with
    | zero =>
      rw [State.drop_zero]
      simp
    | succ k ih =>
      have listed : words[k]? = some words[k] := List.getElem?_eq_getElem within
      obtain ⟨i, place, found⟩ := top?_eq_some.mp (tops k _ listed)
      obtain ⟨inside, _⟩ := Array.getElem?_eq_some_iff.mp found
      have sized : (s.drop k).memory.size = m.config.memorySize := bounded.memory
      have here := ih (by omega)
      rw [← State.drop_drop]
      show ((s.drop k).sp + 1).toInt = _
      rw [Word.toInt_succ (by omega), here]
      omega
  exact upTo _ (Nat.le_refl _)

theorem Evolves.trans {s'' : State} (first : m.Evolves s s') (second : m.Evolves s' s'') :
    m.Evolves s s'' :=
  ⟨second.bounded, first.printed.trans second.printed, second.steps.trans first.steps⟩

theorem Steady.bind {α β : Type} {x y : Action α} {f g : α → Action β} (first : m.Steady α x y)
    (second : ∀ a, m.Steady β (f a) (g a)) : m.Steady β (x >>= f) (y >>= g) := by
  intro s bounded
  obtain ⟨same, evolves⟩ := first s bounded
  cases run : x s with
  | error fault s' =>
    rw [run] at same evolves
    rw [bind_error run, bind_error same]
    exact ⟨rfl, evolves⟩
  | ok a s' =>
    rw [run] at same evolves
    obtain ⟨sameRest, evolvesRest⟩ := second a s' evolves.bounded
    rw [bind_ok run, bind_ok same]
    exact ⟨sameRest, evolves.trans evolvesRest⟩

theorem steady_loadWord (address : Word) : m.Steady Word (loadWord address) (loadWord address) := by
  intro s bounded
  refine ⟨rfl, ?_⟩
  unfold loadWord
  split
  · exact bounded.evolves
  · exact bounded.evolves

theorem steady_storeWord (address value : Word) :
    m.Steady Unit (storeWord address value) (storeWord address value) := by
  intro s bounded
  refine ⟨rfl, ?_⟩
  unfold storeWord
  split
  · exact bounded.evolves
  · split
    · refine ⟨⟨?_, bounded.low, bounded.high⟩, List.prefix_refl _, rfl⟩
      simp [final, bounded.memory]
    · exact bounded.evolves

theorem steady_jump (target : Word) : m.Steady Unit (jump target) (jump target) := by
  intro s bounded
  refine ⟨rfl, ?_⟩
  unfold jump
  split
  · exact ⟨⟨bounded.memory, bounded.low, bounded.high⟩, List.prefix_refl _, rfl⟩
  · exact bounded.evolves

theorem steady_printTop : m.Steady Unit printTop printTop := by
  intro s bounded
  refine ⟨rfl, ?_⟩
  unfold printTop
  split
  · refine ⟨⟨bounded.memory, bounded.low, bounded.high⟩, ?_, rfl⟩
    simp [final]
  · exact bounded.evolves

theorem steady_lifts (m : Machine) : Lifts m.Steady where
  bind := Steady.bind
  shared := by
    intro α x shared
    cases shared with
    | done | fails | reads => exact fun s bounded => ⟨rfl, bounded.evolves⟩
    | loads address => exact steady_loadWord address
    | stores address value => exact steady_storeWord address value
    | setsFp | setsHp | setsRa | setsTm | halts =>
      exact fun s bounded =>
        ⟨rfl, ⟨bounded.memory, bounded.low, bounded.high⟩, List.prefix_refl _, rfl⟩
    | jumps target => exact steady_jump target
    | prints => exact steady_printTop

structure Traps where
  push : Word → Action Unit
  pop : Action Word

/-- The parts of a machine that computes the next stack pointer as a number, and moves it only if
the number is the value of a word. -/
def trapping (m : Machine) (traps : Traps) : Parts where
  fetch := m.fetch
  push w := do
    if -(Word.limit : Int) ≤ (← get).sp.toInt - 1 then m.push w else traps.push w
  pop := do
    let sp := (← get).sp
    let value ← loadWord sp
    if sp.toInt + 1 < Word.limit then
      setSp (sp + 1)
      return value
    else traps.pop
  check := m.checkCollision

theorem steady_fetch (m : Machine) : m.Steady Word m.fetch m.fetch := by
  intro s bounded
  refine ⟨rfl, ?_⟩
  unfold fetch
  split
  · exact ⟨⟨bounded.memory, bounded.low, bounded.high⟩, List.prefix_refl _, rfl⟩
  · exact bounded.evolves

theorem steady_checkCollision (m : Machine) :
    m.Steady Unit m.checkCollision m.checkCollision := by
  intro s bounded
  refine ⟨rfl, ?_⟩
  unfold checkCollision
  split
  · exact bounded.evolves
  · exact bounded.evolves

theorem evolves_push (w : Word) (bounded : m.Bounded s) : m.Evolves s (final (m.push w s)) := by
  have moved {i : Nat} (place : (s.sp - 1).toInt = i) (inside : i < s.memory.size) :
      m.Evolves s { s with memory := s.memory.set i w inside, sp := s.sp - 1 } := by
    have sized := bounded.memory
    refine ⟨⟨by simp [sized], ?_, ?_⟩, List.prefix_refl _, rfl⟩
    · simp only
      omega
    · simp only
      omega
  have acts : Acts m s (.pushes fun _ => w) (m.push w s) := acts_push .pushes
  generalize m.push w s = result at acts
  cases acts with
  | pushed gives place inside clear =>
    cases gives
    exact moved place inside
  | full => exact bounded.evolves
  | collided gives place inside =>
    cases gives
    exact moved place inside

theorem steady_pop (small : m.config.memorySize < Word.limit) (traps : Traps) :
    m.Steady Word pop (m.trapping traps).pop := by
  intro s bounded
  have read : (get : Action State) s = .ok s s := rfl
  simp only [pop, trapping, Bind.bind, EStateM.bind, read]
  cases run : loadWord s.sp s with
  | error fault s' =>
    obtain ⟨_, evolves⟩ := steady_loadWord s.sp s bounded
    rw [run] at evolves
    exact ⟨rfl, evolves⟩
  | ok value s' =>
    obtain ⟨rfl, i, place, found⟩ := loadWord_ok run
    obtain ⟨inside, _⟩ := Array.getElem?_eq_some_iff.mp found
    have sized := bounded.memory
    have room : s'.sp.toInt + 1 < Word.limit := by omega
    simp only [room, if_true]
    refine ⟨rfl, ⟨bounded.memory, ?_, ?_⟩, List.prefix_refl _, rfl⟩
    · show 0 ≤ (s'.sp + 1).toInt
      rw [Word.toInt_succ room]
      omega
    · show (s'.sp + 1).toInt ≤ m.config.memorySize
      rw [Word.toInt_succ room]
      omega

theorem steady_push (traps : Traps) (w : Word) :
    m.Steady Unit (m.push w) ((m.trapping traps).push w) := by
  intro s bounded
  have room : -(Word.limit : Int) ≤ s.sp.toInt - 1 := by
    have := bounded.low
    unfold Word.limit
    omega
  refine ⟨?_, evolves_push w bounded⟩
  show (if -(Word.limit : Int) ≤ s.sp.toInt - 1 then m.push w else traps.push w) s = _
  rw [if_pos room]

theorem steady_parts (small : m.config.memorySize < Word.limit) (traps : Traps) :
    m.parts.Related m.Steady (m.trapping traps) where
  fetch := steady_fetch m
  push := steady_push traps
  pop := steady_pop small traps
  check := steady_checkCollision m

/-! Steps, and calls of `step` one after the other. -/

def call (m : Machine) (s : State) : Option Fault × State :=
  match m.step s with
  | .ok _ s => (none, s)
  | .error fault s => (some fault, s)

def history (m : Machine) (count : Nat) : List (Option Fault × State) :=
  (none, m.start) :: m.calls count m.start

structure Regular (m : Machine) (s : State) : Prop where
  bounded : m.Bounded s
  empty : s.top? = none ↔ s.sp.toInt = m.config.memorySize
  steps : ∀ limit, m.config.maxSteps = some limit → s.steps ≤ limit
  /-- The stack pointer never wraps, even during a call. -/
  unwrapped : ∀ traps, (m.trapping traps).step m s = m.step s

structure Continues (earlier later : Option Fault × State) : Prop where
  printed : earlier.2.printed.toList <+: later.2.printed.toList
  halted : earlier.2.halted = true → later = (none, earlier.2)

theorem calls_succ (m : Machine) (count : Nat) (s : State) :
    m.calls (count + 1) s = m.call s :: m.calls count (m.call s).2 := by
  rw [calls, call]
  cases m.step s <;> rfl

theorem call_state (m : Machine) (s : State) : (m.call s).2 = final (m.step s) := by
  rw [call]
  cases m.step s <;> rfl

theorem call_of_halted (m : Machine) (halted : s.halted = true) : m.call s = (none, s) := by
  simp [call, step, halted]

theorem Bounded.top?_eq_none (bounded : m.Bounded s) :
    s.top? = none ↔ s.sp.toInt = m.config.memorySize := by
  have low := bounded.low
  have high := bounded.high
  have sized := bounded.memory
  have named : Word.index? s.sp = some s.sp.toInt.toNat :=
    Word.index?_eq_some.mpr (Int.toNat_of_nonneg low).symm
  rw [State.top?, named, Option.bind_some, Array.getElem?_eq_none_iff]
  omega

theorem evolves_execNext (small : m.config.memorySize < Word.limit) (bounded : m.Bounded s) :
    m.Evolves { s with steps := s.steps + 1 }
      (final (m.parts.execNext { s with steps := s.steps + 1 })) := by
  have steady := (steady_lifts m).execNext (steady_parts small ⟨fun _ => pure (), pure 0⟩)
  exact (steady { s with steps := s.steps + 1 } ⟨bounded.memory, bounded.low, bounded.high⟩).2

theorem step_trapping (small : m.config.memorySize < Word.limit) (bounded : m.Bounded s)
    (traps : Traps) : (m.trapping traps).step m s = m.step s := by
  have steady := (steady_lifts m).execNext (steady_parts small traps)
  have same := (steady { s with steps := s.steps + 1 }
    ⟨bounded.memory, bounded.low, bounded.high⟩).1
  rw [step_parts]
  unfold Parts.step
  rw [same]

theorem Bounded.regular (bounded : m.Bounded s) (small : m.config.memorySize < Word.limit)
    (steps : ∀ limit, m.config.maxSteps = some limit → s.steps ≤ limit) : m.Regular s :=
  ⟨bounded, bounded.top?_eq_none, steps, step_trapping small bounded⟩

theorem regular_start (small : m.config.memorySize < Word.limit) : m.Regular m.start := by
  have top : m.start.sp.toInt = m.config.memorySize := by
    show (Word.ofSize m.config.memorySize).toInt = _
    rw [Word.ofSize_eq small, Int32.toInt_ofNat_of_lt small]
  have bounded : m.Bounded m.start :=
    ⟨Array.size_replicate, by omega, by omega⟩
  exact bounded.regular small fun limit _ => Nat.zero_le limit

/-- A call keeps the state regular and adds to what is printed, whether it succeeds or fails. -/
theorem Regular.call (regular : m.Regular s) (small : m.config.memorySize < Word.limit) :
    m.Regular (m.call s).2 ∧ s.printed.toList <+: (m.call s).2.printed.toList := by
  rw [call_state, step_parts]
  unfold Parts.step
  split
  · exact ⟨regular, List.prefix_refl _⟩
  · cases limited : m.exhausted? s with
    | some limit => exact ⟨regular, List.prefix_refl _⟩
    | none =>
      have evolves := evolves_execNext small regular.bounded
      refine ⟨evolves.bounded.regular small fun limit known => ?_, evolves.printed⟩
      -- A step was left, so one more is within the limit.
      have left : ¬ limit ≤ s.steps := by simpa [exhausted?, known] using limited
      rw [evolves.steps]
      simp only
      omega

theorem Regular.calls (regular : m.Regular s) (small : m.config.memorySize < Word.limit)
    (fault : Option Fault) (count : Nat) :
    ∀ entry ∈ m.calls count s, m.Regular entry.2 ∧ Continues (fault, s) entry := by
  induction count generalizing s fault with
  | zero => exact fun entry listed => nomatch listed
  | succ count ih =>
    obtain ⟨next, printed⟩ := regular.call small
    intro entry listed
    rw [calls_succ] at listed
    rcases List.mem_cons.mp listed with rfl | later
    · exact ⟨next, printed, m.call_of_halted⟩
    · obtain ⟨reached, continues⟩ := ih next (m.call s).1 entry later
      refine ⟨reached, printed.trans continues.printed, fun halted => ?_⟩
      have same := m.call_of_halted halted
      have last := continues.halted (by rw [same]; exact halted)
      rw [last, same]

theorem Regular.continues (regular : m.Regular s) (small : m.config.memorySize < Word.limit)
    (fault : Option Fault) (count : Nat) :
    ((fault, s) :: m.calls count s).Pairwise Continues := by
  induction count generalizing s fault with
  | zero => exact List.pairwise_singleton _ _
  | succ count ih =>
    have after := regular.calls small fault (count + 1)
    refine List.pairwise_cons.mpr ⟨fun entry listed => (after entry listed).2, ?_⟩
    rw [calls_succ]
    exact ih (regular.call small).1 (m.call s).1

/-- Whatever the words of a program, calls of `step`, successful or not, keep the size of the
memory, the stack pointer in it, and the number of steps within their limit; they only add to what
is printed, and do nothing more once the machine has halted. -/
theorem history_regular (config : Config) (p : Image) (m : Machine) (count : Nat)
    (loaded : load config p = .ok m) (small : config.memorySize < Word.limit) :
    m.config = config ∧ m.code.toList = p.words ∧
      (∀ entry ∈ m.history count, m.Regular entry.2) ∧ (m.history count).Pairwise Continues := by
  obtain ⟨rfl, words⟩ : m.config = config ∧ m.code.toList = p.words := by
    unfold load at loaded
    split at loaded
    · cases loaded
    · cases loaded
      exact ⟨rfl, by simp⟩
  have regular := regular_start small
  refine ⟨rfl, words, fun entry listed => ?_, regular.continues small none count⟩
  rcases List.mem_cons.mp listed with rfl | later
  · exact regular
  · exact (regular.calls small none count entry later).1

def halfDone : Image := ⟨[0, 7, 21, 2, 99, 22], []⟩

theorem history_regular_halfDone :
    ∃ m, load { memorySize := 1, maxSteps := some 5 } halfDone = .ok m ∧
      (m.calls 6 m.start).map Prod.fst =
        [none, none, some (.memoryOutOfBounds 1 4), some (.invalidOpcode 99 4), none, none] ∧
      (∀ entry ∈ m.history 6, m.Regular entry.2) ∧ (m.history 6).Pairwise Continues := by
  refine ⟨⟨_, halfDone.words.toArray⟩, rfl, by decide +kernel, ?_⟩
  exact (history_regular { memorySize := 1, maxSteps := some 5 } halfDone _ 6 rfl (by decide)).2.2

end Machine

end ObjectLang
