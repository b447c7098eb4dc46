import ObjectLang.Proofs.Machine.Snapshot

/-!
The small actions of the machine on snapshots: one lemma for each.
-/
namespace ObjectLang.Machine

variable {m : Machine} {ip : Nat} {c : Snapshot} {s : State} {w : Word} {rest : List Word}

theorem set_below {heap free stack : List Word} {i : Nat} (w : Word)
    (last : heap.length + free.length = i + 1) (fits : heap.length ≤ i) :
    ∃ free', (heap ++ free ++ stack).set i w = heap ++ free' ++ (w :: stack) := by
  rcases List.eq_nil_or_concat free with rfl | ⟨init, x, rfl⟩
  · simp only [List.length_nil] at last
    omega
  · refine ⟨init, ?_⟩
    have place : i = (heap ++ init).length := by
      simp only [List.concat_eq_append, List.length_append, List.length_singleton] at last ⊢
      omega
    subst place
    simp

theorem loadWord_of_getElem? {address : Word} {i : Nat} (named : Word.index? address = some i)
    (found : s.memory[i]? = some w) : loadWord address s = .ok w s := by
  rw [loadWord, named, Option.bind_some, found]

theorem storeWord_of_lt {address : Word} {i : Nat} (named : Word.index? address = some i)
    (inside : i < s.memory.size) (w : Word) :
    storeWord address w s = .ok () { s with memory := s.memory.set i w inside } := by
  unfold storeWord
  rw [named]
  simp only [dif_pos inside]

theorem push_of_bottom (bottom : s.sp = 0) (w : Word) :
    m.push w s = .error (.memoryOutOfBounds (-1) s.ip) s := by
  have unfolded : m.push w s = (do storeWord (s.sp - 1) w; setSp (s.sp - 1); m.checkCollision) s :=
    rfl
  have failed : storeWord (s.sp - 1) w s = .error (.memoryOutOfBounds (-1) s.ip) s := by
    rw [bottom]
    rfl
  rw [unfolded, bind_error failed]

theorem push_of_succ {n : Nat} (top : s.sp = Int32.ofNat (n + 1)) (small : n < Word.limit)
    (inside : n < s.memory.size) (w : Word) :
    m.push w s =
      m.checkCollision { s with memory := s.memory.set n w inside, sp := Int32.ofNat n } := by
  have address : s.sp - 1 = Int32.ofNat n := by rw [top, Word.ofNat_succ_sub_one]
  have unfolded : m.push w s = (do storeWord (s.sp - 1) w; setSp (s.sp - 1); m.checkCollision) s :=
    rfl
  rw [unfolded, address, bind_ok (storeWord_of_lt (Word.index?_ofNat small) inside w)]
  rfl

theorem Room.push {n : Nat} (room : m.Room c) (below : n + (c.stack.length + 1) = m.config.memorySize)
    (clear : m.config.flags.checkCollision = true → c.hp < n) (w : Word) :
    m.Room { c with stack := w :: c.stack } ∧ c.heap.length ≤ n := by
  have ahead := room.ahead
  by_cases checks : m.config.flags.checkCollision = true
  · have apart := clear checks
    refine ⟨⟨ahead, .inr ⟨checks, ?_⟩⟩, by omega⟩
    simp only [List.length_cons]
    omega
  · rcases room.apart with ⟨noHeap, empty, _⟩ | ⟨yes, _⟩
    · exact ⟨⟨ahead, .inl ⟨noHeap, empty, fun yes => absurd yes checks⟩⟩, by simp [empty]⟩
    · exact absurd yes checks

theorem Room.hp_le (room : m.Room c) : c.hp ≤ m.config.memorySize := by
  rcases room.apart with ⟨noHeap, _⟩ | ⟨_, below⟩
  · omega
  · omega

theorem does_push (small : m.config.memorySize < Word.limit) (w : Word) :
    Does m (m.push w) (ip, c) () (ip, { c with stack := w :: c.stack }) := by
  intro s shows
  obtain ⟨free, words, count⟩ := shows.words
  have top : s.sp = Int32.ofNat (m.config.memorySize - c.stack.length) := shows.sp
  have pointer : s.hp = Int32.ofNat c.hp := shows.hp
  by_cases full : c.stack.length = m.config.memorySize
  · have bottom : s.sp = 0 := by
      rw [top, full, Nat.sub_self]
      rfl
    exact .inr ⟨_, s, push_of_bottom bottom w, rfl, bottom⟩
  obtain ⟨n, size⟩ : ∃ n, m.config.memorySize - c.stack.length = n + 1 :=
    ⟨m.config.memorySize - c.stack.length - 1, by omega⟩
  have inside : n < s.memory.size := by
    rw [shows.size]
    omega
  rw [size] at top
  rw [push_of_succ top (by omega) inside]
  unfold checkCollision
  simp only [pointer]
  by_cases collides : m.config.flags.checkCollision = true ∧ Int32.ofNat n ≤ Int32.ofNat c.hp
  · exact .inr ⟨_, _, if_pos (by simp [collides.1, collides.2]), collides.1⟩
  left
  have clear (checks : m.config.flags.checkCollision = true) : c.hp < n := by
    have bound : c.hp ≤ m.config.memorySize := shows.room.hp_le
    have apart : ¬ Int32.ofNat n ≤ Int32.ofNat c.hp := fun le => collides ⟨checks, le⟩
    rw [Word.ofNat_le (by omega) (by omega)] at apart
    omega
  obtain ⟨room, fits⟩ := Room.push shows.room (show n + (c.stack.length + 1) = _ by omega) clear w
  obtain ⟨free', moved⟩ := @set_below c.heap free c.stack n w (by omega) fits
  refine ⟨_, if_neg (by simpa using collides), ?_⟩
  exact {
    running := shows.running
    ip := shows.ip
    memory := ⟨free', by simp only [Array.toList_set]; rw [words, moved]⟩
    size := by simp [shows.size]
    sp := by
      have shorter : m.config.memorySize - (c.stack.length + 1) = n := by omega
      simp only [List.length_cons, shorter]
    hp := rfl
    fp := shows.fp
    ra := shows.ra
    tm := shows.tm
    printed := shows.printed
    room }

theorem does_pop (small : m.config.memorySize < Word.limit) (top : c.stack = w :: rest) :
    Does m pop (ip, c) w (ip, { c with stack := rest }) := by
  intro s shows
  left
  obtain ⟨free, words, count⟩ := shows.words
  have pointer : s.sp = Int32.ofNat (m.config.memorySize - c.stack.length) := shows.sp
  have bound : c.stack.length ≤ m.config.memorySize := by omega
  have found : s.memory[m.config.memorySize - c.stack.length + 0]? = some w :=
    shows.readStack (by simp [top])
  have loaded : loadWord s.sp s = .ok w s := by
    rw [pointer]
    exact loadWord_of_getElem? (Word.index?_ofNat (by omega)) found
  refine ⟨{ s with sp := s.sp + 1 }, ?_, ?_⟩
  · show (do let value ← loadWord s.sp; setSp (s.sp + 1); return value : Action Word) s = _
    rw [bind_ok loaded]
    rfl
  · exact {
      running := shows.running
      ip := shows.ip
      memory := ⟨free ++ [w], by simp [words, top]⟩
      size := shows.size
      sp := by
        have longer : m.config.memorySize - rest.length = m.config.memorySize - c.stack.length + 1 := by
          rw [top, List.length_cons] at bound ⊢
          omega
        simp only [pointer, longer, Int32.ofNat_add]
        rfl
      hp := shows.hp
      fp := shows.fp
      ra := shows.ra
      tm := shows.tm
      printed := shows.printed
      room := by
        refine ⟨shows.room.ahead, ?_⟩
        rcases shows.room.apart with ⟨noHeap, empty, fresh⟩ | ⟨checks, below⟩
        · refine .inl ⟨noHeap, empty, ?_⟩
          intro checks
          have none := fresh checks
          simp [top] at none
        · refine .inr ⟨checks, ?_⟩
          simp only [top, List.length_cons] at below ⊢
          omega }

theorem does_fetch (found : m.code[ip]? = some w) :
    Does m m.fetch (ip, c) w (ip + 1, c) := by
  intro s shows
  left
  have here : s.ip = ip := shows.ip
  refine ⟨{ s with ip := s.ip + 1 }, by simp [fetch, here, found], ?_⟩
  exact { shows with ip := by simp [here] }

theorem does_jump {target : Nat} (named : Word.index? w = some target) :
    Does m (jump w) (ip, c) () (target, c) := by
  intro s shows
  left
  exact ⟨{ s with ip := target }, by simp [jump, named], { shows with ip := rfl }⟩

theorem fails_jump_null :
    Fails m (jump (-1)) (ip, c) (· = .codeOutOfBounds (-1)) := by
  intro s shows
  exact ⟨_, s, rfl, .inl rfl⟩

theorem does_setFp (w : Word) : Does m (setFp w) (ip, c) () (ip, { c with fp := w }) :=
  fun s shows => .inl ⟨{ s with fp := w }, rfl,
    { shows with fp := rfl, room := ⟨shows.room.ahead, shows.room.apart⟩ }⟩

theorem does_setRa (w : Word) : Does m (setRa w) (ip, c) () (ip, { c with ra := w }) :=
  fun s shows => .inl ⟨{ s with ra := w }, rfl,
    { shows with ra := rfl, room := ⟨shows.room.ahead, shows.room.apart⟩ }⟩

theorem does_setTm (w : Word) : Does m (setTm w) (ip, c) () (ip, { c with tm := w }) :=
  fun s shows => .inl ⟨{ s with tm := w }, rfl,
    { shows with tm := rfl, room := ⟨shows.room.ahead, shows.room.apart⟩ }⟩

theorem Shows.top? (small : m.config.memorySize < Word.limit) (shows : m.Shows s (ip, c))
    (top : c.stack = w :: rest) : s.top? = some w := by
  have bound := shows.length_stack
  have pointer : s.sp = Int32.ofNat (m.config.memorySize - c.stack.length) := shows.sp
  have found : s.memory[m.config.memorySize - c.stack.length + 0]? = some w :=
    shows.readStack (by simp [top])
  rw [Nat.add_zero] at found
  simp [State.top?, pointer, Word.index?_ofNat (show m.config.memorySize - c.stack.length < Word.limit by omega), found]

theorem does_printTop (small : m.config.memorySize < Word.limit) (top : c.stack = w :: rest) :
    Does m printTop (ip, c) () (ip, { c with printed := c.printed ++ [w] }) := by
  intro s shows
  left
  have shown : s.printed.toList = c.printed := shows.printed
  refine ⟨{ s with printed := s.printed.push w }, ?_, ?_⟩
  · simp [printTop, shows.top? small top]
  · exact { shows with
      printed := by simp [shown]
      room := ⟨shows.room.ahead, shows.room.apart⟩ }

def stackAddress (m : Machine) (position : Nat) : Word :=
  Int32.ofNat m.config.memorySize - 1 - Int32.ofNat position

def Slot (m : Machine) (stack : List Word) (address w : Word) : Prop :=
  ∃ position, stack.reverse[position]? = some w ∧ address = m.stackAddress position

theorem Slot.append {stack : List Word} {address : Word} (slot : m.Slot stack address w)
    (above : List Word) : m.Slot (above ++ stack) address w := by
  obtain ⟨position, found, place⟩ := slot
  obtain ⟨bound, _⟩ := List.getElem?_eq_some_iff.mp found
  exact ⟨position, by rw [List.reverse_append, List.getElem?_append_left bound, found], place⟩

theorem Slot.top (m : Machine) (w : Word) (stack : List Word) :
    m.Slot (w :: stack) (m.stackAddress stack.length) w :=
  ⟨stack.length, by simp, rfl⟩

theorem does_loadWord_stack (small : m.config.memorySize < Word.limit) {address : Word}
    (slot : m.Slot c.stack address w) : Does m (loadWord address) (ip, c) w (ip, c) := by
  intro s shows
  left
  obtain ⟨position, found, rfl⟩ := slot
  have bound := shows.length_stack
  obtain ⟨inside, _⟩ := List.getElem?_eq_some_iff.mp found
  rw [List.length_reverse] at inside
  rw [List.getElem?_reverse inside] at found
  have read := shows.readStack found
  have place : m.config.memorySize - c.stack.length + (c.stack.length - 1 - position) =
      m.config.memorySize - 1 - position := by omega
  have address : m.stackAddress position = Int32.ofNat (m.config.memorySize - 1 - position) := by
    rw [stackAddress, Int32.ofNat_sub _ _ (by omega), Int32.ofNat_sub _ _ (by omega)]
    rfl
  rw [place] at read
  rw [address]
  exact ⟨s, loadWord_of_getElem? (Word.index?_ofNat (by omega)) read, shows⟩

theorem does_loadWord_heap (small : m.config.memorySize < Word.limit) {i : Nat}
    (found : c.heap[i]? = some w) : Does m (loadWord (Int32.ofNat i)) (ip, c) w (ip, c) := by
  intro s shows
  left
  have bound := shows.length_stack
  obtain ⟨inside, _⟩ := List.getElem?_eq_some_iff.mp found
  exact ⟨s, loadWord_of_getElem? (Word.index?_ofNat (by omega)) (shows.readHeap found), shows⟩

theorem fails_loadWord {address : Word} (negative : address.toInt < 0) :
    Fails m (loadWord address) (ip, c) (fun fault => ∃ ip, fault = .memoryOutOfBounds address ip) := by
  intro s shows
  have none : Word.index? address = none := by
    cases named : Word.index? address with
    | none => rfl
    | some i =>
      rw [Word.index?_eq_some] at named
      omega
  exact ⟨_, s, by simp [loadWord, none], .inl ⟨s.ip, rfl⟩⟩

/-- A word goes to the end of the heap, which is then one word ahead of the heap pointer. -/
theorem does_storeWord (small : m.config.memorySize < Word.limit)
    (checks : m.config.flags.checkCollision = true) (level : c.heap.length = c.hp)
    (used : c.stack ≠ []) (w : Word) :
    Does m (storeWord (Int32.ofNat c.hp) w) (ip, c) () (ip, { c with heap := c.heap ++ [w] }) := by
  intro s shows
  left
  obtain ⟨free, words, count⟩ := shows.words
  have below : c.hp + c.stack.length < m.config.memorySize := by
    rcases shows.room.apart with ⟨_, _, fresh⟩ | ⟨_, below⟩
    · exact absurd (fresh checks) used
    · exact below
  have inside : c.hp < s.memory.size := by
    rw [shows.size]
    omega
  refine ⟨_, storeWord_of_lt (Word.index?_ofNat (by omega)) inside w, ?_⟩
  cases free with
  | nil =>
    simp only [List.length_nil] at count
    omega
  | cons x free =>
    exact { shows with
      memory := ⟨free, by simp [words, ← level]⟩
      size := by simp [shows.size]
      room := ⟨by simp [level], .inr ⟨checks, below⟩⟩ }

theorem does_setHp (small : m.config.memorySize < Word.limit)
    (checks : m.config.flags.checkCollision = true) (ahead : c.heap.length = c.hp + 1)
    (w : Word) (next : w = Int32.ofNat (c.hp + 1)) :
    Does m (do setHp w; m.checkCollision) (ip, c) () (ip, { c with hp := c.hp + 1 }) := by
  intro s shows
  subst next
  obtain ⟨free, words, count⟩ := shows.words
  have pointer : s.sp = Int32.ofNat (m.config.memorySize - c.stack.length) := shows.sp
  show (∃ s', m.checkCollision { s with hp := Int32.ofNat (c.hp + 1) } = .ok () s' ∧ _) ∨
    ∃ fault s', m.checkCollision { s with hp := Int32.ofNat (c.hp + 1) } = .error fault s' ∧ _
  unfold checkCollision
  simp only [pointer]
  by_cases collides :
      Int32.ofNat (m.config.memorySize - c.stack.length) ≤ Int32.ofNat (c.hp + 1)
  · exact .inr ⟨_, _, if_pos (by simp only [checks, collides, decide_true, Bool.and_self]), checks⟩
  · left
    refine ⟨_, if_neg (by simp only [collides, decide_false, Bool.and_false, Bool.false_eq_true,
      not_false_eq_true]), ?_⟩
    rw [Word.ofNat_le (by omega) (by omega)] at collides
    exact { shows with
      hp := rfl
      sp := rfl
      room := ⟨by simp [ahead], .inr ⟨checks, by simp only; omega⟩⟩ }

end ObjectLang.Machine
