import Mathlib.Data.List.Basic
import ObjectLang.Proofs.Machine.Parts
import ObjectLang.Proofs.Machine.Snapshot

/-!
All that an instruction can come to. It misses its operand; or the words it takes run out, and those
it has popped are gone; or it has its inputs and acts. An act ends in one of a few ways, each with
the state it leaves. What instructions change, what they keep and how they fail is read off from
here, and the opcodes are told apart only where it matters which of them has which act.
-/
namespace ObjectLang.Machine

def final {α : Type} : EStateM.Result Fault State α → State
  | .ok _ s | .error _ s => s

def State.drop (s : State) (count : Nat) : State := { s with sp := s.sp + Int32.ofNat count }

def State.Tops (s : State) (words : List Word) : Prop :=
  ∀ k w, words[k]? = some w → (s.drop k).top? = some w

inductive Act.Gives (s : State) : Act → Word → Prop
  | pushes {value} : Gives s (.pushes value) (value s)
  | loads {address w : Word} {i : Nat} (place : address.toInt = i) (found : s.memory[i]? = some w) :
      Gives s (.loads address) w

inductive Acts (m : Machine) (s : State) : Act → EStateM.Result Fault State Unit → Prop
  | nothing : Acts m s .nothing (.ok () s)
  | failed {fault} : Acts m s (.fails fault) (.error fault s)
  | pushed {act w} {i : Nat} (gives : act.Gives s w) (place : (s.sp - 1).toInt = i)
      (inside : i < s.memory.size)
      (clear : m.config.flags.checkCollision = true → s.hp < s.sp - 1) :
      Acts m s act (.ok () { s with memory := s.memory.set i w inside, sp := s.sp - 1 })
  | full {act w} (gives : act.Gives s w) :
      Acts m s act (.error (.memoryOutOfBounds (s.sp - 1) s.ip) s)
  | collided {act w} {i : Nat} (gives : act.Gives s w) (place : (s.sp - 1).toInt = i)
      (inside : i < s.memory.size) :
      Acts m s act (.error (.heapStackCollision s.hp (s.sp - 1) s.ip)
        { s with memory := s.memory.set i w inside, sp := s.sp - 1 })
  | unloaded {address} :
      Acts m s (.loads address) (.error (.memoryOutOfBounds address s.ip) s)
  | stored {address value : Word} {i : Nat} (place : address.toInt = i) (inside : i < s.memory.size) :
      Acts m s (.stores address value) (.ok () { s with memory := s.memory.set i value inside })
  | unstored {address value} :
      Acts m s (.stores address value) (.error (.memoryOutOfBounds address s.ip) s)
  | jumped {target : Word} {ip : Nat} (named : target.toInt = ip) :
      Acts m s (.jumps target) (.ok () { s with ip })
  | strayed {target} : Acts m s (.jumps target) (.error (.codeOutOfBounds target.toInt) s)
  | called {target : Word} {ip : Nat} (named : target.toInt = ip) :
      Acts m s (.calls target) (.ok () { s with ra := Int32.ofNat s.ip, ip })
  | lost {target} :
      Acts m s (.calls target)
        (.error (.codeOutOfBounds target.toInt) { s with ra := Int32.ofNat s.ip })
  | ra {ra} : Acts m s (.setsRa ra) (.ok () { s with ra })
  | tm {tm} : Acts m s (.setsTm tm) (.ok () { s with tm })
  | fp {value} : Acts m s (.setsFp value) (.ok () { s with fp := value s })
  | hp {hp} (clear : m.config.flags.checkCollision = true → hp < s.sp) :
      Acts m s (.setsHp hp) (.ok () { s with hp })
  | reached {hp} :
      Acts m s (.setsHp hp) (.error (.heapStackCollision hp s.sp s.ip) { s with hp })
  | printed : Acts m s .prints (.ok () { s with printed := s.printed ++ s.top?.toArray })
  | halted : Acts m s .halts (.ok () { s with halted := true })

def Act.Fits (start : Nat) (op : Opcode) (words : List Word) : Act → Prop
  | .nothing => op = .pop ∨ op = .branchEq ∨ op = .branchLessEq
  | .jumps _ => op.isBranch = true
  | .fails fault => fault = .divisionByZero start
  | .pushes _ | .loads _ => op.given = 1
  | .stores address _ => op = .storeW ∧ words.head? = some address
  | .calls _ => op = .js
  | .setsRa _ => op = .storeRa
  | .setsTm _ => op = .storeTm
  | .setsFp _ => op = .storeFp ∨ op = .copyFp
  | .setsHp _ => op = .storeHp
  | .prints => op = .print
  | .halts => op = .halt

/-- The parts of a machine that has the operand at hand and need not fetch it. -/
def supplied (m : Machine) (operand : Option Word) : Parts :=
  { m.parts with
    fetch := fun s =>
      match operand with
      | some w => .ok w s
      | none => .error (.codeOutOfBounds s.ip) s }

/-- Executes an instruction as a whole, in a state whose `ip` is already past it. -/
def perform (m : Machine) (start : Nat) (i : Instr) : Action Unit :=
  (m.supplied i.operand).exec start i.op

inductive Performs (m : Machine) (start : Nat) (i : Instr) (s : State) :
    EStateM.Result Fault State Unit → Prop
  | unread : Performs m start i s (.error (.codeOutOfBounds s.ip) s)
  | starved {words} (tops : s.Tops words) (few : words.length < i.op.taken) :
      Performs m start i s
        (.error (.memoryOutOfBounds (s.drop words.length).sp s.ip) (s.drop words.length))
  | acted {operand words result} (read : operand.length + 1 = i.op.width)
      (given : i.op.hasOperand = true → operand = i.operand.toList) (tops : s.Tops words)
      (taken : words.length = i.op.taken)
      (acts : Acts m (s.drop i.op.taken) (i.op.act start (operand ++ words)) result) :
      Performs m start i s result

/-- The faults of an instruction at `start`. The address after it is `past`. -/
inductive Arises (start past : Nat) : Fault → Prop
  | code {address} : Arises start past (.codeOutOfBounds address)
  | memory {address} : Arises start past (.memoryOutOfBounds address past)
  | division : Arises start past (.divisionByZero start)
  | collision {hp sp} : Arises start past (.heapStackCollision hp sp past)

variable {m : Machine} {s s' : State} {w : Word} {op : Opcode} {α β : Type}

/-! What an action has done if it succeeds. -/

theorem bind_eq_ok {x : Action α} {f : α → Action β} {b : β} (run : (x >>= f) s = .ok b s') :
    ∃ a s₁, x s = .ok a s₁ ∧ f a s₁ = .ok b s' := by
  cases begun : x s with
  | error fault s₁ =>
    rw [bind_error begun] at run
    cases run
  | ok a s₁ =>
    rw [bind_ok begun] at run
    exact ⟨a, s₁, rfl, run⟩

theorem loadWord_ok {address : Word} (run : loadWord address s = .ok w s') :
    s' = s ∧ ∃ i : Nat, address.toInt = i ∧ s.memory[i]? = some w := by
  unfold loadWord at run
  split at run
  · rename_i found
    cases run
    obtain ⟨i, named, listed⟩ := Option.bind_eq_some_iff.mp found
    exact ⟨rfl, i, Word.index?_eq_some.mp named, listed⟩
  · cases run

theorem storeWord_ok {address : Word} (run : storeWord address w s = .ok () s') :
    ∃ i, ∃ inside : i < s.memory.size, address.toInt = i ∧
      s' = { s with memory := s.memory.set i w inside } := by
  unfold storeWord at run
  split at run
  · cases run
  · rename_i i named
    split at run
    · rename_i inside
      cases run
      exact ⟨i, inside, Word.index?_eq_some.mp named, rfl⟩
    · cases run

theorem checkCollision_ok (run : m.checkCollision s = .ok () s') :
    s' = s ∧ (m.config.flags.checkCollision = true → s.hp < s.sp) := by
  unfold checkCollision at run
  split at run
  · cases run
  · rename_i clear
    cases run
    refine ⟨rfl, fun checks => ?_⟩
    simpa [checks] using clear

theorem top?_eq_some : s.top? = some w ↔ ∃ i : Nat, s.sp.toInt = i ∧ s.memory[i]? = some w := by
  simp only [State.top?, Option.bind_eq_some_iff, Word.index?_eq_some]

/-! Acts. -/

theorem loadWord_error {address : Word} {fault : Fault}
    (run : loadWord address s = .error fault s') :
    fault = .memoryOutOfBounds address s.ip ∧ s' = s := by
  unfold loadWord at run
  split at run <;> cases run
  exact ⟨rfl, rfl⟩

theorem storeWord_error {address : Word} {fault : Fault}
    (run : storeWord address w s = .error fault s') :
    fault = .memoryOutOfBounds address s.ip ∧ s' = s := by
  unfold storeWord at run
  split at run
  · cases run
    exact ⟨rfl, rfl⟩
  · split at run <;> cases run
    exact ⟨rfl, rfl⟩

theorem checkCollision_error {fault : Fault} (run : m.checkCollision s = .error fault s') :
    fault = .heapStackCollision s.hp s.sp s.ip ∧ s' = s := by
  unfold checkCollision at run
  split at run <;> cases run
  exact ⟨rfl, rfl⟩

theorem acts_push {act : Act} (gives : act.Gives s w) : Acts m s act (m.push w s) := by
  have unfolded : m.push w s = (do storeWord (s.sp - 1) w; setSp (s.sp - 1); m.checkCollision) s :=
    rfl
  rw [unfolded]
  cases stored : storeWord (s.sp - 1) w s with
  | error fault s₁ =>
    obtain ⟨rfl, rfl⟩ := storeWord_error stored
    rw [bind_error stored]
    exact .full gives
  | ok done s₁ =>
    obtain ⟨i, inside, place, rfl⟩ := storeWord_ok stored
    have moved : setSp (s.sp - 1) { s with memory := s.memory.set i w inside } =
      .ok () { s with memory := s.memory.set i w inside, sp := s.sp - 1 } := rfl
    rw [bind_ok stored, bind_ok moved]
    cases checked : m.checkCollision
        { s with memory := s.memory.set i w inside, sp := s.sp - 1 } with
    | error fault s₂ =>
      obtain ⟨rfl, rfl⟩ := checkCollision_error checked
      exact .collided gives place inside
    | ok done s₂ =>
      obtain ⟨rfl, clear⟩ := checkCollision_ok checked
      exact .pushed gives place inside clear

theorem push_ok (run : m.push w s = .ok () s') :
    ∃ i, ∃ inside : i < s.memory.size, (s.sp - 1).toInt = i ∧
      s' = { s with memory := s.memory.set i w inside, sp := s.sp - 1 } ∧
      (m.config.flags.checkCollision = true → s'.hp < s'.sp) := by
  have acts : Acts m s (.pushes fun _ => w) (m.push w s) := acts_push .pushes
  rw [run] at acts
  cases acts with
  | pushed gives place inside clear =>
    cases gives
    exact ⟨_, inside, place, rfl, clear⟩

theorem acts_run (m : Machine) (s : State) (act : Act) :
    Acts m s act (m.parts.run act s) := by
  cases act with
  | nothing => exact .nothing
  | fails fault => exact .failed
  | pushes value =>
    rw [Parts.run_pushes]
    exact acts_push .pushes
  | loads address =>
    show Acts m s (.loads address) ((loadWord address >>= m.push) s)
    cases loaded : loadWord address s with
    | error fault s' =>
      obtain ⟨rfl, rfl⟩ := loadWord_error loaded
      rw [bind_error loaded]
      exact .unloaded
    | ok w s' =>
      obtain ⟨rfl, i, place, found⟩ := loadWord_ok loaded
      rw [bind_ok loaded]
      exact acts_push (.loads place found)
  | stores address value =>
    show Acts m s (.stores address value) (storeWord address value s)
    cases stored : storeWord address value s with
    | error fault s' =>
      obtain ⟨rfl, rfl⟩ := storeWord_error stored
      exact .unstored
    | ok done s' =>
      obtain ⟨i, inside, place, rfl⟩ := storeWord_ok stored
      exact .stored place inside
  | jumps target =>
    show Acts m s (.jumps target) (jump target s)
    unfold jump
    split
    · rename_i named
      exact .jumped (Word.index?_eq_some.mp named)
    · exact .strayed
  | calls target =>
    show Acts m s (.calls target) (jump target { s with ra := Int32.ofNat s.ip })
    unfold jump
    split
    · rename_i named
      exact .called (Word.index?_eq_some.mp named)
    · exact .lost
  | setsRa ra => exact .ra
  | setsTm tm => exact .tm
  | setsFp value => exact .fp
  | setsHp hp =>
    show Acts m s (.setsHp hp) (m.checkCollision { s with hp })
    cases checked : m.checkCollision { s with hp } with
    | error fault s' =>
      obtain ⟨rfl, rfl⟩ := checkCollision_error checked
      exact .reached
    | ok done s' =>
      obtain ⟨rfl, clear⟩ := checkCollision_ok checked
      exact .hp clear
  | prints =>
    show Acts m s .prints (printTop s)
    have result : printTop s = .ok () { s with printed := s.printed ++ s.top?.toArray } := by
      unfold printTop
      split <;> simp [*]
    rw [result]
    exact .printed
  | halts => exact .halted

/-! Inputs. -/

theorem pop_eq (s : State) : pop s =
    match s.top? with
    | some w => .ok w (s.drop 1)
    | none => .error (.memoryOutOfBounds s.sp s.ip) s := by
  have unfolded : pop s =
      (do let value ← loadWord s.sp; setSp (s.sp + 1); return value : Action Word) s := rfl
  have loads : loadWord s.sp s =
      match s.top? with
      | some w => .ok w s
      | none => .error (.memoryOutOfBounds s.sp s.ip) s := rfl
  rw [unfolded]
  cases top : s.top? with
  | none =>
    rw [top] at loads
    rw [bind_error loads]
  | some w =>
    rw [top] at loads
    rw [bind_ok loads]
    rfl

theorem pop_ok (run : pop s = .ok w s') : s.top? = some w ∧ s' = s.drop 1 := by
  rw [pop_eq] at run
  split at run
  · rename_i top
    cases run
    exact ⟨top, rfl⟩
  · cases run

theorem State.drop_drop (s : State) (few more : Nat) :
    (s.drop few).drop more = s.drop (few + more) := by
  simp only [State.drop, Int32.ofNat_add, Int32.add_assoc]

theorem State.drop_zero (s : State) : s.drop 0 = s := by
  have zero : Int32.ofNat 0 = 0 := rfl
  simp [State.drop, zero]

theorem State.Tops.cons {words : List Word} (top : s.top? = some w) (tops : (s.drop 1).Tops words) :
    s.Tops (w :: words) := by
  intro k v listed
  cases k with
  | zero =>
    rw [State.drop_zero]
    simpa [top] using listed
  | succ k =>
    have next := tops k v (by simpa using listed)
    rwa [State.drop_drop, Nat.add_comm] at next

theorem pops_cases {p : Parts} (pops : p.pop = pop) (count : Nat) (s : State) :
    (∃ words, words.length = count ∧ s.Tops words ∧ p.pops count s = .ok words (s.drop count)) ∨
    ∃ words, words.length < count ∧ s.Tops words ∧
      p.pops count s =
        .error (.memoryOutOfBounds (s.drop words.length).sp s.ip) (s.drop words.length) := by
  induction count generalizing s with
  | zero =>
    refine .inl ⟨[], rfl, fun k w listed => by simp at listed, ?_⟩
    rw [State.drop_zero]
    rfl
  | succ count ih =>
    have popping := (congrFun pops s).trans (pop_eq s)
    cases top : s.top? with
    | none =>
      rw [top] at popping
      refine .inr ⟨[], Nat.succ_pos count, fun k w listed => by simp at listed, ?_⟩
      rw [List.length_nil, State.drop_zero]
      exact bind_error popping
    | some w =>
      rw [top] at popping
      have rest : p.pops (count + 1) s = (do return w :: (← p.pops count)) (s.drop 1) :=
        bind_ok popping
      rcases ih (s.drop 1) with ⟨words, long, tops, run⟩ | ⟨words, short, tops, run⟩
      · refine .inl ⟨w :: words, by simp [long], tops.cons top, ?_⟩
        rw [rest, bind_ok run, State.drop_drop, Nat.add_comm]
        rfl
      · refine .inr ⟨w :: words, by simpa using short, tops.cons top, ?_⟩
        rw [rest, bind_error run, State.drop_drop, List.length_cons, Nat.add_comm 1]
        rfl

/-! Instructions. -/

theorem performs (m : Machine) (start : Nat) (i : Instr) (s : State) :
    Performs m start i s (m.perform start i s) := by
  have reads {operand : List Word} (read : operand.length + 1 = i.op.width)
      (given : i.op.hasOperand = true → operand = i.operand.toList)
      (fetched : (m.supplied i.operand).operand i.op s = .ok operand s) :
      Performs m start i s (m.perform start i s) := by
    have popping := @pops_cases (m.supplied i.operand) rfl i.op.taken s
    rcases popping with ⟨words, long, tops, run⟩ | ⟨words, short, tops, run⟩
    · have inputs : (m.supplied i.operand).inputs i.op s =
          .ok (operand ++ words) (s.drop i.op.taken) :=
        (bind_ok fetched).trans (bind_ok run)
      rw [perform, Parts.exec, bind_ok inputs]
      exact .acted read given tops long (acts_run m _ _)
    · have inputs : (m.supplied i.operand).inputs i.op s =
          .error (.memoryOutOfBounds (s.drop words.length).sp s.ip) (s.drop words.length) :=
        (bind_ok fetched).trans (bind_error run)
      rw [perform, Parts.exec, bind_error inputs]
      exact .starved tops short
  cases takes : i.op.hasOperand with
  | false =>
    refine @reads [] ?_ ?_ ?_
    · simp [Opcode.width, takes]
    · simp [takes]
    · simp [Parts.operand, takes]
      rfl
  | true =>
    cases known : i.operand with
    | none =>
      have fetched : (m.supplied none).operand i.op s = .error (.codeOutOfBounds s.ip) s := by
        simp [Parts.operand, takes]
        rfl
      have inputs : (m.supplied none).inputs i.op s = .error (.codeOutOfBounds s.ip) s :=
        bind_error fetched
      rw [perform, known, Parts.exec, bind_error inputs]
      exact .unread
    | some w =>
      refine @reads [w] ?_ ?_ ?_
      · simp [Opcode.width, takes]
      · simp [known]
      · rw [known]
        simp [Parts.operand, takes]
        rfl

theorem fits_act (start : Nat) {operand words : List Word} (read : operand.length + 1 = op.width)
    (taken : words.length = op.taken) :
    (op.act start (operand ++ words)).Fits start op words := by
  cases op with
  | push | branch =>
    obtain ⟨w, rfl⟩ := List.length_eq_one_iff.mp (Nat.succ.inj read)
    obtain rfl := List.length_eq_zero_iff.mp taken
    rfl
  | branchEq | branchLessEq =>
    obtain ⟨target, rfl⟩ := List.length_eq_one_iff.mp (Nat.succ.inj read)
    obtain ⟨upper, lower, rfl⟩ := List.length_eq_two.mp taken
    simp only [List.singleton_append, Opcode.act_branchEq, Opcode.act_branchLessEq]
    split
    · rfl
    · simp [Act.Fits]
  | div =>
    obtain rfl := List.length_eq_zero_iff.mp (Nat.succ.inj read)
    obtain ⟨upper, lower, rfl⟩ := List.length_eq_two.mp taken
    rw [List.nil_append, Opcode.act_div]
    split <;> rfl
  | add | sub | mult =>
    obtain rfl := List.length_eq_zero_iff.mp (Nat.succ.inj read)
    obtain ⟨upper, lower, rfl⟩ := List.length_eq_two.mp taken
    rfl
  | storeW =>
    obtain rfl := List.length_eq_zero_iff.mp (Nat.succ.inj read)
    obtain ⟨address, value, rfl⟩ := List.length_eq_two.mp taken
    exact ⟨rfl, rfl⟩
  | pop | storeFp =>
    obtain rfl := List.length_eq_zero_iff.mp (Nat.succ.inj read)
    obtain ⟨w, rfl⟩ := List.length_eq_one_iff.mp taken
    exact .inl rfl
  | loadW | js | storeRa | storeTm | storeHp =>
    obtain rfl := List.length_eq_zero_iff.mp (Nat.succ.inj read)
    obtain ⟨w, rfl⟩ := List.length_eq_one_iff.mp taken
    rfl
  | copyFp =>
    obtain rfl := List.length_eq_zero_iff.mp (Nat.succ.inj read)
    obtain rfl := List.length_eq_zero_iff.mp taken
    exact .inr rfl
  | loadRa | loadTm | loadFp | loadHp | print | halt =>
    obtain rfl := List.length_eq_zero_iff.mp (Nat.succ.inj read)
    obtain rfl := List.length_eq_zero_iff.mp taken
    rfl

theorem Performs.arises {start : Nat} {i : Instr} {fault : Fault}
    (performed : Performs m start i s (.error fault s')) : Arises start s.ip fault := by
  cases performed with
  | unread => exact .code
  | starved => exact .memory
  | acted read _ _ taken acts =>
    have fits := fits_act start read taken
    generalize i.op.act start _ = act at acts fits
    cases acts with
    | failed =>
      obtain rfl := fits
      exact .division
    | full | unloaded | unstored => exact .memory
    | strayed | lost => exact .code
    | collided | reached => exact .collision

theorem pops_supplied (m : Machine) (operand : Option Word) (count : Nat) :
    (m.supplied operand).pops count = m.parts.pops count := by
  induction count with
  | zero => rfl
  | succ count ih =>
    rw [Parts.pops, ih]
    rfl

theorem exec_bare (bare : op.hasOperand = false) (start : Nat) :
    m.exec start op = m.perform start ⟨op, none⟩ := by
  simp only [exec_parts, perform, Parts.exec, Parts.inputs, Parts.operand, bare, pops_supplied]
  rfl

theorem exec_missing (takes : op.hasOperand = true) (start : Nat) (missing : m.code[s.ip]? = none) :
    m.exec start op s = .error (.codeOutOfBounds s.ip) s := by
  have failed : m.parts.fetch s = .error (.codeOutOfBounds s.ip) s := by
    simp [parts, fetch, missing]
  have operand : m.parts.operand op s = .error (.codeOutOfBounds s.ip) s := by
    rw [Parts.operand, if_pos takes]
    exact bind_error failed
  rw [exec_parts]
  exact bind_error (bind_error operand)

theorem exec_operand (takes : op.hasOperand = true) (start : Nat) (found : m.code[s.ip]? = some w) :
    m.exec start op s = m.perform start ⟨op, some w⟩ { s with ip := s.ip + 1 } := by
  have fetched : m.parts.fetch s = .ok w { s with ip := s.ip + 1 } := by
    simp [parts, fetch, found]
  have operand : m.parts.operand op s = .ok [w] { s with ip := s.ip + 1 } := by
    rw [Parts.operand, if_pos takes]
    exact bind_ok fetched
  have given : (m.supplied (some w)).operand op { s with ip := s.ip + 1 } =
      .ok [w] { s with ip := s.ip + 1 } := by
    rw [Parts.operand, if_pos takes]
    rfl
  have inputs : m.parts.inputs op s =
      (m.supplied (some w)).inputs op { s with ip := s.ip + 1 } := by
    rw [Parts.inputs, Parts.inputs, bind_ok operand, bind_ok given, pops_supplied]
  simp only [exec_parts, perform, Parts.exec, Bind.bind, EStateM.bind, inputs]
  rfl

/-- An instruction is performed when `ip` is past it, or misses its operand. -/
theorem exec_performs (m : Machine) (start : Nat) (op : Opcode) (s : State) :
    ∃ operand ip, Performs m start ⟨op, operand⟩ { s with ip } (m.exec start op s) := by
  cases takes : op.hasOperand with
  | false =>
    rw [exec_bare takes]
    exact ⟨none, s.ip, performs m start _ s⟩
  | true =>
    cases found : m.code[s.ip]? with
    | none =>
      rw [exec_missing takes start found]
      exact ⟨none, s.ip, .unread⟩
    | some w =>
      rw [exec_operand takes start found]
      exact ⟨some w, s.ip + 1, performs m start _ _⟩

/-! Steps. -/

inductive Steps (m : Machine) (s : State) : EStateM.Result Fault State Unit → Prop
  | halted (ended : s.halted = true) : Steps m s (.ok () s)
  | exhausted {limit} (running : s.halted = false) (used : m.exhausted? s = some limit) :
      Steps m s (.error (.stepLimitExceeded limit) s)
  | outside (running : s.halted = false) (missing : m.code[s.ip]? = none) :
      Steps m s (.error (.codeOutOfBounds s.ip) { s with steps := s.steps + 1 })
  | unknown {word} (running : s.halted = false) (found : m.code[s.ip]? = some word)
      (invalid : Opcode.ofWord? word = none) :
      Steps m s
        (.error (.invalidOpcode word s.ip) { s with steps := s.steps + 1, ip := s.ip + 1 })
  | executed {op result} (next : m.nextOpcode? s = some op)
      (run : m.exec s.ip op { s with steps := s.steps + 1, ip := s.ip + 1 } = result) :
      Steps m s result

theorem run_get (s : State) : (get : Action State) s = .ok s s := rfl

theorem step_of_halted (ended : s.halted = true) : m.step s = .ok () s := by simp [step, ended]

section Running

variable (running : s.halted = false)
  (left : ∀ limit, m.config.maxSteps = some limit → s.steps < limit)

include running left

theorem step_running : m.step s = m.execNext { s with steps := s.steps + 1 } := by
  have allowed : m.exhausted? s = none := by
    unfold exhausted?
    cases limited : m.config.maxSteps with
    | none => rfl
    | some limit =>
      have below := left limit limited
      simp [Option.filter, below]
  simp [step, running, allowed]

theorem step_outside (missing : m.code[s.ip]? = none) :
    m.step s = .error (.codeOutOfBounds s.ip) { s with steps := s.steps + 1 } := by
  rw [step_running running left]
  simp only [execNext, Bind.bind, EStateM.bind, run_get, fetch, missing]

theorem step_unknown (found : m.code[s.ip]? = some w) (unknown : Opcode.ofWord? w = none) :
    m.step s = .error (.invalidOpcode w s.ip) { s with steps := s.steps + 1, ip := s.ip + 1 } := by
  rw [step_running running left]
  simp only [execNext, Bind.bind, EStateM.bind, run_get, fetch, found, unknown]
  rfl

theorem step_known (found : m.code[s.ip]? = some w) (known : Opcode.ofWord? w = some op) :
    m.step s = m.exec s.ip op { s with steps := s.steps + 1, ip := s.ip + 1 } := by
  rw [step_running running left]
  simp only [execNext, Bind.bind, EStateM.bind, run_get, fetch, found, known]

end Running

theorem steps_left (limited : m.exhausted? s = none) :
    ∀ limit, m.config.maxSteps = some limit → s.steps < limit := by
  intro limit known
  simpa [exhausted?, known] using limited

theorem steps (m : Machine) (s : State) : Steps m s (m.step s) := by
  cases running : s.halted with
  | true =>
    rw [step_of_halted running]
    exact .halted running
  | false =>
    cases limited : m.exhausted? s with
    | some limit =>
      have stopped : m.step s = .error (.stepLimitExceeded limit) s := by
        simp [step, running, limited]
      rw [stopped]
      exact .exhausted running limited
    | none =>
      have left := steps_left limited
      cases found : m.code[s.ip]? with
      | none =>
        rw [step_outside running left found]
        exact .outside running found
      | some w =>
        cases known : Opcode.ofWord? w with
        | none =>
          rw [step_unknown running left found known]
          exact .unknown running found known
        | some op =>
          rw [step_known running left found known]
          exact .executed (by simp [nextOpcode?, running, limited, found, known]) rfl

end ObjectLang.Machine
