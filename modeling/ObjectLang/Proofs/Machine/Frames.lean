import ObjectLang.Proofs.Machine.Flags
import ObjectLang.Proofs.Machine.Regularity

/-!
What a step can change. An instruction first reads: it fetches its operand, pops words and loads
one; then it acts, once. A failure before the act has popped at most two words and done nothing
else, and an act that fails has no effect, but for the check of a collision, which comes after the
act, and for the return address, which a call sets before it jumps. An act that succeeds writes at
most one word of memory and at most one register.
-/
namespace ObjectLang

def Fault.isLimit : Fault → Bool
  | .stepLimitExceeded _ => true
  | _ => false

/-- The address of the word that an instruction may write: the top of the stack as it leaves it, or
for a store the address that it finds there. -/
def Opcode.written (s s' : Machine.State) : Opcode → Option Word
  | .storeW => s.top?
  | _ => some s'.sp

namespace Machine

def State.counted (s : State) : State := { s with steps := s.steps + 1 }

/-- At most so many words have been popped, and nothing else has been done but to move `ip`; a `js`
may have set the return address. -/
structure Popped (op : Option Opcode) (words : Nat) (s s' : State) : Prop where
  memory : s'.memory = s.memory
  fp : s'.fp = s.fp
  hp : s'.hp = s.hp
  tm : s'.tm = s.tm
  printed : s'.printed = s.printed
  halted : s'.halted = s.halted
  steps : s'.steps = s.steps
  ra : op ≠ some .js → s'.ra = s.ra
  low : s.sp.toInt ≤ s'.sp.toInt
  high : s'.sp.toInt ≤ s.sp.toInt + words

/-- What an instruction may have changed: the word at one address, and the registers that its opcode
is for. -/
structure Changes (op : Opcode) (address : Word) (s s' : State) : Prop where
  size : s'.memory.size = s.memory.size
  memory : ∀ i : Nat, (i : Int) ≠ address.toInt → s'.memory[i]? = s.memory[i]?
  fp : s'.fp ≠ s.fp → op = .storeFp ∨ op = .copyFp
  hp : s'.hp ≠ s.hp → op = .storeHp
  ra : s'.ra ≠ s.ra → op = .storeRa ∨ op = .js
  tm : s'.tm ≠ s.tm → op = .storeTm
  printed : s'.printed ≠ s.printed → op = .print
  halted : s'.halted ≠ s.halted → op = .halt
  steps : s'.steps = s.steps

variable {m : Machine} {s s' : State} {start : Nat} {op : Opcode} {act : Act} {words : List Word}
  {fault : Fault}

theorem Popped.refl (op : Option Opcode) (words : Nat) (s : State) : Popped op words s s where
  memory := rfl
  fp := rfl
  hp := rfl
  tm := rfl
  printed := rfl
  halted := rfl
  steps := rfl
  ra := fun _ => rfl
  low := Int.le_refl _
  high := by omega

theorem Changes.refl (op : Opcode) (address : Word) (s : State) : Changes op address s s where
  size := rfl
  memory := fun _ _ => rfl
  fp := fun moved => absurd rfl moved
  hp := fun moved => absurd rfl moved
  ra := fun moved => absurd rfl moved
  tm := fun moved => absurd rfl moved
  printed := fun moved => absurd rfl moved
  halted := fun moved => absurd rfl moved
  steps := rfl

theorem Changes.set (op : Opcode) {address w : Word} {i : Nat} (place : address.toInt = i)
    (inside : i < s.memory.size) :
    Changes op address s { s with memory := s.memory.set i w inside } :=
  { Changes.refl op address s with
    size := Array.size_set inside
    memory := fun _ elsewhere => Array.getElem?_set_ne inside (by omega) }

/-- The address that an act writes to is the top of the stack as it leaves it, or what a store finds
there. -/
theorem Acts.changes (acts : Acts m s act (.ok () s')) (fits : act.Fits start op words) :
    ∃ address, (op = .storeW → words.head? = some address) ∧ (op ≠ .storeW → address = s'.sp) ∧
      Changes op address s s' := by
  have elsewhere (other : op ≠ .storeW) (changes : Changes op s'.sp s s') :
      ∃ address, (op = .storeW → words.head? = some address) ∧ (op ≠ .storeW → address = s'.sp) ∧
        Changes op address s s' :=
    ⟨s'.sp, fun same => absurd same other, fun _ => rfl, changes⟩
  have none := Changes.refl op s.sp s
  cases acts with
  | pushed gives place inside clear =>
    have one : op.given = 1 := by cases gives <;> exact fits
    refine elsewhere ?_ { Changes.set op place inside with }
    rintro rfl
    cases one
  | stored place inside =>
    exact ⟨_, fun _ => fits.2, fun other => absurd fits.1 other, .set op place inside⟩
  | nothing => exact elsewhere (by rcases fits with rfl | rfl | rfl <;> nofun) none
  | jumped => exact elsewhere (by rintro rfl; cases fits) { none with }
  | called =>
    obtain rfl := fits
    exact elsewhere nofun { none with ra := fun _ => .inr rfl }
  | ra =>
    obtain rfl := fits
    exact elsewhere nofun { none with ra := fun _ => .inl rfl }
  | tm =>
    obtain rfl := fits
    exact elsewhere nofun { none with tm := fun _ => rfl }
  | fp => exact elsewhere (by rcases fits with rfl | rfl <;> nofun) { none with fp := fun _ => fits }
  | hp =>
    obtain rfl := fits
    exact elsewhere nofun { none with hp := fun _ => rfl }
  | printed =>
    obtain rfl := fits
    exact elsewhere nofun { none with printed := fun _ => rfl }
  | halted =>
    obtain rfl := fits
    exact elsewhere nofun { none with halted := fun _ => rfl }

theorem changes_exec (run : m.exec start op s = .ok () s') :
    ∃ address, op.written s s' = some address ∧ Changes op address s s' := by
  obtain ⟨operand, ip, performed⟩ := exec_performs m start op s
  rw [run] at performed
  cases performed with
  | @acted _ words _ read _ tops taken acts =>
    obtain ⟨address, stored, pushed, changes⟩ := acts.changes (fits_act start read taken)
    refine ⟨address, ?_, { changes with }⟩
    by_cases store : op = .storeW
    · obtain rfl := store
      have first := stored rfl
      rw [List.head?_eq_getElem?] at first
      have top := tops 0 address first
      rwa [State.drop_zero] at top
    · rw [pushed store]
      cases op <;> first | rfl | exact absurd rfl store

theorem Bounded.counted (bounded : m.Bounded s) (steps ip : Nat) :
    m.Bounded { s with steps := steps, ip := ip } :=
  ⟨bounded.memory, bounded.low, bounded.high⟩

section Bounded

variable (small : m.config.memorySize < Word.limit) (bounded : m.Bounded s)
include small bounded

theorem Popped.drop (op : Option Opcode) (tops : s.Tops words) (few : words.length ≤ 2) :
    Popped op 2 s (s.drop words.length) := by
  have moved := bounded.toInt_sp_drop small tops
  exact { Popped.refl op 2 s with
    low := by omega
    high := by omega }

theorem popped_exec (run : m.exec start op s = .error fault s') :
    fault.isLimit = false ∧ (fault.isCollision = false → Popped (some op) 2 s s') := by
  obtain ⟨operand, ip, performed⟩ := exec_performs m start op s
  rw [run] at performed
  refine ⟨by cases performed.arises <;> rfl, fun apart => ?_⟩
  have few : op.taken ≤ 2 := by cases op <;> decide
  have here := bounded.counted s.steps ip
  cases performed with
  | unread => exact { Popped.refl (some op) 2 s with }
  | starved tops short =>
    exact { Popped.drop small here (some op) tops (Nat.le_trans (Nat.le_of_lt short) few) with }
  | acted read _ tops taken acts =>
    have fits := fits_act start read taken
    have dropped := Popped.drop small here (some op) tops (taken ▸ few)
    rw [taken] at dropped
    generalize op.act start _ = act at acts fits
    cases acts with
    | failed | full | unloaded | unstored | strayed => exact { dropped with }
    | collided | reached => cases apart
    | lost => exact { dropped with ra := fun other => absurd (congrArg some fits) other }

theorem step_error (run : m.step s = .error fault s') :
    (fault.isLimit = true ∧ s' = s) ∨
      fault.isLimit = false ∧ (fault.isCollision = false →
        Popped (m.nextOpcode? s) 2 s.counted s') := by
  have stepped := steps m s
  rw [run] at stepped
  cases stepped with
  | exhausted => exact .inl ⟨rfl, rfl⟩
  | outside => exact .inr ⟨rfl, fun _ => .refl _ _ _⟩
  | unknown => exact .inr ⟨rfl, fun _ => { Popped.refl _ 2 s.counted with }⟩
  | executed next failed =>
    obtain ⟨unlimited, popped⟩ := popped_exec small (bounded.counted _ _) failed
    rw [next]
    exact .inr ⟨unlimited, fun apart => { popped apart with }⟩

end Bounded

theorem step_changes (running : s.halted = false) (run : m.step s = .ok () s') :
    ∃ op address, m.nextOpcode? s = some op ∧ op.written s s' = some address ∧
      Changes op address s.counted s' := by
  have stepped := steps m s
  rw [run] at stepped
  cases stepped with
  | halted ended =>
    rw [running] at ended
    cases ended
  | executed next done =>
    obtain ⟨address, written, changes⟩ := changes_exec done
    exact ⟨_, address, next, written, { changes with }⟩

theorem regular_of_history (small : m.config.memorySize < Word.limit) {count : Nat}
    {reported : Option Fault} (reached : (reported, s) ∈ m.history count) : m.Regular s := by
  have regular := regular_start small
  rcases List.mem_cons.mp reached with same | later
  · cases same
    exact regular
  · exact (regular.calls small none count _ later).1

/-- What a call of `step` changes, in every state that calls can lead to. A call after the machine
has halted or without a step left changes nothing. A call that fails, but not for a collision, has
counted a step, popped at most two words and moved `ip`, and a `js` may have set the return address.
A call that succeeds has written at most one word, on top of the stack or where a store says, and
of the registers those that its opcode is for. -/
theorem step_frame (m : Machine) (small : m.config.memorySize < Word.limit) (count : Nat)
    (reported : Option Fault) (s : State) (reached : (reported, s) ∈ m.history count) :
    (s.halted = true → m.step s = .ok () s) ∧
    (∀ limit s', m.step s = .error (.stepLimitExceeded limit) s' → s' = s) ∧
    (∀ fault s', m.step s = .error fault s' → fault.isLimit = false → fault.isCollision = false →
      Popped (m.nextOpcode? s) 2 s.counted s') ∧
    ∀ s', m.step s = .ok () s' → s.halted = false →
      ∃ op address, m.nextOpcode? s = some op ∧ op.written s s' = some address ∧
        Changes op address s.counted s' := by
  have bounded := (regular_of_history small reached).bounded
  refine ⟨step_of_halted, ?_, ?_, ?_⟩
  · intro limit s' run
    rcases step_error small bounded run with ⟨_, same⟩ | ⟨unlimited, _⟩
    · exact same
    · cases unlimited
  · intro fault s' run unlimited apart
    rcases step_error small bounded run with ⟨limited, _⟩ | ⟨_, popped⟩
    · rw [unlimited] at limited
      cases limited
    · exact popped apart
  · intro s' run running
    exact step_changes running run

def lostCall : Machine := ⟨{ memorySize := 3 }, #[0, 7, 0, 0, 6, 0, -5, 11]⟩

def beforeStore : State :=
  { lostCall.start with memory := #[0, 0, 7], ip := 4, sp := 1, steps := 2 }

def beforeCall : State :=
  { lostCall.start with memory := #[7, 0, -5], ip := 7, sp := 2, steps := 4 }

theorem step_frame_lostCall :
    (∃ s', lostCall.step beforeStore = .ok () s' ∧ s'.memory = #[7, 0, 7] ∧
      ∃ op address, lostCall.nextOpcode? beforeStore = some op ∧
        op.written beforeStore s' = some address ∧ Changes op address beforeStore.counted s') ∧
    ∃ s', lostCall.step beforeCall = .error (.codeOutOfBounds (-5)) s' ∧ s'.ra = 8 ∧
      Popped (lostCall.nextOpcode? beforeCall) 2 beforeCall.counted s' := by
  have stored : (none, beforeStore) ∈ lostCall.history 4 := .tail _ (.tail _ (.head _))
  have called : (none, beforeCall) ∈ lostCall.history 4 :=
    .tail _ (.tail _ (.tail _ (.tail _ (.head _))))
  obtain ⟨_, _, _, changes⟩ := step_frame lostCall (by decide) 4 none beforeStore stored
  obtain ⟨_, _, popped, _⟩ := step_frame lostCall (by decide) 4 none beforeCall called
  exact ⟨⟨_, rfl, rfl, changes _ rfl rfl⟩, ⟨_, rfl, rfl, popped _ _ rfl rfl rfl⟩⟩

end Machine

end ObjectLang
