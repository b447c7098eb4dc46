import Mathlib.Logic.Relation
import ObjectLang.Proofs.Code.Encoding
import ObjectLang.Proofs.Code.Layout
import ObjectLang.Proofs.Machine.Actions

/-!
Steps and runs on snapshots. An instruction that stands in the program at the current address is
executed by a step; straight code is executed by one step after the other. What holds of the result
of a run from one point holds of its result from every point that leads there.
-/
namespace ObjectLang.Machine

structure Linked (m : Machine) (labels : Labels) : Prop where
  memory : m.config.memorySize < Word.limit
  code : m.code.size < Word.limit
  labels : ∀ l target, labels.address? l = some target → target < Word.limit

def Advances (m : Machine) (p q : Point) : Prop := Does m m.step p () q

def Goes (m : Machine) : Point → Point → Prop := Relation.ReflTransGen m.Advances

def Stops (m : Machine) (p : Point) (kind : Fault → Prop) : Prop := Fails m m.step p kind

variable {m : Machine} {labels : Labels} {ip : Nat} {c : Snapshot} {p q r : Point} {op : Opcode}
  {kind : Fault → Prop}

theorem step_eq {s : State} (shows : m.Shows s (ip, c)) (found : m.code[ip]? = some op.toWord) :
    (∃ s', m.Shows s' (ip + 1, c) ∧ m.step s = m.exec ip op s') ∨
      ∃ fault s', m.step s = .error fault s' ∧ m.Exhausts s' fault := by
  have here : s.ip = ip := shows.ip
  unfold step
  rw [if_neg (by simp [shows.running])]
  cases limited : m.exhausted? s with
  | some limit =>
    obtain ⟨known, _⟩ := Option.filter_eq_some_iff.mp limited
    exact .inr ⟨_, s, rfl, by simp [Exhausts, known]⟩
  | none =>
    have counted : m.Shows { s with steps := s.steps + 1 } (ip, c) := { shows with }
    left
    refine ⟨{ s with steps := s.steps + 1, ip := s.ip + 1 }, ?_, ?_⟩
    · exact { counted with ip := by simp [here] }
    · have read (s : State) : (get : Action State) s = .ok s s := rfl
      simp only [execNext, bind, EStateM.bind, read, fetch, here, found, Opcode.ofWord?_toWord]

theorem advances_of_exec (found : m.code[ip]? = some op.toWord)
    (done : Does m (m.exec ip op) (ip + 1, c) () q) : m.Advances (ip, c) q := by
  intro s shows
  rcases step_eq shows found with ⟨s', shows', run⟩ | exhausted
  · rw [run]
    exact done s' shows'
  · exact .inr exhausted

theorem stops_of_exec (found : m.code[ip]? = some op.toWord)
    (fails : Fails m (m.exec ip op) (ip + 1, c) kind) : m.Stops (ip, c) kind := by
  intro s shows
  rcases step_eq shows found with ⟨s', shows', run⟩ | ⟨fault, s', run, exhausted⟩
  · rw [run]
    exact fails s' shows'
  · exact ⟨fault, s', run, .inr exhausted⟩

/-! Ends of runs. -/

def Run.ended : Run → Bool
  | .running _ => false
  | .halted _ | .failed _ _ => true

/-- If the run ends within the budget, it ends as wanted. -/
def Safe (m : Machine) (wanted : Run → Prop) (budget : Nat) (p : Point) : Prop :=
  ∀ s, m.Shows s p → (m.runFor budget s).ended = true → wanted (m.runFor budget s)

def Ends (m : Machine) (wanted : Run → Prop) (p : Point) : Prop :=
  ∀ s, m.Shows s p → ∃ budget, (m.runFor budget s).ended = true ∧ wanted (m.runFor budget s)

def Lenient (m : Machine) (wanted : Run → Prop) : Prop :=
  ∀ s fault, m.Exhausts s fault → wanted (.failed fault s)

variable {wanted : Run → Prop} {budget : Nat}

theorem runFor_of_step_ok {s s' : State} (running : s.halted = false) (run : m.step s = .ok () s') :
    m.runFor (budget + 1) s = m.runFor budget s' := by
  simp [runFor, running, run]

theorem runFor_of_step_error {s s' : State} {fault : Fault} (running : s.halted = false)
    (run : m.step s = .error fault s') : m.runFor (budget + 1) s = .failed fault s' := by
  simp [runFor, running, run]

theorem runFor_zero {s : State} (running : s.halted = false) : m.runFor 0 s = .running s := by
  simp [runFor, running]

theorem runFor_mono {more : Nat} (le : budget ≤ more) {s : State}
    (ended : (m.runFor budget s).ended = true) : m.runFor more s = m.runFor budget s := by
  induction budget generalizing s more with
  | zero =>
    cases halted : s.halted with
    | false => simp [runFor_zero halted, Run.ended] at ended
    | true => cases more <;> simp [runFor, halted]
  | succ budget ih =>
    obtain ⟨more, rfl⟩ : ∃ n, more = n + 1 := ⟨more - 1, by omega⟩
    unfold runFor at ended ⊢
    cases halted : s.halted with
    | true => rfl
    | false =>
      simp only [halted, Bool.false_eq_true, if_false] at ended ⊢
      cases run : m.step s with
      | error fault s' => rfl
      | ok done s' =>
        simp only [run] at ended
        exact ih (by omega) ended

theorem Safe.mono {more : Nat} (le : budget ≤ more) (safe : m.Safe wanted more p) :
    m.Safe wanted budget p := by
  intro s shows ended
  have same := runFor_mono le ended
  rw [← same] at ended ⊢
  exact safe s shows ended

theorem safe_zero : m.Safe wanted 0 p := by
  intro s shows ended
  simp [runFor_zero shows.running, Run.ended] at ended

theorem Advances.safe (lenient : m.Lenient wanted) (advances : m.Advances p q)
    (safe : m.Safe wanted budget q) : m.Safe wanted (budget + 1) p := by
  intro s shows ended
  rcases advances s shows with ⟨s', run, shows'⟩ | ⟨fault, s', run, exhausted⟩
  · rw [runFor_of_step_ok shows.running run] at ended ⊢
    exact safe s' shows' ended
  · rw [runFor_of_step_error shows.running run]
    exact lenient s' fault exhausted

theorem Goes.safe (lenient : m.Lenient wanted) (goes : m.Goes p q)
    (safe : m.Safe wanted budget q) : m.Safe wanted budget p := by
  induction goes using Relation.ReflTransGen.head_induction_on with
  | refl => exact safe
  | head advances _ ih => exact (advances.safe lenient ih).mono (Nat.le_succ _)

theorem Stops.safe (lenient : m.Lenient wanted) (stops : m.Stops p kind)
    (allowed : ∀ fault s, kind fault → wanted (.failed fault s)) : m.Safe wanted budget p := by
  cases budget with
  | zero => exact safe_zero
  | succ budget =>
    intro s shows ended
    obtain ⟨fault, s', run, reason⟩ := stops s shows
    rw [runFor_of_step_error shows.running run]
    exact reason.elim (allowed fault s') (lenient s' fault)

theorem Advances.ends (lenient : m.Lenient wanted) (advances : m.Advances p q)
    (ends : m.Ends wanted q) : m.Ends wanted p := by
  intro s shows
  rcases advances s shows with ⟨s', run, shows'⟩ | ⟨fault, s', run, exhausted⟩
  · obtain ⟨budget, ended, good⟩ := ends s' shows'
    refine ⟨budget + 1, ?_⟩
    rw [runFor_of_step_ok shows.running run]
    exact ⟨ended, good⟩
  · refine ⟨1, ?_⟩
    rw [runFor_of_step_error shows.running run]
    exact ⟨rfl, lenient s' fault exhausted⟩

theorem Goes.ends (lenient : m.Lenient wanted) (goes : m.Goes p q) (ends : m.Ends wanted q) :
    m.Ends wanted p := by
  induction goes using Relation.ReflTransGen.head_induction_on with
  | refl => exact ends
  | head advances _ ih => exact advances.ends lenient ih

theorem Stops.ends (lenient : m.Lenient wanted) (stops : m.Stops p kind)
    (allowed : ∀ fault s, kind fault → wanted (.failed fault s)) : m.Ends wanted p := by
  intro s shows
  obtain ⟨fault, s', run, reason⟩ := stops s shows
  refine ⟨1, ?_⟩
  rw [runFor_of_step_error shows.running run]
  exact ⟨rfl, reason.elim (allowed fault s') (lenient s' fault)⟩

end ObjectLang.Machine
