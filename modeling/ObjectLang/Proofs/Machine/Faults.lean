import ObjectLang.Proofs.Machine.Decoding
import ObjectLang.Proofs.Machine.Regularity

/-!
The code address that a fault names. An invalid opcode and a division by zero are reported with the
address where the instruction starts. A memory address out of bounds and a collision are reported
with the address after the instruction: they are found when the opcode and the operand have been
fetched, and `ip` is past both.
-/
namespace ObjectLang

namespace Fault

def ip? : Fault → Option Nat
  | .invalidOpcode _ ip | .memoryOutOfBounds _ ip | .divisionByZero ip
  | .heapStackCollision _ _ ip => some ip
  | .programTooLarge _ _ | .codeOutOfBounds _ | .stepLimitExceeded _ => none

def isAccess : Fault → Bool
  | .memoryOutOfBounds _ _ | .heapStackCollision _ _ _ => true
  | _ => false

/-- The fault names no address, or `past` if it is one of an access, or else `start`. -/
def Names (start past : Nat) (fault : Fault) : Prop :=
  ∀ ip, fault.ip? = some ip → ip = if fault.isAccess then past else start

end Fault

namespace Machine

variable {m : Machine} {s s' : State} {fault : Fault}

theorem Arises.names {start past : Nat} (arises : Arises start past fault) :
    fault.Names start past := by
  cases arises <;> rintro ip ⟨⟩ <;> rfl

/-- A step that fails and names an address has found an invalid opcode there, or the decoder finds an
instruction there, which the step performs. -/
theorem step_named (lines : List Line) {ip : Nat} (failed : m.step s = .error fault s')
    (named : fault.ip? = some ip) :
    (fault.isAccess = false ∧ ip = s.ip) ∨
      ∃ i, Image.decodeAt ⟨m.code.toList, lines⟩ s.ip = .ok i ∧
        fault.Names s.ip (s.ip + i.op.width) := by
  have running : s.halted = false := by
    by_contra halted
    rw [step_of_halted (by simpa using halted)] at failed
    cases failed
  cases limited : m.exhausted? s with
  | some limit =>
    simp only [step, running, limited, Bool.false_eq_true, if_false] at failed
    cases failed
    cases named
  | none =>
    have left := steps_left limited
    cases decoded : Image.decodeAt ⟨m.code.toList, lines⟩ s.ip with
    | error e =>
      rcases step_undecoded running left decoded with
        ⟨_, _, run⟩ | ⟨_, _, _, run⟩ | ⟨_, _, _, run⟩
      · rw [run] at failed
        cases failed
        cases named
      · rw [run] at failed
        cases failed
        cases named
        exact .inl ⟨rfl, rfl⟩
      · rw [run] at failed
        cases failed
        cases named
    | ok i =>
      have performed := performs m s.ip i { s with steps := s.steps + 1, ip := s.ip + i.op.width }
      rw [← step_decoded running left decoded, failed] at performed
      exact .inr ⟨i, rfl, performed.arises.names⟩

/-- Which instruction a failed step names. It is the one that failed if and only if the fault is not
one of an access to memory; such a fault names the address after the instruction that failed. -/
theorem step_fault_address (m : Machine) (lines : List Line) (s s' : State) (fault : Fault)
    (ip : Nat) (failed : m.step s = .error fault s') (named : fault.ip? = some ip) :
    (ip = s.ip ↔ fault.isAccess = false) ∧
      (fault.isAccess = true → ∃ i, Image.decodeAt ⟨m.code.toList, lines⟩ s.ip = .ok i ∧
        ip = s.ip + i.op.width) := by
  rcases step_named lines failed named with ⟨other, same⟩ | ⟨i, decoded, names⟩
  · simp [other, same]
  · have address := names ip named
    cases access : fault.isAccess with
    | false =>
      rw [access, if_neg (by simp)] at address
      simp [address]
    | true =>
      rw [access, if_pos rfl] at address
      have wide := i.op.width_pos
      have past : ip ≠ s.ip := by omega
      exact ⟨by simp [past], fun _ => ⟨i, decoded, address⟩⟩

def pushesNowhere : Machine := ⟨{ memorySize := 0 }, #[0, 7]⟩

theorem step_fault_address_pushesNowhere :
    ∃ s', pushesNowhere.step pushesNowhere.start = .error (.memoryOutOfBounds (-1) 2) s' ∧
      2 ≠ pushesNowhere.start.ip ∧
      ∃ i, Image.decodeAt ⟨[0, 7], []⟩ 0 = .ok i ∧ 2 = pushesNowhere.start.ip + i.op.width := by
  have failed : pushesNowhere.step pushesNowhere.start =
      .error (.memoryOutOfBounds (-1) 2) { pushesNowhere.start with steps := 1, ip := 2 } := rfl
  obtain ⟨names, past⟩ := step_fault_address pushesNowhere [] _ _ _ 2 failed rfl
  refine ⟨_, failed, fun same => ?_, past rfl⟩
  cases names.mp same

def popsNothing : Machine := ⟨{ memorySize := 3 }, #[1]⟩

/-- A step that fails need not name the instruction that failed: the first step of `popsNothing` is
at address 0 and names address 1. -/
theorem fault_address_past_pop :
    ¬ ∀ (m : Machine) (count : Nat) (reported : Option Fault) (s : State),
      (reported, s) ∈ m.history count →
      ∀ fault s' ip, m.step s = .error fault s' → fault.ip? = some ip → ip = s.ip := by
  intro named
  have first : (none, popsNothing.start) ∈ popsNothing.history 0 := .head _
  have failed : popsNothing.step popsNothing.start =
      .error (.memoryOutOfBounds 3 1) { popsNothing.start with steps := 1, ip := 1 } := rfl
  cases named popsNothing 0 none _ first _ _ 1 failed rfl

end Machine

end ObjectLang
