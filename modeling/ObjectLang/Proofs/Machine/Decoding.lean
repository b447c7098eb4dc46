import ObjectLang.Proofs.Machine.Outcomes

/-!
Steps against the decoder. The machine fetches an instruction word by word while it executes it; the
decoder reads the whole instruction at once. They read the same: where the decoder finds no
instruction the step fails with the corresponding fault, and where it finds one the step executes
that instruction with that operand, whether or not the execution succeeds.
-/
namespace ObjectLang

def Opcode.isJump (op : Opcode) : Bool := op.isBranch || op == .js

def Machine.State.second? (s : State) : Option Word := { s with sp := s.sp + 1 : State }.top?

def Instr.target? (s : Machine.State) (i : Instr) : Option Word :=
  match i.op with
  | .branch => i.operand
  | .branchEq => if s.second? = s.top? then i.operand else none
  | .branchLessEq =>
    match s.second?, s.top? with
    | some lower, some upper => if lower ≤ upper then i.operand else none
    | _, _ => none
  | .js => s.top?
  | _ => none

namespace Machine

variable {m : Machine} {s s' : State} {start : Nat} {i : Instr}

def Act.target? : Act → Option Word
  | .jumps target | .calls target => some target
  | _ => none

theorem Acts.ip {act : Act} (acts : Acts m s act (.ok () s')) :
    (s'.ip : Int) = (act.target?.map Int32.toInt).getD s.ip := by
  cases acts with
  | pushed gives => cases gives <;> rfl
  | jumped named | called named => exact named.symm
  | _ => rfl

theorem target?_act (start : Nat) {operand words : List Word}
    (read : operand.length + 1 = i.op.width)
    (given : i.op.hasOperand = true → operand = i.operand.toList) (tops : s.Tops words)
    (taken : words.length = i.op.taken) :
    (i.op.act start (operand ++ words)).target? = i.target? s := by
  have top {w : Word} (first : words[0]? = some w) : s.top? = some w := by
    have found := tops 0 w first
    rwa [State.drop_zero] at found
  have second {w : Word} (next : words[1]? = some w) : s.second? = some w := tops 1 w next
  have fits := fits_act start read taken
  obtain ⟨op, known⟩ := i
  cases op with
  | branch =>
    obtain rfl := given rfl
    obtain rfl := List.length_eq_zero_iff.mp taken
    cases known with
    | none => cases read
    | some target => rfl
  | branchEq | branchLessEq =>
    obtain rfl := given rfl
    obtain ⟨upper, lower, rfl⟩ := List.length_eq_two.mp taken
    cases known with
    | none => cases read
    | some target =>
      simp only [Option.toList_some, List.singleton_append, Opcode.act_branchEq,
        Opcode.act_branchLessEq, Instr.target?, top rfl, second rfl, Option.some.injEq]
      split <;> rfl
  | js =>
    obtain rfl := List.length_eq_zero_iff.mp (Nat.succ.inj read)
    obtain ⟨target, rfl⟩ := List.length_eq_one_iff.mp taken
    exact (top rfl).symm
  | _ =>
    generalize Opcode.act start _ _ = act at fits
    cases act <;> first | rfl | cases fits

theorem ip_perform (run : m.perform start i s = .ok () s') :
    (s'.ip : Int) = ((i.target? s).map Int32.toInt).getD s.ip := by
  have performed := performs m start i s
  rw [run] at performed
  cases performed with
  | acted read given tops taken acts =>
    rw [acts.ip, target?_act start read given tops taken]
    rfl

theorem ip_perform_forward (forward : i.op.isJump = false)
    (run : m.perform start i s = .ok () s') : s'.ip = s.ip := by
  have none : i.target? s = none := by
    obtain ⟨op, operand⟩ := i
    cases op <;> first | rfl | cases forward
  have ip := ip_perform run
  rw [none] at ip
  exact Int.ofNat_inj.mp ip

theorem ra_js {operand : Option Word} (run : m.perform start ⟨.js, operand⟩ s = .ok () s') :
    s'.ra = Int32.ofNat s.ip := by
  have performed := performs m start ⟨.js, operand⟩ s
  rw [run] at performed
  cases performed with
  | acted read _ _ taken acts =>
    obtain rfl := List.length_eq_zero_iff.mp (Nat.succ.inj read)
    obtain ⟨target, rfl⟩ := List.length_eq_one_iff.mp taken
    cases acts with
    | called => rfl
    | pushed gives => cases gives

/-! Steps of a machine that is running and has a step left. -/

section Running

variable (running : s.halted = false)
  (left : ∀ limit, m.config.maxSteps = some limit → s.steps < limit)

include running left

theorem step_undecoded {lines : List Line} {e : DecodeError}
    (failed : Image.decodeAt ⟨m.code.toList, lines⟩ s.ip = .error e) :
    (e = .outOfBounds s.ip ∧ ∃ s', m.step s = .error (.codeOutOfBounds s.ip) s') ∨
    (∃ word, e = .invalidOpcode word s.ip ∧ ∃ s', m.step s = .error (.invalidOpcode word s.ip) s') ∨
    ∃ op, e = .missingOperand op s.ip ∧
      ∃ s', m.step s = .error (.codeOutOfBounds (s.ip + 1)) s' := by
  simp only [Image.decodeAt, Array.getElem?_toList] at failed
  cases found : m.code[s.ip]? with
  | none =>
    simp only [found, Except.error.injEq] at failed
    exact .inl ⟨failed.symm, _, step_outside running left found⟩
  | some w =>
    cases known : Opcode.ofWord? w with
    | none =>
      simp only [found, known, Except.error.injEq] at failed
      exact .inr (.inl ⟨w, failed.symm, _, step_unknown running left found known⟩)
    | some op =>
      cases takes : op.hasOperand with
      | false => simp [found, known, takes] at failed
      | true =>
        cases next : m.code[s.ip + 1]? with
        | some operand => simp [found, known, takes, next] at failed
        | none =>
          simp only [found, known, takes, next, if_true, Except.error.injEq] at failed
          have run := step_known running left found known
          rw [exec_missing takes s.ip next] at run
          exact .inr (.inr ⟨op, failed.symm, _, run⟩)

theorem step_decoded {lines : List Line} {i : Instr}
    (done : Image.decodeAt ⟨m.code.toList, lines⟩ s.ip = .ok i) :
    m.step s = m.perform s.ip i { s with steps := s.steps + 1, ip := s.ip + i.op.width } := by
  simp only [Image.decodeAt, Array.getElem?_toList] at done
  cases found : m.code[s.ip]? with
  | none => simp [found] at done
  | some w =>
    cases known : Opcode.ofWord? w with
    | none => simp [found, known] at done
    | some op =>
      rw [step_known running left found known]
      cases takes : op.hasOperand with
      | false =>
        simp only [found, known, takes, Bool.false_eq_true, if_false, Except.ok.injEq] at done
        subst done
        simp only [Opcode.width, takes, Bool.false_eq_true, if_false]
        rw [exec_bare takes]
      | true =>
        cases next : m.code[s.ip + 1]? with
        | none => simp [found, known, takes, next] at done
        | some operand =>
          simp only [found, known, takes, next, if_true, Except.ok.injEq] at done
          subst done
          simp only [Opcode.width, takes, if_true]
          exact exec_operand takes s.ip next

end Running

/-- The machine and the decoder read the same program. Where the decoder finds no instruction, the
step fails accordingly. Where it finds one, the step executes it, and if it succeeds, `ip` is at the
target of the instruction, if it jumps, and past the instruction, if not. -/
theorem step_agrees_decoder (m : Machine) (lines : List Line) (s : State)
    (running : s.halted = false)
    (left : ∀ limit, m.config.maxSteps = some limit → s.steps < limit) :
    (∀ address, Image.decodeAt ⟨m.code.toList, lines⟩ s.ip = .error (.outOfBounds address) →
      address = s.ip ∧ ∃ s', m.step s = .error (.codeOutOfBounds s.ip) s') ∧
    (∀ word address,
      Image.decodeAt ⟨m.code.toList, lines⟩ s.ip = .error (.invalidOpcode word address) →
      address = s.ip ∧ ∃ s', m.step s = .error (.invalidOpcode word s.ip) s') ∧
    (∀ op address,
      Image.decodeAt ⟨m.code.toList, lines⟩ s.ip = .error (.missingOperand op address) →
      address = s.ip ∧ ∃ s', m.step s = .error (.codeOutOfBounds (s.ip + 1)) s') ∧
    ∀ i, Image.decodeAt ⟨m.code.toList, lines⟩ s.ip = .ok i →
      (∀ word ip s', m.step s ≠ .error (.invalidOpcode word ip) s') ∧
      m.step s = m.perform s.ip i { s with steps := s.steps + 1, ip := s.ip + i.op.width } ∧
      ∀ s', m.step s = .ok () s' →
        (s'.ip : Int) = ((i.target? s).map Int32.toInt).getD (s.ip + i.op.width) ∧
        (i.op = .js → s'.ra = Int32.ofNat (s.ip + 1)) := by
  refine ⟨?_, ?_, ?_, ?_⟩
  · intro address failed
    rcases step_undecoded running left failed with ⟨same, run⟩ | ⟨_, same, _⟩ | ⟨_, same, _⟩ <;>
      cases same
    exact ⟨rfl, run⟩
  · intro word address failed
    rcases step_undecoded running left failed with ⟨same, _⟩ | ⟨_, same, run⟩ | ⟨_, same, _⟩ <;>
      cases same
    exact ⟨rfl, run⟩
  · intro op address failed
    rcases step_undecoded running left failed with ⟨same, _⟩ | ⟨_, same, _⟩ | ⟨_, same, run⟩ <;>
      cases same
    exact ⟨rfl, run⟩
  · intro i done
    have performed := step_decoded running left done
    refine ⟨?_, performed, ?_⟩
    · intro word ip s' failed
      have done := performs m s.ip i { s with steps := s.steps + 1, ip := s.ip + i.op.width }
      rw [← performed, failed] at done
      cases done.arises
    · intro s' run
      rw [performed] at run
      refine ⟨ip_perform run, ?_⟩
      intro call
      obtain ⟨op, operand⟩ := i
      obtain rfl : op = .js := call
      exact ra_js run

def cutOffBranch : Machine := ⟨{ memorySize := 2, maxSteps := some 1 }, #[9, 7, 8]⟩

def equalWords (ip : Nat) : State := { cutOffBranch.start with memory := #[5, 5], sp := 0, ip := ip }

theorem step_agrees_decoder_cutOffBranch :
    (∃ s', cutOffBranch.step (equalWords 0) = .ok () s' ∧ s'.ip = 7) ∧
      ∃ s', cutOffBranch.step (equalWords 2) = .error (.codeOutOfBounds 3) s' := by
  have left : ∀ limit, cutOffBranch.config.maxSteps = some limit → 0 < limit := by
    intro limit known
    cases known
    decide
  obtain ⟨_, _, _, first⟩ := step_agrees_decoder cutOffBranch [] (equalWords 0) rfl left
  obtain ⟨_, _, second, _⟩ := step_agrees_decoder cutOffBranch [] (equalWords 2) rfl left
  obtain ⟨_, _, taken⟩ := first ⟨.branchEq, some 7⟩ rfl
  refine ⟨⟨_, rfl, ?_⟩, (second .branch 2 rfl).2⟩
  have ip := (taken _ rfl).1
  have target : Instr.target? (equalWords 0) ⟨.branchEq, some 7⟩ = some 7 := by decide +kernel
  rw [target] at ip
  exact Int.ofNat_inj.mp ip

end Machine

end ObjectLang
