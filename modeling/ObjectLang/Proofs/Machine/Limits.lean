import ObjectLang.Proofs.Machine.Flags
import ObjectLang.Proofs.Machine.Regularity

/-!
Step limits. A machine with a limit runs in step with the machine without one until the limit is
used up. So it ends in the same way if that machine ends in time, and reports the limit if not; what
happens with the last step that is allowed still counts.
-/
namespace ObjectLang.Machine

variable {m : Machine} {s s' : State}

theorem steps_of_step (running : s.halted = false) (run : m.step s = .ok () s') :
    s'.steps = s.steps + 1 := by
  have stepped := steps m s
  rw [run] at stepped
  cases stepped with
  | halted ended =>
    rw [running] at ended
    cases ended
  | executed _ done =>
    obtain ⟨operand, ip, performed⟩ := exec_performs m s.ip _ _
    rw [done] at performed
    cases performed with
    | acted _ _ _ _ acts =>
      generalize Opcode.act _ _ _ = act at acts
      cases acts <;> rfl

theorem runFor_halted {budget : Nat} (ended : m.runFor budget s = .halted s') :
    ∃ taken ≤ budget, s'.steps = s.steps + taken ∧ m.runFor taken s = .halted s' := by
  induction budget generalizing s with
  | zero =>
    cases halted : s.halted with
    | false => simp [runFor, halted] at ended
    | true =>
      refine ⟨0, Nat.le_refl 0, ?_, ended⟩
      simp only [runFor, halted, if_true, Run.halted.injEq] at ended
      rw [ended, Nat.add_zero]
  | succ budget ih =>
    cases halted : s.halted with
    | true =>
      simp only [runFor, halted, if_true, Run.halted.injEq] at ended
      subst ended
      exact ⟨0, Nat.zero_le _, rfl, by simp [runFor, halted]⟩
    | false =>
      cases run : m.step s with
      | error fault s₁ =>
        rw [runFor_of_step_error halted run] at ended
        cases ended
      | ok done s₁ =>
        rw [runFor_of_step_ok halted run] at ended
        obtain ⟨taken, within, count, rest⟩ := ih ended
        refine ⟨taken + 1, Nat.succ_le_succ within, ?_, by rw [runFor_of_step_ok halted run, rest]⟩
        rw [count, steps_of_step halted run]
        omega

/-! Two machines that differ in their limit. -/

def withLimit (m : Machine) (limit : Option Nat) : Machine :=
  ⟨{ m.config with maxSteps := limit }, m.code⟩

theorem step_withLimit {limit : Nat} (left : s.steps < limit) :
    (m.withLimit (some limit)).step s = (m.withLimit none).step s := by
  have some : (m.withLimit (some limit)).exhausted? s = none := by
    simp [exhausted?, withLimit, left]
  have none : (m.withLimit none).exhausted? s = none := rfl
  have parts : (m.withLimit (.some limit)).parts = (m.withLimit .none).parts := rfl
  rw [step_parts, step_parts, parts]
  unfold Parts.step
  rw [some, none]

theorem step_exhausted {limit : Nat} (running : s.halted = false) (used : s.steps = limit) :
    (m.withLimit (some limit)).step s = .error (.stepLimitExceeded limit) s := by
  have limited : (m.withLimit (some limit)).exhausted? s = some limit := by
    simp [exhausted?, withLimit, Option.filter, used]
  simp [step, running, limited]

def Run.cutOff (limit : Nat) : Run → Run
  | .running s => .failed (.stepLimitExceeded limit) s
  | .halted s => .halted s
  | .failed fault s => .failed fault s

/-- With a step more than are left, the machine with a limit has ended, as the one without it has
or by the limit. -/
theorem runFor_withLimit {limit budget : Nat} (left : s.steps + budget = limit) :
    (m.withLimit (some limit)).runFor (budget + 1) s =
      ((m.withLimit none).runFor budget s).cutOff limit := by
  induction budget generalizing s with
  | zero =>
    cases halted : s.halted with
    | true => simp [runFor, halted, Run.cutOff]
    | false =>
      rw [runFor_of_step_error halted (step_exhausted halted left), runFor_zero halted]
      rfl
  | succ budget ih =>
    cases halted : s.halted with
    | true => simp [runFor, halted, Run.cutOff]
    | false =>
      have same : (m.withLimit (some limit)).step s = (m.withLimit none).step s :=
        step_withLimit (by omega)
      cases run : (m.withLimit none).step s with
      | error fault s₁ =>
        rw [run] at same
        rw [runFor_of_step_error halted run, runFor_of_step_error halted same]
        rfl
      | ok done s₁ =>
        rw [run] at same
        rw [runFor_of_step_ok halted run, runFor_of_step_ok halted same]
        apply ih
        rw [steps_of_step halted run]
        omega

theorem result?_cutOff (limit : Nat) (run : Run) :
    (run.cutOff limit).result? =
      some (run.result?.getD (.error (.stepLimitExceeded limit))) := by
  cases run <;> rfl

theorem execute_limited (config : Config) (p : Image) (limit : Nat) :
    execute { config with maxSteps := some limit } (limit + 1) p =
      some ((execute { config with maxSteps := none } limit p).getD
        (.error (.stepLimitExceeded limit))) := by
  by_cases large : config.codeSize < p.size
  · simp [execute, load, large]
  · simp only [execute, load, large, if_false]
    rw [← result?_cutOff]
    exact congrArg Run.result? (runFor_withLimit (Nat.zero_add limit) :
      ((⟨config, p.words.toArray⟩ : Machine).withLimit (some limit)).runFor (limit + 1)
        (start ⟨config, p.words.toArray⟩) = _)

theorem yields_limited {config : Config} {p : Image} {limit : Nat}
    {result : Option (Except Fault Outcome)} :
    Yields { config with maxSteps := some limit } p result ↔
      result = some ((execute { config with maxSteps := none } limit p).getD
        (.error (.stepLimitExceeded limit))) := by
  have yields : Yields { config with maxSteps := some limit } p (some _) :=
    ⟨limit + 1, execute_limited config p limit⟩
  constructor
  · exact yields_unique yields
  · intro same
    rw [same]
    exact yields

/-- The run of a program halts or fails with step number `count`. A program that cannot be loaded
fails before the first step. -/
def EndsAt (config : Config) (p : Image) (count : Nat) (result : Except Fault Outcome) : Prop :=
  execute config count p = some result ∧ ∀ fewer < count, execute config fewer p = none

theorem exists_endsAt {config : Config} {p : Image} {budget : Nat} {result : Except Fault Outcome}
    (done : execute config budget p = some result) :
    ∃ count ≤ budget, EndsAt config p count result := by
  induction budget with
  | zero => exact ⟨0, Nat.le_refl 0, done, fun fewer less => absurd less (Nat.not_lt_zero fewer)⟩
  | succ budget ih =>
    cases before : execute config budget p with
    | some other =>
      have same := execute_mono (Nat.le_succ budget) before
      rw [done, Option.some.injEq] at same
      subst same
      obtain ⟨count, within, ends⟩ := ih before
      exact ⟨count, Nat.le_succ_of_le within, ends⟩
    | none =>
      refine ⟨budget + 1, Nat.le_refl _, done, ?_⟩
      intro fewer less
      cases early : execute config fewer p with
      | none => rfl
      | some other =>
        rw [execute_mono (Nat.le_of_lt_succ less) early] at before
        cases before

theorem EndsAt.steps {config : Config} {p : Image} {count : Nat} {outcome : Outcome}
    (ends : EndsAt config p count (.ok outcome)) : outcome.steps = count := by
  obtain ⟨done, first⟩ := ends
  unfold execute at done first
  cases loaded : load config p with
  | error fault => simp [loaded] at done
  | ok m =>
    simp only [loaded] at done first
    cases run : m.runFor count m.start with
    | running s => simp [run, Run.result?] at done
    | failed fault s => simp [run, Run.result?] at done
    | halted s =>
      obtain ⟨taken, within, counted, halts⟩ := runFor_halted run
      rw [run] at done
      simp only [Run.result?, Option.some.injEq, Except.ok.injEq] at done
      have zero : m.start.steps = 0 := rfl
      have total : outcome.steps = taken := by
        rw [← done, State.outcome, counted, zero, Nat.zero_add]
      -- A run that had halted before would have had its result before.
      have late : ¬ taken < count := by
        intro early
        have nothing := first taken early
        rw [halts] at nothing
        cases nothing
      omega

/-- A run with a step limit always has a result: that of the run without one if it ends within the
limit, and the report of the limit if not. A higher limit changes nothing but that report. -/
theorem limit_agrees (config : Config) (p : Image) (limit : Nat) :
    (∀ count result, EndsAt { config with maxSteps := none } p count result → count ≤ limit →
      Yields { config with maxSteps := some limit } p (some result)) ∧
    ((∀ count result, EndsAt { config with maxSteps := none } p count result → limit < count) →
      Yields { config with maxSteps := some limit } p
        (some (.error (.stepLimitExceeded limit)))) ∧
    (∃ result, ∀ other, Yields { config with maxSteps := some limit } p other ↔
      other = some result) ∧
    (∀ outcome, EndsAt { config with maxSteps := none } p limit (.ok outcome) →
      outcome.steps = limit ∧
        Yields { config with maxSteps := some limit } p (some (.ok outcome))) ∧
    ∀ more result, limit ≤ more → Yields { config with maxSteps := some limit } p (some result) →
      result ≠ .error (.stepLimitExceeded limit) →
        Yields { config with maxSteps := some more } p (some result) := by
  have within : ∀ limit count result, EndsAt { config with maxSteps := none } p count result →
      count ≤ limit → Yields { config with maxSteps := some limit } p (some result) := by
    intro limit count result ends le
    rw [yields_limited, execute_mono le ends.1]
    rfl
  refine ⟨within limit, ?_, ⟨_, fun other => yields_limited⟩, ?_, ?_⟩
  · intro late
    rw [yields_limited]
    cases done : execute { config with maxSteps := none } limit p with
    | none => rfl
    | some result =>
      obtain ⟨count, le, ends⟩ := exists_endsAt done
      have := late count result ends
      omega
  · intro outcome ends
    exact ⟨ends.steps, within limit limit _ ends (Nat.le_refl limit)⟩
  · intro more result le yields other
    rw [yields_limited, Option.some.injEq] at yields
    cases done : execute { config with maxSteps := none } limit p with
    | none =>
      rw [done] at yields
      exact absurd yields other
    | some early =>
      rw [done] at yields
      obtain ⟨count, counted, ends⟩ := exists_endsAt done
      rw [yields]
      exact within more count early ends (Nat.le_trans counted le)

def threeSteps : Image := ⟨[0, 7, 21, 22], []⟩

theorem limit_agrees_threeSteps :
    EndsAt {} threeSteps 3 (.ok ⟨[7], some 7, 3⟩) ∧
      Yields { maxSteps := some 3 } threeSteps (some (.ok ⟨[7], some 7, 3⟩)) ∧
      Yields { maxSteps := some 2 } threeSteps (some (.error (.stepLimitExceeded 2))) := by
  have before : ∀ fewer < 3, execute { maxSteps := none } fewer threeSteps = none := by
    decide +kernel
  have ends : EndsAt { maxSteps := none } threeSteps 3 (.ok ⟨[7], some 7, 3⟩) :=
    ⟨by decide +kernel, before⟩
  refine ⟨ends, (limit_agrees {} threeSteps 3).1 3 _ ends (Nat.le_refl 3),
    (limit_agrees {} threeSteps 2).2.1 ?_⟩
  intro count result other
  cases Nat.lt_or_ge 2 count with
  | inl late => exact late
  | inr early =>
    have done := other.1
    rw [before count (by omega)] at done
    cases done

end ObjectLang.Machine
