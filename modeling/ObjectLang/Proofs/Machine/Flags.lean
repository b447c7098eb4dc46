import ObjectLang.Proofs.Machine.Execution
import ObjectLang.Proofs.Machine.Parts

/-!
What the flags change. Machines that differ in their flags run in step until one of them reports a
collision: they have all parts in common but the check for collisions, which changes no state. The
report of a collision is an excuse for whatever the other machine does from there on; the flags for
the trace and the echo need no excuse.
-/
namespace ObjectLang

def Fault.isCollision : Fault → Bool
  | .heapStackCollision _ _ _ => true
  | _ => false

namespace Machine

/-- The second action does what the first one does, unless that fails with an excuse. -/
def Follows (excuse : Fault → Prop) (α : Type) (x y : Action α) : Prop :=
  ∀ s, y s = x s ∨ ∃ fault s', x s = .error fault s' ∧ excuse fault

variable {excuse : Fault → Prop}

theorem Follows.refl {α : Type} (x : Action α) : Follows excuse α x x := fun _ => .inl rfl

theorem Follows.bind {α β : Type} {x y : Action α} {f g : α → Action β}
    (first : Follows excuse α x y) (second : ∀ a, Follows excuse β (f a) (g a)) :
    Follows excuse β (x >>= f) (y >>= g) := by
  intro s
  rcases first s with same | ⟨fault, s', failed, excused⟩
  · cases run : x s with
    | error fault s' =>
      rw [run] at same
      exact .inl ((bind_error same).trans (bind_error run).symm)
    | ok a s' =>
      rw [run] at same
      rw [bind_ok run, bind_ok same]
      exact second a s'
  · exact .inr ⟨fault, s', bind_error failed, excused⟩

theorem follows_lifts (excuse : Fault → Prop) : Lifts (Follows excuse) where
  shared := fun _ => Follows.refl _
  bind := Follows.bind

def withFlags (m : Machine) (flags : Flags) : Machine := ⟨{ m.config with flags }, m.code⟩

variable {m : Machine} {flags : Flags}

/-- Flags matter to the check for collisions only. -/
theorem follows_parts
    (checks : Follows excuse Unit m.checkCollision (m.withFlags flags).checkCollision) :
    m.parts.Related (Follows excuse) (m.withFlags flags).parts where
  fetch := Follows.refl _
  pop := Follows.refl _
  check := checks
  push w := by
    refine Follows.bind (Follows.refl get) fun s => ?_
    exact Follows.bind (Follows.refl (storeWord (s.sp - 1) w)) fun _ =>
      Follows.bind (Follows.refl (setSp (s.sp - 1))) fun _ => checks

theorem follows_step
    (checks : Follows excuse Unit m.checkCollision (m.withFlags flags).checkCollision) :
    Follows excuse Unit m.step (m.withFlags flags).step := by
  have next := (follows_lifts excuse).execNext (follows_parts checks)
  have limited : (m.withFlags flags).exhausted? = m.exhausted? := rfl
  intro s
  rw [step_parts, step_parts]
  unfold Parts.step
  rw [limited]
  split
  · exact .inl rfl
  · cases m.exhausted? s with
    | some limit => exact .inl rfl
    | none => exact next { s with steps := s.steps + 1 }

/-- Machines whose steps follow each other run alike, up to an excuse. -/
theorem follows_runFor {m' : Machine} (steps : Follows excuse Unit m.step m'.step) (budget : Nat)
    (s : State) :
    m'.runFor budget s = m.runFor budget s ∨
      ∃ fault s', m.runFor budget s = .failed fault s' ∧ excuse fault := by
  induction budget generalizing s with
  | zero => exact .inl rfl
  | succ budget ih =>
    cases halted : s.halted with
    | true => simp [runFor, halted]
    | false =>
      rcases steps s with same | ⟨fault, s', failed, excused⟩
      · cases run : m.step s with
        | error fault s' =>
          rw [run] at same
          exact .inl ((runFor_of_step_error halted same).trans
            (runFor_of_step_error halted run).symm)
        | ok done s' =>
          rw [run] at same
          rw [runFor_of_step_ok halted run, runFor_of_step_ok halted same]
          exact ih s'
      · exact .inr ⟨fault, s', runFor_of_step_error halted failed, excused⟩

theorem execute_withFlags (excuse : Fault → Prop) (config : Config) (flags : Flags) (p : Image)
    (checks : ∀ m : Machine, m.config = config →
      Follows excuse Unit m.checkCollision (m.withFlags flags).checkCollision) (budget : Nat) :
    execute { config with flags } budget p = execute config budget p ∨
      ∃ fault, execute config budget p = some (.error fault) ∧ excuse fault := by
  by_cases large : config.codeSize < p.size
  · simp [execute, load, large]
  · simp only [execute, load, large, if_false]
    have follows := follows_runFor (follows_step (checks ⟨config, p.words.toArray⟩ rfl)) budget
    rcases follows (start ⟨config, p.words.toArray⟩) with same | ⟨fault, s', failed, excused⟩
    · exact .inl (congrArg Run.result? same)
    · exact .inr ⟨fault, by rw [failed]; rfl, excused⟩

/-! Results of whole runs. -/

/-- What running a program comes to: a result, or none if the run never ends. -/
def Yields (config : Config) (p : Image) : Option (Except Fault Outcome) → Prop
  | some result => ∃ budget, execute config budget p = some result
  | none => ∀ budget, execute config budget p = none

theorem execute_mono {config : Config} {p : Image} {budget more : Nat} (le : budget ≤ more)
    {result : Except Fault Outcome} (done : execute config budget p = some result) :
    execute config more p = some result := by
  unfold execute at done ⊢
  cases loaded : load config p with
  | error fault => simpa [loaded] using done
  | ok m =>
    simp only [loaded] at done ⊢
    have ended : (m.runFor budget m.start).ended = true := by
      cases run : m.runFor budget m.start with
      | running s => simp [run, Run.result?] at done
      | halted s => rfl
      | failed fault s => rfl
    rw [runFor_mono le ended, done]

theorem yields_unique {config : Config} {p : Image} {result other : Option (Except Fault Outcome)}
    (one : Yields config p result) (two : Yields config p other) : other = result := by
  match result, other, one, two with
  | none, none, _, _ => rfl
  | none, some _, never, ⟨budget, done⟩ => rw [never budget] at done; cases done
  | some _, none, ⟨budget, done⟩, never => rw [never budget] at done; cases done
  | some _, some _, ⟨budget, done⟩, ⟨more, later⟩ =>
    have first := execute_mono (Nat.le_max_left budget more) done
    have second := execute_mono (Nat.le_max_right budget more) later
    exact second.symm.trans first

theorem existsUnique_yields (config : Config) (p : Image) : ∃! result, Yields config p result := by
  by_cases ends : ∃ budget result, execute config budget p = some result
  · obtain ⟨budget, result, done⟩ := ends
    have yields : Yields config p (some result) := ⟨budget, done⟩
    exact ⟨some result, yields, fun other => yields_unique yields⟩
  · have yields : Yields config p none := fun budget =>
      Option.eq_none_iff_forall_ne_some.mpr fun result done => ends ⟨budget, result, done⟩
    exact ⟨none, yields, fun other => yields_unique yields⟩

theorem Yields.follow {config other : Config} {p : Image}
    {result : Option (Except Fault Outcome)} (yields : Yields config p result)
    (follows : ∀ budget, execute other budget p = execute config budget p ∨
      ∃ fault, execute config budget p = some (.error fault) ∧ excuse fault)
    (unexcused : ∀ fault, result = some (.error fault) → ¬ excuse fault) :
    Yields other p result := by
  cases result with
  | none =>
    intro budget
    rcases follows budget with same | ⟨fault, failed, _⟩
    · exact same.trans (yields budget)
    · rw [yields budget] at failed
      cases failed
  | some result =>
    obtain ⟨budget, done⟩ := yields
    rcases follows budget with same | ⟨fault, failed, excused⟩
    · exact ⟨budget, same.trans done⟩
    · exact absurd excused (unexcused fault (done.symm.trans failed))

theorem follows_unchecked (checked : m.config.flags.checkCollision = true)
    (off : flags.checkCollision = false) :
    Follows (fun fault => fault.isCollision = true) Unit m.checkCollision
      (m.withFlags flags).checkCollision := by
  intro s
  have silent : (m.withFlags flags).checkCollision s = .ok () s := by
    simp [checkCollision, withFlags, off]
  by_cases collides : s.sp ≤ s.hp
  · exact .inr ⟨_, s, by simp [checkCollision, checked, collides]; rfl, rfl⟩
  · exact .inl (silent.trans (by simp [checkCollision, collides]))

/-- The trace and the echo change no result, and the check for collisions changes none but those it
replaces by the report of a collision. -/
theorem flags_keep_result (p : Image) :
    (∀ config, ∃! result, Yields config p result) ∧
    (∀ (config : Config) (trace echo : Bool) (result : Option (Except Fault Outcome)),
      Yields { config with flags := { config.flags with trace, echo } } p result ↔
        Yields config p result) ∧
    ∀ (config : Config) (result : Option (Except Fault Outcome)),
      Yields { config with flags := { config.flags with checkCollision := true } } p result →
      (∀ fault, result = some (.error fault) → fault.isCollision = false) →
      Yields { config with flags := { config.flags with checkCollision := false } } p result := by
  refine ⟨fun config => existsUnique_yields config p, fun config trace echo result => ?_,
    fun config result yields clean => ?_⟩
  · have same (budget : Nat) :
        execute { config with flags := { config.flags with trace, echo } } budget p =
          execute config budget p := by
      have follows := execute_withFlags (fun _ => False) config
        { config.flags with trace, echo } p
        (fun m known => by subst known; exact Follows.refl _) budget
      exact follows.resolve_right fun ⟨_, _, excused⟩ => excused
    cases result <;> simp only [Yields, same]
  · have checks := execute_withFlags (fun fault => fault.isCollision = true)
      { config with flags := { config.flags with checkCollision := true } }
      { config.flags with checkCollision := false } p
      (fun m known => follows_unchecked (by rw [known]) rfl)
    exact yields.follow checks fun fault ended => by simp [clean fault ended]

def heapBelowStack : Image := ⟨[0, 1, 19, 0, 7, 21, 22], []⟩

theorem flags_keep_result_heapBelowStack :
    Yields { memorySize := 3, flags := { checkCollision := true } } heapBelowStack
        (some (.ok ⟨[7], some 7, 5⟩)) ∧
      Yields { memorySize := 3 } heapBelowStack (some (.ok ⟨[7], some 7, 5⟩)) ∧
      Yields { memorySize := 2, flags := { checkCollision := true } } heapBelowStack
        (some (.error (.heapStackCollision 1 1 5))) ∧
      Yields { memorySize := 2 } heapBelowStack (some (.ok ⟨[7], some 7, 5⟩)) := by
  have checked : Yields { memorySize := 3, flags := { checkCollision := true } } heapBelowStack
      (some (.ok ⟨[7], some 7, 5⟩)) := ⟨6, by decide +kernel⟩
  refine ⟨checked, ?_, ⟨6, by decide +kernel⟩, ⟨6, by decide +kernel⟩⟩
  exact (flags_keep_result heapBelowStack).2.2 { memorySize := 3 } _ checked
    fun _ ended => nomatch ended

end Machine

end ObjectLang
