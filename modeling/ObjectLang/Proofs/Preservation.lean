import ObjectLang.Proofs.Simulation.Programs

/-!
Meaning is preserved by compilation. For programs without classes the machine has the result that
evaluation of the tree gives, and no other, unless the stack outgrows the memory.
-/
namespace ObjectLang

open Machine

def Failure.Matches : Except Failure (Word × List Word) → Except RunError Outcome → Prop
  | .ok (value, printed), .ok outcome =>
    outcome.printed = printed ∧ outcome.stackTop = some value
  | .error .divisionByZero, .error (.fault (.divisionByZero _)) => True
  | .error .nullCall, .error (.fault (.codeOutOfBounds address)) => address = -1
  | _, _ => False

namespace Program

/-- The run stops within the budget because the stack fills the memory: its next word would go to
address -1. -/
def Overflows (options : Options) (budget : Nat) (p : Program) : Prop :=
  ∃ m ip s, p.execute options budget = .ok ⟨m, .failed (.memoryOutOfBounds (-1) ip) s⟩ ∧ s.sp = 0

/-- From some budget on there is a result, and it is as wanted or the stack overflows. -/
def Settles (options : Options) (wanted : Except RunError Outcome → Prop) (p : Program) : Prop :=
  ∃ budget, ∀ more, budget ≤ more →
    (∃ result, p.run options more = some result ∧ wanted result) ∨ p.Overflows options more

variable {p : Program} {options : Options}

theorem execute_of_load {m : Machine} (loads : p.load options = .ok m) (budget : Nat) :
    p.execute options budget = .ok ⟨m, m.runFor budget m.start⟩ := by
  simp [execute, loads]

theorem run_of_load {m : Machine} (loads : p.load options = .ok m) (budget : Nat) :
    p.run options budget = Execution.result? ⟨m, m.runFor budget m.start⟩ := by
  rw [run, execute_of_load loads]

theorem ended_of_result? {x : Execution} {result : Except RunError Outcome}
    (found : x.result? = some result) : x.run.ended = true := by
  obtain ⟨m, run⟩ := x
  cases run with
  | running => cases found
  | halted | failed => rfl

theorem result?_of_follows (m : Machine) {run : Run} {outcome : Except Failure (Word × List Word)}
    (follows : Loaded.Follows outcome run) :
    ∃ result, Execution.result? ⟨m, run⟩ = some result ∧ Failure.Matches outcome result := by
  match outcome, run, follows with
  | .ok (value, printed), .halted s, follows =>
    refine ⟨.ok s.outcome, rfl, ?_⟩
    rw [show s.outcome = _ from follows]
    exact ⟨rfl, rfl⟩
  | .error .divisionByZero, .failed fault s, follows =>
    obtain ⟨ip, rfl⟩ := follows
    exact ⟨_, rfl, trivial⟩
  | .error .nullCall, .failed fault s, follows =>
    cases follows
    exact ⟨_, rfl, rfl⟩

theorem no_class (free : ∀ c, Decl.cls c ∉ p.decls) {name : String} {layout : Layout}
    {table : Table Binding} : ¬ p.context.HasClass name layout table := by
  have unchanged : ∀ (ds : List Decl) (ctx : Context), (∀ c, Decl.cls c ∉ ds) →
      (ds.foldl Context.after ctx).classes = ctx.classes := by
    intro ds
    induction ds with
    | nil => exact fun _ _ => rfl
    | cons d ds ih =>
      intro ctx free
      have rest := ih (ctx.after d) fun c mem => free c (List.mem_cons_of_mem _ mem)
      cases d with
      | var | fn => exact rest
      | cls c => exact absurd List.mem_cons_self (free c)
  rintro ⟨listed, _⟩
  rw [context, unchanged p.decls _ free] at listed
  cases listed

section

variable {L : Loaded} (loads : p.load options = .ok L.machine)
  (config : L.machine.config = options.config) (unflagged : options.flags.checkCollision = false)
  (unlimited : options.maxSteps = none)

include loads config unflagged unlimited

/-- Without flags and step limit only the stack can run out. -/
theorem overflows_of_exhausted {budget : Nat}
    (exhausted : L.Exhausted (L.machine.runFor budget L.machine.start)) :
    p.Overflows options budget := by
  have executed := execute_of_load loads budget
  cases run : L.machine.runFor budget L.machine.start with
  | running | halted => simp [run, Loaded.Exhausted] at exhausted
  | failed fault s =>
    rw [run] at exhausted executed
    cases fault with
    | memoryOutOfBounds address ip =>
      obtain ⟨rfl, full⟩ := exhausted
      exact ⟨L.machine, ip, s, executed, full⟩
    | heapStackCollision =>
      simp [Loaded.Exhausted, Exhausts, config, Options.config, unflagged] at exhausted
    | stepLimitExceeded =>
      simp [Loaded.Exhausted, Exhausts, config, Options.config, unlimited] at exhausted
    | _ => cases exhausted

theorem settles_of_meets {depth : Nat} {outcome : Except Failure (Word × List Word)}
    (free : ¬ L.Classes) (meets : L.Meets depth (0, L.start) L.Halting (some outcome)) :
    p.Settles options (Failure.Matches outcome) := by
  obtain ⟨budget, ended, reason⟩ := meets.ends free _ L.shows_start
  refine ⟨budget, fun more le => ?_⟩
  rw [← runFor_mono le ended] at reason
  rcases reason with follows | exhausted
  · left
    rw [run_of_load loads]
    exact result?_of_follows L.machine follows
  · exact .inr (overflows_of_exhausted loads config unflagged unlimited exhausted)

end

/-- The machine does what the tree means. For a program without classes that compiles without a
report into at most 10000 words: if evaluation ends with a value, the run ends, with this value on
top of the stack and the same words printed; if it fails, the run stops with the fault of that
failure; and every result of the run matches the one outcome of evaluation. The exception is that
the stack may fill the memory. Evaluation is never stuck. -/
theorem run_matches_eval (p : Program) (options : Options)
    (plain : ∀ ty ∈ p.declaredTypes, ty.isPlain = true) (free : ∀ c, Decl.cls c ∉ p.decls)
    (silent : p.report.isEmpty = true) (small : options.memorySize < Word.limit)
    (unflagged : options.flags = {}) (unlimited : options.maxSteps = none)
    (short : ∀ c image, p.compile options = .ok c → c.image = some image → image.size ≤ 10000) :
    (∀ outcome, p.Evaluates outcome → p.Settles options (Failure.Matches outcome)) ∧
      (∀ budget result, p.run options budget = some result →
        p.Overflows options budget ∨
          ∃! outcome, p.Evaluates outcome ∧ Failure.Matches outcome result) ∧
      ¬ p.Evaluates (.error .stuck) := by
  obtain ⟨ty, typed, _⟩ := p.typed_of_report (Decl.Plain.complete plain) silent
  obtain ⟨f, t, image, _, ⟨c, compiled, present⟩, _, _, loads⟩ := @load_eq p options ty typed silent
  rw [if_neg (Nat.not_lt.mpr (short c image compiled present))] at loads
  obtain ⟨L, machine, config, whole, meets⟩ := simulated plain typed silent small
    (fun known => absurd known (no_class free)) (fun known => absurd known (no_class free))
    (fun known => absurd known (no_class free)) loads
  rw [← machine] at loads config
  have unchecked : options.flags.checkCollision = false := by rw [unflagged]
  have classFree : ¬ L.Classes := by
    rintro ⟨name, layout, table, known⟩
    exact no_class free (whole ▸ known)
  have settles : ∀ depth outcome, p.eval depth = some outcome →
      p.Settles options (Failure.Matches outcome) := by
    intro depth outcome evaluated
    exact settles_of_meets loads config unchecked unlimited classFree (evaluated ▸ meets depth)
  refine ⟨fun outcome ⟨depth, evaluated⟩ => settles depth outcome evaluated, ?_, ?_⟩
  · intro budget result ran
    have ended : (L.machine.runFor budget L.machine.start).ended = true :=
      ended_of_result? ((run_of_load loads budget).symm.trans ran)
    have reason := meets budget
    cases evaluated : p.eval budget with
    | none =>
      rw [evaluated] at reason
      exact .inl (overflows_of_exhausted loads config unchecked unlimited
        (reason _ L.shows_start ended))
    | some outcome =>
      obtain ⟨enough, settled⟩ := settles budget outcome evaluated
      -- The result is the same within every greater budget.
      have same := runFor_mono (Nat.le_max_left budget enough) ended
      rcases settled _ (Nat.le_max_right budget enough) with ⟨result', ran', good⟩ | overflows
      · rw [run_of_load loads, same, ← run_of_load loads, ran, Option.some.injEq] at ran'
        have evaluates : p.Evaluates outcome := ⟨budget, evaluated⟩
        exact .inr ⟨outcome, ⟨evaluates, ran' ▸ good⟩, fun _ other => other.1.unique evaluates⟩
      · rw [Overflows, execute_of_load loads, same, ← execute_of_load loads] at overflows
        exact .inl overflows
  · rintro ⟨depth, evaluated⟩
    have reason := meets depth
    rw [evaluated] at reason
    exact classFree reason.1

def nested : Program where
  decls := [
    .var ⟨1, "three", .int, .int 1 3⟩,
    .fn ⟨2, "factorial", .int, [⟨2, "n", .int⟩], [],
      .cond 2 (.binary 2 .eq (.id 2 ⟨"n", none⟩) (.int 2 0)) (.int 2 1)
        (.binary 2 .mul (.id 2 ⟨"n", none⟩)
          (.call 2 ⟨"factorial", none⟩ [.binary 2 .sub (.id 2 ⟨"n", none⟩) (.int 2 1)]))⟩,
    .fn ⟨3, "outer", .int, [⟨3, "a", .int⟩, ⟨3, "b", .int⟩], [
        .var ⟨3, "c", .int, .binary 3 .mul (.id 3 ⟨"a", none⟩) (.id 3 ⟨"b", none⟩)⟩,
        .fn ⟨4, "inner", .int, [⟨4, "d", .int⟩], [],
          .binary 4 .add (.binary 4 .add (.id 4 ⟨"c", none⟩) (.id 4 ⟨"b", none⟩))
            (.binary 4 .mul (.id 4 ⟨"d", none⟩) (.id 4 ⟨"three", none⟩))⟩],
      .binary 5 .sub (.call 5 ⟨"inner", none⟩ [.id 5 ⟨"a", none⟩]) (.id 5 ⟨"b", none⟩)⟩]
  body := .binary 6 .add (.print 6 (.call 6 ⟨"factorial", none⟩ [.id 6 ⟨"three", none⟩]))
    (.call 6 ⟨"outer", none⟩ [.print 6 (.int 6 2), .print 6 (.int 6 5)])

theorem run_matches_eval_nested :
    nested.Evaluates (.ok (22, [6, 5, 2])) ∧
      nested.Settles { memorySize := 32 } (Failure.Matches (.ok (22, [6, 5, 2]))) ∧
      ∃ steps, nested.run { memorySize := 32 } 300 = some (.ok ⟨[6, 5, 2], some 22, steps⟩) := by
  have evaluated : nested.Evaluates (.ok (22, [6, 5, 2])) := ⟨5, rfl⟩
  have short : ∀ c image, nested.compile { memorySize := 32 } = .ok c → c.image = some image →
      image.size ≤ 10000 := by
    intro c image compiled present
    have small : (nested.compile { memorySize := 32 }).toOption.all
        (fun c => c.image.all fun image => decide (image.size ≤ 10000)) = true := by decide +kernel
    rw [compiled] at small
    simpa [Except.toOption, present] using small
  have follows := run_matches_eval nested { memorySize := 32 } (by decide) (by simp [nested])
    (by decide +kernel) (by decide) rfl rfl short
  have ended : (nested.run { memorySize := 32 } 300).bind Except.toOption =
      some ⟨[6, 5, 2], some 22, 248⟩ := by decide +kernel
  refine ⟨evaluated, follows.1 _ evaluated, 248, ?_⟩
  obtain ⟨result, ran, good⟩ := Option.bind_eq_some_iff.mp ended
  cases result with
  | error => cases good
  | ok outcome =>
    cases good
    exact ran

end Program

end ObjectLang
