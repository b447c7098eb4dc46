import ObjectLang.Proofs.Code.Dispatch
import ObjectLang.Proofs.Simulation.Programs

/-!
Well-typed programs do not go wrong. Whatever a program without a report does, with classes or
without, it runs only code that was generated for it and uses only words that are there, except
where it follows `null` or outgrows the machine.
-/
namespace ObjectLang

open Machine

def RunError.Expected : RunError → Prop
  | .fault (.programTooLarge _ _) | .fault (.stepLimitExceeded _) | .fault (.divisionByZero _)
  | .fault (.heapStackCollision _ _ _) => True
  | .fault (.memoryOutOfBounds address _) => address.toInt < 0
  | .fault (.codeOutOfBounds address) => address = -1
  | .fault (.invalidOpcode _ _) | .rejected _ | .code _ => False

theorem Loaded.AllowedFault.expected {fault : Fault} (allowed : AllowedFault fault) :
    (RunError.fault fault).Expected := by
  cases fault with
  | programTooLarge | invalidOpcode => cases allowed
  | _ => exact allowed

namespace Program

theorem methods_le_width {p : Program} {g : Word} {f : Fragment} {t : Supply}
    (plain : Decl.Plain p.declaredTypes) (accepted : p.resolve.errors = [])
    (lowered : Lower.Yields (p.resolve.program.code g) {} f t) {name : String} {layout : Layout}
    (known : p.classType? name = some layout) : layout.methods.length ≤ f.all.width := by
  obtain ⟨b, found, shape⟩ := Option.bind_eq_some_iff.mp known
  have isClass : b.ty = .cls layout := by
    split at shape
    · rename_i other isOther
      cases shape
      exact isOther
    · cases shape
  obtain ⟨i, c, listed, _, rfl⟩ := exists_membersAt
    ((Context.arranged_following plain).bound name b layout found isClass)
  refine Nat.le_trans (slots_le_routines plain accepted listed) ?_
  refine Nat.le_trans ?_ (routines_le_width lowered)
  obtain ⟨more, split⟩ := List.take_prefix (i + 1) p.resolve.program.decls
  have count := congrArg (fun ds => (Decl.allRoutines ds).length) split
  rw [Decl.allRoutines_append, List.length_append] at count
  exact Nat.le.intro count

/-- A program whose declared types are plain, and that compiles without a report, ends with an
outcome or for one of the expected reasons, whatever the memory and the limit of steps: when the
program is too large or exceeds the steps, when it divides by zero, when heap and stack collide,
at a negative address, which only `null` and a full stack lead to, and at the code address -1, where
a function that is `null` is called. Heap and stack have to be checked for collisions. Offsets are
words, so classes are asked to have fewer than 2 ^ 31 fields; as many methods are more than the
machine has room for. -/
theorem run_expected (p : Program) (options : Options)
    (plain : ∀ ty ∈ p.declaredTypes, ty.isPlain = true) (silent : p.report.isEmpty = true)
    (narrow : ∀ name layout, p.classType? name = some layout → layout.fields.length < Word.limit)
    (checked : options.flags.checkCollision = true) (small : options.memorySize < Word.limit)
    {budget : Nat} {e : RunError} (ran : p.run options budget = some (.error e)) : e.Expected := by
  obtain ⟨ty, typed, _⟩ := p.typed_of_report (Decl.Plain.complete plain) silent
  obtain ⟨f, t, image, lowered, _, size, _, loads⟩ := @load_eq p options ty typed silent
  split at loads
  · simp only [run, execute, loads, Option.some.injEq, Except.error.injEq] at ran
    subst ran
    trivial
  · rename_i short
    have sized {name layout table} (known : p.context.HasClass name layout table) :
        layout.Fits := by
      have few := methods_le_width plain (report_isEmpty.mp silent).1 lowered known.classType?
      refine ⟨Nat.le_of_lt (narrow _ _ known.classType?), ?_⟩
      unfold Word.limit
      omega
    obtain ⟨L, machine, _, _, meets⟩ := simulated plain typed silent small sized
      (fun known => narrow _ _ known.classType?) (fun _ => checked) loads
    rw [← machine] at loads
    have safe := (meets budget).safe _ L.shows_start
    simp only [run, execute, loads, Execution.result?] at ran
    cases ends : L.machine.runFor budget L.machine.start with
    | running | halted => simp [ends, Run.result?] at ran
    | failed fault s =>
      rw [ends] at safe ran
      cases ran
      exact (safe rfl).expected

theorem mem_of_classType? {p : Program} {name : String} {layout : Layout}
    (found : p.classType? name = some layout) :
    ∃ b, (name, b) ∈ p.context.scopes.tables.flatMap Table.entries := by
  obtain ⟨b, known, _⟩ := Option.bind_eq_some_iff.mp found
  obtain ⟨table, last, listed⟩ := Option.bind_eq_some_iff.mp known
  obtain ⟨before, after, entries, _⟩ := List.lookup_eq_some_iff.mp listed
  exact ⟨b, List.mem_flatMap.mpr ⟨table, List.mem_of_getLast? last, by simp [entries]⟩⟩

def fault? : Except RunError Outcome → Option Fault
  | .error (.fault fault) => some fault
  | _ => none

theorem fault?_eq_some {result : Except RunError Outcome} {fault : Fault} :
    fault? result = some fault ↔ result = .error (.fault fault) := by
  rcases result with (_ | _ | _) | _ <;> simp [fault?]

def nullReceiver : Program where
  decls := [
    .cls ⟨1, "A", none, [⟨1, "x", .int, 0⟩],
      [⟨⟨2, "get", .int, [], [], .id 2 ⟨"x", none⟩⟩, 0⟩], none, none⟩,
    .cls ⟨3, "B", some "A", [⟨3, "y", .int, 0⟩],
      [⟨⟨4, "get", .int, [], [], .binary 4 .add (.id 4 ⟨"x", none⟩) (.id 4 ⟨"y", none⟩)⟩, 0⟩],
      none, none⟩,
    .var ⟨5, "b", .ref "A", .new 5 "B" [.int 5 1, .int 5 2] none⟩,
    .var ⟨6, "a", .ref "A", .null 6⟩]
  body := .binary 7 .add (.send 7 ⟨"b", none⟩ "get" [] none) (.send 7 ⟨"a", none⟩ "get" [] none)

theorem run_expected_nullReceiver :
    nullReceiver.run { memorySize := 32, flags := { checkCollision := true } } 100 =
        some (.error (.fault (.memoryOutOfBounds (-1) 80))) ∧
      (RunError.fault (.memoryOutOfBounds (-1) 80)).Expected := by
  have narrow : ∀ name layout, nullReceiver.classType? name = some layout →
      layout.fields.length < Word.limit := by
    intro name layout found
    have all : ∀ entry ∈ nullReceiver.context.scopes.tables.flatMap Table.entries,
        ∀ layout ∈ nullReceiver.classType? entry.1, layout.fields.length < Word.limit := by
      decide +kernel
    obtain ⟨b, mem⟩ := mem_of_classType? found
    exact all _ mem layout found
  have ended : (nullReceiver.run { memorySize := 32, flags := { checkCollision := true } }
      100).bind fault? = some (.memoryOutOfBounds (-1) 80) := by decide +kernel
  obtain ⟨result, ran, reported⟩ := Option.bind_eq_some_iff.mp ended
  rw [fault?_eq_some.mp reported] at ran
  exact ⟨ran, nullReceiver.run_expected _ (by decide) (by decide +kernel) narrow rfl (by decide) ran⟩

def nullField (names : List String) (name : String) : Program where
  decls := [.cls (booleans names false), .var ⟨2, "a", .ref "A", .null 2⟩]
  body := .get 3 ⟨"a", none⟩ name none

theorem plain_nullField (names : List String) (name : String) :
    ∀ ty ∈ (nullField names name).declaredTypes, ty.isPlain = true := by
  intro ty mem
  have split : ty ∈ (names.map fun name => (⟨1, name, .bool, 0⟩ : Field)).map Field.ty ++ [] ++
    [.ref "A"] := mem
  simp only [List.map_map, List.append_nil, List.mem_append, List.mem_map, List.mem_singleton]
    at split
  rcases split with ⟨_, _, rfl⟩ | rfl <;> rfl

section

variable {names : List String} {name : String} {i : Nat} (distinct : names.Nodup)
  (listed : names[i]? = some name)

include distinct listed

theorem member_nullField : (nullField names name).context.member
    ⟨"a", some ⟨⟨0, .ref "A", -3⟩, 0⟩⟩ name =
      .found ⟨Members.level, .bool, Layout.fieldOffset i⟩ := by
  have known : (nullField names name).context.classes.find? "A" =
      some (upperMembers names false).table := rfl
  simp only [Context.member, known, Option.bind_some, find?_upperMembers false distinct listed]
  rfl

theorem resolve_nullField : ∃ fields binding, (nullField names name).resolve.program =
    ⟨[.cls ⟨1, "A", none, fields, [], some binding, none⟩, .var ⟨2, "a", .ref "A", .null 2⟩],
      .get 3 ⟨"a", some ⟨⟨0, .ref "A", -3⟩, 0⟩⟩ name
        (some ⟨Members.level, .bool, Layout.fieldOffset i⟩)⟩ := by
  refine ⟨_, _, congrArg (Program.mk _) ?_⟩
  exact congrArg (fun found => Expr.get 3 _ name (MemberLookup.binding? found))
    (member_nullField distinct listed)

theorem silent_nullField : (nullField names name).report.isEmpty = true := by
  refine report_isEmpty.mpr ⟨?_, ?_⟩
  · show (Decl.cls (booleans names false)).scopeErrors .initial ++ [] ++
      ([] ++ ((nullField names name).context.member ⟨"a", some ⟨⟨0, .ref "A", -3⟩, 0⟩⟩ name).errors
        "a" name 3) = []
    rw [scopeErrors_booleans false distinct, member_nullField distinct listed]
    rfl
  · obtain ⟨fields, binding, resolved⟩ := resolve_nullField distinct listed
    rw [resolved]
    simp [check, Decl.allFindings, Decl.findings, Decl.methodsFindings, VarDecl.check,
      ClassDecl.overrideFindings, ClassDecl.parentLayout?, Expr.typeOf, Ty.containsIncomplete,
      Ty.subtype, Ty.isMethod, Ty.settled, Ty.isIncomplete, Finding.ofCheck, Checked.errors, bind,
      Except.bind]

theorem load_nullField (options : Options) (size : options.memorySize = 32) :
    (nullField names name).load options = .ok ⟨options.config,
      #[0, 0, 20, 0, -1, 0, 32, 0, -3, 2, 7, 0, Layout.fieldOffset i, 2, 7, 22]⟩ := by
  obtain ⟨fields, binding, resolved⟩ := resolve_nullField distinct listed
  have lowered : ∃ image, (nullField names name).resolve.program.lower options.memorySize = .ok image ∧
      image.words = [0, 0, 20, 0, -1, 0, 32, 0, -3, 2, 7, 0, Layout.fieldOffset i, 2, 7, 22] := by
    rw [resolved, size]
    exact ⟨_, rfl, rfl⟩
  obtain ⟨image, done, words⟩ := lowered
  have compiled : ∃ c, (nullField names name).compile options = .ok c ∧ c.image = some image := by
    simp [compile, silent_nullField distinct listed, done, bind, Except.bind]
  obtain ⟨c, compiled, present⟩ := compiled
  simp [load, compiled, present, Machine.load, Options.config, Image.size, words]

end

/-- The sum of `null` and the least offset is the greatest word. -/
theorem run_nullField {names : List String} {name : String} (distinct : names.Nodup)
    (listed : names[Word.limit - 1]? = some name) :
    (nullField names name).run { memorySize := 32, flags := { checkCollision := true } } 100 =
      some (.error (.fault (.memoryOutOfBounds 2147483647 15))) := by
  have last : Layout.fieldOffset (Word.limit - 1) = -2147483648 := by decide
  have loads := load_nullField distinct listed
    { memorySize := 32, flags := { checkCollision := true } } rfl
  rw [last] at loads
  have ended : ((nullField names name).run { memorySize := 32, flags := { checkCollision := true } }
      100).bind fault? = some (.memoryOutOfBounds 2147483647 15) := by
    simp only [run, execute, loads]
    decide +kernel
  obtain ⟨result, ran, reported⟩ := Option.bind_eq_some_iff.mp ended
  rw [fault?_eq_some.mp reported] at ran
  exact ran

/-- With 2 ^ 31 fields a run can fail at an address that is not negative. -/
theorem run_unexpected_lastField :
    (∀ ty ∈ (nullField (series Word.limit) (seriesName (Word.limit - 1))).declaredTypes,
      ty.isPlain = true) ∧
    (nullField (series Word.limit) (seriesName (Word.limit - 1))).report.isEmpty = true ∧
    (nullField (series Word.limit) (seriesName (Word.limit - 1))).run
        { memorySize := 32, flags := { checkCollision := true } } 100 =
      some (.error (.fault (.memoryOutOfBounds 2147483647 15))) ∧
    ¬ (RunError.fault (.memoryOutOfBounds 2147483647 15)).Expected :=
  have listed := getElem?_series (Nat.sub_lt (by decide) Nat.one_pos)
  have above : ¬ (2147483647 : Word).toInt < 0 := by decide
  ⟨plain_nullField _ _, silent_nullField (nodup_series _) listed,
    run_nullField (nodup_series _) listed, above⟩

end Program

end ObjectLang
