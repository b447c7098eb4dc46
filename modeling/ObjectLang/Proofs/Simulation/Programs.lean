import ObjectLang.Proofs.Generation
import ObjectLang.Proofs.Simulation.Routines

/-!
Whole programs. A well-typed program that was loaded does from its first instruction what it is
evaluated to, and then halts with its value on top of the stack.
-/
namespace ObjectLang

open Machine Symbolic

namespace Program

variable {p : Program} {options : Options}

theorem load_eq {ty : Ty} (typed : p.Typed ty) (silent : p.report.isEmpty = true) :
    ∃ f t image, Lower.Yields (p.resolve.program.code (Word.ofSize options.memorySize)) {} f t ∧
      (∃ c, p.compile options = .ok c ∧ c.image = some image) ∧ image.size = f.all.width ∧
      Code.At image.words.toArray (Code.place {} 0 f.all) 0 f.all ∧
      p.load options = if 10000 < image.size then
          .error (.fault (.programTooLarge image.size 10000))
        else .ok ⟨options.config, image.words.toArray⟩ := by
  obtain ⟨f, t, yields⟩ := lowers typed (Word.ofSize options.memorySize)
  obtain ⟨image, laid, size, stands⟩ := layout_code yields
  have lowered : p.resolve.program.lower options.memorySize = .ok image := by
    rw [lower_eq yields, laid]
  have compiled : ∃ c, p.compile options = .ok c ∧ c.image = some image := by
    simp [compile, silent, lowered, bind, Except.bind]
  refine ⟨f, t, image, yields, compiled, size, stands, ?_⟩
  obtain ⟨c, compiled, present⟩ := compiled
  by_cases long : 10000 < image.size <;>
    simp [load, compiled, present, Machine.load, Options.config, long]

end Program

theorem Loaded.hosts_of_at {L : Loaded} {bodies : List Code} {address : Nat}
    (stands : Code.At L.machine.code L.labels address bodies.flatten) : L.Hosts bodies := by
  induction bodies generalizing address with
  | nil => simp [Hosts]
  | cons c bodies ih =>
    rw [List.flatten_cons, Code.at_append] at stands
    intro d mem
    rcases List.mem_cons.mp mem with rfl | mem
    · exact ⟨address, stands.1⟩
    · exact ih stands.2 d mem

namespace Program

variable {p : Program} {ty : Ty} {options : Options} {m : Machine}

theorem loaded (plain : Decl.Plain p.declaredTypes) (typed : p.Typed ty)
    (silent : p.report.isEmpty = true) (small : options.memorySize < Word.limit)
    (sized : ∀ {name layout table}, p.context.HasClass name layout table → layout.Fits)
    (narrow : ∀ {name layout table}, p.context.HasClass name layout table →
      layout.fields.length < Word.limit)
    (checked : ∀ {name layout table}, p.context.HasClass name layout table →
      options.flags.checkCollision = true)
    (loads : p.load options = .ok m) :
    ∃ (L : Loaded) (f : Fragment) (t : Supply), L.machine = m ∧ m.config = options.config ∧
      L.final = p.context ∧ Lower.Yields (p.resolve.program.code L.base) {} f t ∧
      Code.At m.code L.labels 0 f.inline ∧ L.Hosts f.bodies := by
  obtain ⟨f, t, image, yields, _, size, stands, load⟩ := load_eq typed silent
  rw [load] at loads
  split at loads
  · cases loads
  · rename_i short
    cases loads
    have fits : image.size < Word.limit := Nat.lt_of_le_of_lt (Nat.le_of_not_lt short) (by decide)
    have linked : Linked ⟨options.config, image.words.toArray⟩ (Code.place {} 0 f.all) := {
      memory := small
      code := fits
      labels := by
        intro l target found
        have bound := Code.place_le rfl found
        omega }
    rw [Word.ofSize_eq small] at yields
    obtain ⟨main, bodies⟩ := Code.at_append.mp stands
    exact ⟨{
      machine := ⟨options.config, image.words.toArray⟩
      labels := Code.place {} 0 f.all
      final := p.context
      linked := linked
      sound := hierarchical plain typed
      sized := sized
      narrow := narrow
      checked := checked }, f, t, rfl, rfl, rfl, yields, main, Loaded.hosts_of_at bodies⟩

end Program

def Loaded.start (L : Loaded) : Snapshot where
  heap := []
  hp := 0
  stack := []
  fp := L.base
  ra := 0
  tm := 0
  printed := []

theorem Loaded.shows_start (L : Loaded) : L.machine.Shows L.machine.start (0, L.start) where
  running := rfl
  ip := rfl
  memory := ⟨List.replicate L.machine.config.memorySize 0, by simp [Machine.start, Loaded.start]⟩
  size := by simp [Machine.start]
  sp := Word.ofSize_eq L.linked.memory
  hp := rfl
  fp := Word.ofSize_eq L.linked.memory
  ra := rfl
  tm := rfl
  printed := rfl
  room := ⟨Nat.zero_le _, .inl ⟨rfl, rfl, fun _ => rfl⟩⟩

def Loaded.Halting (L : Loaded) (value : Word) (printed : List Word) (q : Point) : Prop :=
  (plain .halt).At L.machine.code L.labels q.1 ∧ (∃ rest, q.2.stack = value :: rest) ∧
    q.2.printed = printed

/-- The first word stands where a routine would have its return address. -/
theorem Loaded.agrees_start (L : Loaded) :
    Agrees L [] ⟨[], fun _ => none⟩ [] { L.start with stack := [0] } where
  heap := rfl
  hp := rfl
  fp := rfl
  holds := .nil
  globals := .nil
  objects := by
    intro i K found
    cases found

theorem Loaded.level_start (L : Loaded) : Level L [] { L.start with stack := [0] } := by
  show Int32.ofNat _ - 1 - 1 = Int32.ofNat _ + (-2)
  rw [Int32.sub_sub, Int32.sub_eq_add_neg]
  rfl

theorem Program.meets {p : Program} {ty : Ty} {L : Loaded} {f : Fragment} {t : Supply}
    (typed : p.Typed ty) (plain : Decl.Plain p.declaredTypes) (whole : L.final = p.context)
    (lowered : Lower.Yields (p.resolve.program.code L.base) {} f t)
    (stands : Code.At L.machine.code L.labels 0 f.inline) (hosts : L.Hosts f.bodies)
    (budget : Nat) :
    L.Meets budget (0, L.start) L.Halting (p.eval budget) := by
  obtain ⟨decls, result, u, declsLowered, bodyLowered, rfl⟩ := yields_code.mp lowered
  simp only [Code.at_append, Code.width_append, ← Nat.add_assoc] at stands
  obtain ⟨⟨⟨start, declsStand⟩, bodyStands⟩, halt⟩ := stands
  have calls := callsMeet L budget
  have declsTyped : Decl.AllTyped L.inheritance (History.context []) p.decls := by
    rw [Loaded.inheritance, whole]
    exact typed.decls
  have bodyTyped : p.body.Typed L.inheritance p.context ty := by
    rw [Loaded.inheritance, whole]
    exact typed.body
  have global : Global L [] [] p.decls {} := {
    here := rfl
    ends := whole.symm
    sound := Context.hierarchical_initial _
    tables := L.tables_nil {} }
  refine .goes ((Effects.cons (effect_push L.linked 0) .nil).goes start) ?_
  refine Loaded.Meets.bind (Decl.allSimulated calls p.decls declsTyped plain L.agrees_start
    L.level_start (fun _ => global) declsLowered declsStand hosts) ?_
  rintro env printed ⟨ip, d⟩ ⟨rfl, rfl, G, W, H, rfl, executed⟩
  have context : H.context = p.context := executed.context
  have resolved : Lower.Yields ((p.body.resolve p.context).code L.base) u result t := bodyLowered
  rw [← context] at resolved bodyTyped
  refine (Expr.simulated calls p.body bodyTyped executed.agrees resolved bodyStands).weaken ?_
  rintro value printed ⟨ip, e⟩ ⟨W', leaves, _⟩
  obtain ⟨rfl⟩ := leaves.ip
  exact ⟨(Code.at_instr.mp halt).1, ⟨_, leaves.stack⟩, leaves.printed⟩

/-- A well-typed program that was loaded does what it is evaluated to, at every depth. -/
theorem Program.simulated {p : Program} {ty : Ty} {options : Options} {m : Machine}
    (plain : Decl.Plain p.declaredTypes) (typed : p.Typed ty) (silent : p.report.isEmpty = true)
    (small : options.memorySize < Word.limit)
    (sized : ∀ {name layout table}, p.context.HasClass name layout table → layout.Fits)
    (narrow : ∀ {name layout table}, p.context.HasClass name layout table →
      layout.fields.length < Word.limit)
    (checked : ∀ {name layout table}, p.context.HasClass name layout table →
      options.flags.checkCollision = true)
    (loads : p.load options = .ok m) :
    ∃ L : Loaded, L.machine = m ∧ m.config = options.config ∧ L.final = p.context ∧
      ∀ budget, L.Meets budget (0, L.start) L.Halting (p.eval budget) := by
  obtain ⟨L, f, t, rfl, config, whole, lowered, stands, hosts⟩ :=
    loaded plain typed silent small sized narrow checked loads
  exact ⟨L, rfl, config, whole, meets typed plain whole lowered stands hosts⟩

namespace Loaded

variable {L : Loaded} {budget : Nat} {q : Point}

def Follows : Except Failure (Word × List Word) → Run → Prop
  | .ok (value, printed), .halted s => s.outcome = ⟨printed, some value, s.steps⟩
  | .error failure, .failed fault _ => FaultOf failure fault
  | _, _ => False

theorem Meets.ends {outcome : Except Failure (Word × List Word)} (free : ¬ L.Classes)
    (meets : L.Meets budget q L.Halting (some outcome)) :
    L.machine.Ends (fun run => Follows outcome run ∨ L.Exhausted run) q := by
  have lenient : L.machine.Lenient fun run => Follows outcome run ∨ L.Exhausted run :=
    fun _ _ exhausts => .inr exhausts
  match outcome, meets with
  | .ok (value, printed), ⟨r, goes, halt, ⟨rest, top⟩, shown⟩ =>
    refine goes.ends lenient (ends_halt L.linked lenient halt top ?_)
    intro s ended
    exact .inl (shown ▸ ended)
  | .error .stuck, ⟨classes, _⟩ => exact absurd classes free
  | .error .divisionByZero, ⟨last, goes, stops⟩ | .error .nullCall, ⟨last, goes, stops⟩ =>
    exact goes.ends lenient (stops.ends lenient fun _ _ same => .inl same)

theorem Meets.safe {outcome : Option (Except Failure (Word × List Word))}
    (meets : L.Meets budget q L.Halting outcome) : L.machine.Safe Allowed budget q := by
  rcases meets.reaches with safe | ⟨r, goes, value, printed, halt, ⟨rest, top⟩, _⟩
  · exact safe
  · exact goes.safe lenient_allowed (safe_halt L.linked lenient_allowed halt top fun _ _ => trivial)

end Loaded

end ObjectLang
