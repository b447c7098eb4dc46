import ObjectLang.Proofs.Machine.Control
import ObjectLang.Proofs.Runtime.Invariant

/-!
What the machine does where evaluation has an outcome. A value is reached; a failure is the fault of
its kind; as long as evaluation is unfinished, the machine has no result. Where evaluation is stuck,
the program has classes, and all that is said is that nothing goes wrong: the machine stops for one
of the reasons that a well-typed program may stop for, or it reaches some value. Each of these may
give way to a fault for want of memory or of steps.
-/
namespace ObjectLang.Loaded

open Machine

def AllowedFault : Fault → Prop
  | .divisionByZero _ | .heapStackCollision _ _ _ | .stepLimitExceeded _ => True
  | .memoryOutOfBounds address _ => address.toInt < 0
  | .codeOutOfBounds address => address = -1
  | .programTooLarge _ _ | .invalidOpcode _ _ => False

def Allowed : Run → Prop
  | .running _ | .halted _ => True
  | .failed fault _ => AllowedFault fault

def Exhausted (L : Loaded) : Run → Prop
  | .running _ | .halted _ => False
  | .failed fault s => L.machine.Exhausts s fault

def FaultOf : Failure → Fault → Prop
  | .divisionByZero, fault => ∃ ip, fault = .divisionByZero ip
  | .nullCall, fault => fault = .codeOutOfBounds (-1)
  | .stuck, _ => False

def Reaches (L : Loaded) (budget : Nat) (p : Point) (goal : Point → Prop) : Prop :=
  L.machine.Safe Allowed budget p ∨ ∃ q, L.machine.Goes p q ∧ goal q

/-- From the point, the machine does what the outcome of an evaluation says; a value and what was
printed by then are related by `post` to the point that is reached. -/
def Meets {α : Type} (L : Loaded) (budget : Nat) (p : Point)
    (post : α → List Word → Point → Prop) : Option (Except Failure (α × List Word)) → Prop
  | none => L.machine.Safe L.Exhausted budget p
  | some (.ok (a, printed)) => ∃ q, L.machine.Goes p q ∧ post a printed q
  | some (.error .stuck) =>
    L.Classes ∧ L.Reaches budget p fun q => ∃ a printed, post a printed q
  | some (.error failure) => L.machine.Breaks p (FaultOf failure)

variable {L : Loaded} {budget : Nat} {p q : Point}

theorem lenient_exhausted : L.machine.Lenient L.Exhausted := fun _ _ exhausts => exhausts

theorem allowed_of_exhausts {s : State} {fault : Fault} (exhausts : L.machine.Exhausts s fault) :
    AllowedFault fault := by
  cases fault with
  | memoryOutOfBounds address ip =>
    obtain ⟨rfl, _⟩ := exhausts
    exact (by decide : (-1 : Word).toInt < 0)
  | heapStackCollision | stepLimitExceeded => trivial
  | _ => cases exhausts

theorem lenient_allowed : L.machine.Lenient Allowed := fun _ _ => allowed_of_exhausts

theorem allowed_of_failure {failure : Failure} {fault : Fault} (same : FaultOf failure fault) :
    AllowedFault fault := by
  cases failure with
  | divisionByZero =>
    obtain ⟨ip, rfl⟩ := same
    trivial
  | nullCall =>
    cases same
    rfl
  | stuck => cases same

theorem allowed_of_exhausted {run : Run} (exhausted : L.Exhausted run) : Allowed run := by
  cases run with
  | running | halted => trivial
  | failed fault s => exact allowed_of_exhausts exhausted

theorem reaches_of_breaks {kind : Fault → Prop} (breaks : L.machine.Breaks p kind)
    {goal : Point → Prop} (allowed : ∀ fault, kind fault → AllowedFault fault) :
    L.Reaches budget p goal := by
  obtain ⟨last, goes, stops⟩ := breaks
  exact .inl (goes.safe lenient_allowed (stops.safe lenient_allowed fun fault _ => allowed fault))

namespace Reaches

variable {goal goal' : Point → Prop}

theorem here (done : goal p) : L.Reaches budget p goal := .inr ⟨p, .refl, done⟩

theorem goes (goes : L.machine.Goes p q) (reaches : L.Reaches budget q goal) :
    L.Reaches budget p goal := by
  rcases reaches with safe | ⟨r, more, done⟩
  · exact .inl (goes.safe lenient_allowed safe)
  · exact .inr ⟨r, goes.trans more, done⟩

theorem bind (first : L.Reaches budget p goal)
    (next : ∀ q, goal q → L.Reaches budget q goal') : L.Reaches budget p goal' := by
  rcases first with safe | ⟨q, goes, done⟩
  · exact .inl safe
  · exact .goes goes (next q done)

end Reaches

namespace Meets

variable {α β : Type} {post : α → List Word → Point → Prop} {post' : β → List Word → Point → Prop}
  {outcome : Option (Except Failure (α × List Word))} {printed : List Word}

theorem reaches (meets : L.Meets budget p post outcome) :
    L.Reaches budget p fun q => ∃ a printed, post a printed q := by
  match outcome, meets with
  | none, meets =>
    exact .inl fun s shows ended => allowed_of_exhausted (meets s shows ended)
  | some (.ok (a, printed)), ⟨q, goes, done⟩ => exact .inr ⟨q, goes, a, printed, done⟩
  | some (.error .stuck), meets => exact meets.2
  | some (.error .divisionByZero), meets | some (.error .nullCall), meets =>
    exact reaches_of_breaks meets fun _ => allowed_of_failure

theorem goes (goes : L.machine.Goes p q) (meets : L.Meets budget q post outcome) :
    L.Meets budget p post outcome := by
  match outcome, meets with
  | none, meets => exact goes.safe lenient_exhausted meets
  | some (.ok (a, printed)), ⟨r, more, done⟩ => exact ⟨r, goes.trans more, done⟩
  | some (.error .stuck), ⟨classes, reaches⟩ => exact ⟨classes, .goes goes reaches⟩
  | some (.error .divisionByZero), breaks | some (.error .nullCall), breaks =>
    exact Breaks.goes goes breaks

/-- A step costs one of the budget, but only where the outcome depends on the budget. -/
theorem step (advances : L.machine.Advances p q) (meets : L.Meets budget q post outcome) :
    L.Meets (budget + 1) p post outcome := by
  have one : L.machine.Goes p q := .single advances
  match outcome, meets with
  | none, meets => exact advances.safe lenient_exhausted meets
  | some (.ok (a, printed)), ⟨r, more, done⟩ => exact ⟨r, one.trans more, done⟩
  | some (.error .stuck), ⟨classes, safe⟩ =>
    refine ⟨classes, ?_⟩
    rcases safe with safe | ⟨r, more, done⟩
    · exact .inl (advances.safe lenient_allowed safe)
    · exact .inr ⟨r, one.trans more, done⟩
  | some (.error .divisionByZero), breaks | some (.error .nullCall), breaks =>
    exact Breaks.goes one breaks

theorem pure {a : α} (done : post a printed p) :
    L.Meets budget p post ((Pure.pure a : Eval α) printed) :=
  ⟨p, .refl, done⟩

theorem stuck (classes : L.Classes)
    (reaches : L.Reaches budget p fun q => ∃ a printed, post a printed q) :
    L.Meets budget p post ((Eval.fail .stuck : Eval α) printed) :=
  ⟨classes, reaches⟩

theorem bind {x : Eval α} {f : α → Eval β} (first : L.Meets budget p post (x printed))
    (next : ∀ a printed q, post a printed q → L.Meets budget q post' (f a printed)) :
    L.Meets budget p post' ((x >>= f) printed) := by
  rw [Eval.bind_eq]
  match x printed, first with
  | none, safe => exact safe
  | some (.ok (a, printed)), ⟨q, one, done⟩ => exact .goes one (next a printed q done)
  | some (.error .stuck), ⟨classes, reaches⟩ =>
    refine ⟨classes, reaches.bind ?_⟩
    rintro q ⟨a, printed, done⟩
    exact (next a printed q done).reaches
  | some (.error .divisionByZero), breaks | some (.error .nullCall), breaks => exact breaks

theorem extend {post' : α → List Word → Point → Prop} (meets : L.Meets budget p post outcome)
    (further : ∀ a printed q, post a printed q → ∃ r, L.machine.Goes q r ∧ post' a printed r) :
    L.Meets budget p post' outcome := by
  match outcome, meets with
  | none, meets => exact meets
  | some (.ok (a, printed)), ⟨q, goes, done⟩ =>
    obtain ⟨r, more, done'⟩ := further a printed q done
    exact ⟨r, goes.trans more, done'⟩
  | some (.error .stuck), ⟨classes, reaches⟩ =>
    refine ⟨classes, reaches.bind ?_⟩
    rintro q ⟨a, printed, done⟩
    obtain ⟨r, more, done'⟩ := further a printed q done
    exact .inr ⟨r, more, a, printed, done'⟩
  | some (.error .divisionByZero), meets | some (.error .nullCall), meets => exact meets

theorem weaken {post' : α → List Word → Point → Prop} (meets : L.Meets budget p post outcome)
    (weaker : ∀ a printed q, post a printed q → post' a printed q) :
    L.Meets budget p post' outcome :=
  meets.extend fun a printed q done => ⟨q, .refl, weaker a printed q done⟩

end Meets

end ObjectLang.Loaded
