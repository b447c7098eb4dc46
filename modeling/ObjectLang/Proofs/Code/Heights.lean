import ObjectLang.Proofs.Code.Listing
import ObjectLang.Proofs.Machine.Effects

/-!
Heights of the stack. A row is an instruction of a program with the height of the stack before it. A
piece of code carries the stack from one height to another if its rows agree on the heights along
every way through it, by falling through and by branching.
-/
namespace ObjectLang

open Symbolic

structure Station where
  address : Nat
  height : Int

/-- An instruction of a program at its station. A branch has the address that it leads to, and a
`js` that ends a call has the number of arguments of the call. -/
structure Row extends Station where
  instr : Instr
  target : Option Nat
  args : Option Nat

namespace Row

def entry (r : Row) : Nat × Instr := (r.address, r.instr)

/-- What the instruction does to the height, or the whole call if it is a `js` that ends one: a call
takes its target, the access link, the arguments and the control link, and gives one result. -/
def effect (r : Row) : Int :=
  match r.args with
  | some n => if r.instr.op = .js then -(n + 2) else r.instr.op.effect
  | none => r.instr.op.effect

def leaves (r : Row) : Bool := r.instr.op == .halt || (r.instr.op == .js && r.args.isNone)

def passes (r : Row) : Bool := !r.leaves && r.instr.op != .branch

def of (labels : Labels) (p : Station) (i : Symbolic) : Row where
  toStation := p
  instr := i.link labels
  target := if i.op.isBranch then i.label?.bind labels.address? else none
  args := none

def call (labels : Labels) (p : Station) (n : Nat) : Row :=
  { of labels p (plain .js) with args := some n }

theorem operand_branch {labels : Labels} {op : Opcode} {l : Label} {t : Nat}
    (bound : labels.address? l = some t) :
    ((branch op l).link labels).operand = some (Int32.ofNat t) := by
  simp [link, branch, bound]

theorem target_branch {labels : Labels} {p : Station} {op : Opcode} {l : Label} {t : Nat}
    (branches : op.isBranch = true) (bound : labels.address? l = some t) :
    (of labels p (branch op l)).target = some t := by
  have isBranch : (branch op l).op.isBranch = true := branches
  simp [of, isBranch, bound]

theorem width_branch {op : Opcode} (branches : op.isBranch = true) : op.width = 2 := by
  rw [Opcode.width, Opcode.hasOperand, branches, Bool.or_true, if_pos rfl]

def first (q : Station) : List Row → Station
  | [] => q
  | r :: _ => r.toStation

@[simp] theorem first_append (q : Station) (R S : List Row) :
    first q (R ++ S) = first (first q S) R := by
  cases R <;> rfl

def stations (R : List Row) (q : Station) : List Station := R.map Row.toStation ++ [q]

theorem first_mem (R : List Row) (q : Station) : first q R ∈ stations R q := by
  cases R <;> simp [first, stations]

theorem first_mem_map {R : List Row} (some : R ≠ []) (q : Station) :
    first q R ∈ R.map Row.toStation := by
  cases R with
  | nil => exact absurd rfl some
  | cons r R => exact List.mem_cons_self

theorem mem_stations {R : List Row} {r : Row} (mem : r ∈ R) (q : Station) :
    r.toStation ∈ stations R q :=
  List.mem_append_left _ (List.mem_map_of_mem mem)

theorem last_mem (R : List Row) (q : Station) : q ∈ stations R q :=
  List.mem_append_right _ List.mem_cons_self

theorem stations_subset {whole : List Station} {R : List Row} {q : Station}
    (rows : ∀ r ∈ R, r.toStation ∈ whole) (last : q ∈ whole) : stations R q ⊆ whole := by
  intro station mem
  rcases List.mem_append.mp mem with mem | mem
  · obtain ⟨r, listed, rfl⟩ := List.mem_map.mp mem
    exact rows r listed
  · rw [List.mem_singleton.mp mem]
    exact last

theorem stations_right (R S : List Row) (q : Station) : stations S q ⊆ stations (R ++ S) q :=
  stations_subset (fun _ mem => mem_stations (List.mem_append_right _ mem) q) (last_mem _ q)

theorem stations_left (R S : List Row) (q : Station) :
    stations R (first q S) ⊆ stations (R ++ S) q :=
  stations_subset (fun _ mem => mem_stations (List.mem_append_left _ mem) q)
    (stations_right R S q (first_mem S q))

/-- Control goes from the row to the next station if it falls through, and to one of the given
stations if it branches, with the height that the effect of the row leaves. -/
structure Steps (whole : List Station) (next : Station) (r : Row) : Prop where
  falls : r.passes = true → next = ⟨r.address + r.instr.op.width, r.height + r.effect⟩
  jumps : r.instr.op.isBranch = true → ∃ t, r.target = some t ∧
    r.instr.operand = some (Int32.ofNat t) ∧ ⟨t, r.height + r.effect⟩ ∈ whole
  aims : r.instr.op.isBranch = false → r.target = none

def Flows (whole : List Station) (q : Station) : List Row → Prop
  | [] => True
  | r :: R => r.Steps whole (first q R) ∧ Flows whole q R

variable {whole wider : List Station} {q : Station} {R S : List Row}

theorem Flows.append (one : Flows whole (first q S) R) (two : Flows whole q S) :
    Flows whole q (R ++ S) := by
  induction R with
  | nil => exact two
  | cons r R ih =>
    rw [List.cons_append]
    refine ⟨?_, ih one.2⟩
    rw [first_append]
    exact one.1

theorem Flows.mono (flows : Flows whole q R) (sub : whole ⊆ wider) : Flows wider q R := by
  induction R with
  | nil => trivial
  | cons r R ih =>
    refine ⟨⟨flows.1.falls, ?_, flows.1.aims⟩, ih flows.2⟩
    intro branches
    obtain ⟨t, aim, operand, known⟩ := flows.1.jumps branches
    exact ⟨t, aim, operand, sub known⟩

theorem Flows.right (flows : Flows whole q (R ++ S)) : Flows whole q S := by
  induction R with
  | nil => exact flows
  | cons r R ih => exact ih flows.2

theorem Flows.steps {r : Row} (flows : Flows whole q R) (mem : r ∈ R) :
    ∃ next, r.Steps whole next := by
  induction R with
  | nil => cases mem
  | cons other R ih =>
    rcases List.mem_cons.mp mem with rfl | mem
    · exact ⟨_, flows.1⟩
    · exact ih flows.2 mem

theorem Flows.lands {r : Row} (flows : Flows (R.map Row.toStation) q R) (mem : r ∈ R)
    (branches : r.instr.op.isBranch = true) :
    ∃ r' ∈ R, r.target = some r'.address ∧ r.instr.operand = some (Int32.ofNat r'.address) := by
  obtain ⟨_, steps⟩ := flows.steps mem
  obtain ⟨t, target, operand, known⟩ := steps.jumps branches
  obtain ⟨r', listed, station⟩ := List.mem_map.mp known
  have same : r'.address = t := congrArg Station.address station
  exact ⟨r', listed, by rw [target, same], by rw [operand, same]⟩

/-- Where all addresses are words, a branch leads to the address that the machine reads as its
operand. -/
theorem Flows.target_eq_operand {r : Row} (flows : Flows (R.map Row.toStation) q R)
    (low : ∀ r ∈ R, r.address < Word.limit) (mem : r ∈ R)
    (branches : r.instr.op.isBranch = true) : r.target = r.instr.operand.bind Word.index? := by
  obtain ⟨r', listed, target, operand⟩ := flows.lands mem branches
  rw [target, operand, Option.bind_some, Word.index?_ofNat (low r' listed)]

def Inner (low : Int) (r : Row) : Prop := low ≤ r.height ∧ r.leaves = false

theorem Inner.mono {low lower : Int} {r : Row} (inner : r.Inner low) (le : lower ≤ low) :
    r.Inner lower :=
  ⟨Int.le_trans le inner.1, inner.2⟩

def Own (low : Int) (r : Row) : Prop := r.Inner low ∧ r.instr.op ≠ .js

theorem own_of {labels : Labels} {low : Int} {p : Station} {i : Symbolic} (above : low ≤ p.height)
    (noCall : i.op ≠ .js) (noHalt : i.op ≠ .halt) : (of labels p i).Own low := by
  refine ⟨⟨above, ?_⟩, noCall⟩
  simp [leaves, of, noCall, noHalt]

end Row

/-- The rows `R` are the code `c` from station `p` on, with station `q` after them. Whatever way
control takes through them it stays on the stations `whole`, and every row has the property `P`. -/
structure Piece (labels : Labels) (whole : List Station) (P : Row → Prop) (c : Code)
    (p q : Station) (R : List Row) : Prop where
  shown : R.map Row.entry = Code.listing labels p.address c
  address : q.address = p.address + c.width
  start : Row.first q R = p
  flows : Row.Flows whole q R
  each : ∀ r ∈ R, P r

namespace Piece

variable {labels : Labels} {whole wider : List Station} {P P' : Row → Prop} {c d : Code}
  {p q r : Station} {R S : List Row} {line : Line}

theorem nil : Piece labels whole P [] p p [] := ⟨rfl, rfl, rfl, trivial, by simp⟩

theorem mark (l : Label) : Piece labels whole P [.mark l] p p [] :=
  ⟨rfl, rfl, rfl, trivial, by simp⟩

theorem append (one : Piece labels whole P c p q R) (two : Piece labels whole P d q r S) :
    Piece labels whole P (c ++ d) p r (R ++ S) where
  shown := by rw [List.map_append, one.shown, two.shown, one.address, Code.listing_append]
  address := by rw [two.address, one.address, Code.width_append, Nat.add_assoc]
  start := by rw [Row.first_append, two.start, one.start]
  flows := by
    refine Row.Flows.append ?_ two.flows
    rw [two.start]
    exact one.flows
  each := by
    intro row mem
    rcases List.mem_append.mp mem with mem | mem
    · exact one.each row mem
    · exact two.each row mem

theorem marked (piece : Piece labels whole P c p q R) (l : Label) :
    Piece labels whole P (c ++ [.mark l]) p q R := by
  have longer := piece.append (mark l)
  rwa [List.append_nil] at longer

theorem mono (piece : Piece labels whole P c p q R) (sub : whole ⊆ wider) :
    Piece labels wider P c p q R :=
  ⟨piece.shown, piece.address, piece.start, piece.flows.mono sub, piece.each⟩

theorem weaken (piece : Piece labels whole P c p q R) (implies : ∀ row, P row → P' row) :
    Piece labels whole P' c p q R :=
  ⟨piece.shown, piece.address, piece.start, piece.flows,
    fun row mem => implies row (piece.each row mem)⟩

theorem join (one : Piece labels (Row.stations R q) P c p q R)
    (two : Piece labels (Row.stations S r) P d q r S) :
    Piece labels (Row.stations (R ++ S) r) P (c ++ d) p r (R ++ S) := by
  have left : Row.stations R q ⊆ Row.stations (R ++ S) r := by
    have here := Row.stations_left R S r
    rw [two.start] at here
    exact here
  exact (one.mono left).append (two.mono (Row.stations_right R S r))

theorem single {i : Symbolic} (bare : i.op.isBranch = false) (each : P (Row.of labels p i))
    (address : q.address = p.address + i.op.width) (height : q.height = p.height + i.op.effect) :
    Piece labels whole P [.instr i line] p q [Row.of labels p i] where
  shown := rfl
  address := address
  start := rfl
  flows := by
    refine ⟨⟨?_, ?_, ?_⟩, trivial⟩
    · intro _
      obtain ⟨a, h⟩ := q
      exact congr (congrArg Station.mk address) height
    · intro branches
      rw [Row.of, link_op, bare] at branches
      cases branches
    · intro _
      simp [Row.of, bare]
  each := by simpa using each

theorem call (n : Nat) (each : P (Row.call labels p n)) :
    Piece labels whole P [.instr (plain .js) line] p ⟨p.address + 1, p.height - (n + 2)⟩
      [Row.call labels p n] where
  shown := rfl
  address := rfl
  start := rfl
  flows := by
    refine ⟨⟨?_, ?_, fun _ => rfl⟩, trivial⟩
    · intro _
      rfl
    · intro branches
      cases branches
  each := by simpa using each

theorem push {low : Int} {w : Word} (above : low ≤ p.height) (address : q.address = p.address + 2)
    (height : q.height = p.height + 1) :
    Piece labels whole (Row.Own low) [.instr (push w) line] p q [Row.of labels p (push w)] :=
  .single rfl (Row.own_of above nofun nofun) address height

theorem branchIf {low : Int} {op : Opcode} {l : Label} {t : Nat} (branches : op.isBranch = true)
    (effect : op.effect = -2) (above : low ≤ p.height) (bound : labels.address? l = some t)
    (known : ⟨t, q.height⟩ ∈ whole) (address : q.address = p.address + 2)
    (height : q.height = p.height - 2) :
    Piece labels whole (Row.Own low) [.instr (branch op l) line] p q
      [Row.of labels p (branch op l)] where
  shown := rfl
  address := by rw [address, ← Row.width_branch branches]; rfl
  start := rfl
  flows := by
    have after : q.height = p.height + op.effect := by rw [effect, height]; rfl
    refine ⟨⟨?_, ?_, ?_⟩, trivial⟩
    · intro _
      rw [← Row.width_branch branches] at address
      obtain ⟨a, h⟩ := q
      exact congr (congrArg Station.mk address) after
    · intro _
      rw [after] at known
      exact ⟨t, Row.target_branch branches bound, Row.operand_branch bound, known⟩
    · intro bare
      exact absurd (bare.symm.trans branches) (by decide)
  each := by
    have noCall : op ≠ .js := by rintro rfl; cases branches
    have noHalt : op ≠ .halt := by rintro rfl; cases branches
    simpa using Row.own_of above noCall noHalt

/-- A branch that is always taken, so that any height may follow it. -/
theorem jump {low : Int} {l : Label} {t : Nat} (above : low ≤ p.height)
    (bound : labels.address? l = some t) (known : ⟨t, p.height⟩ ∈ whole)
    (address : q.address = p.address + 2) :
    Piece labels whole (Row.Own low) [.instr (branch .branch l) line] p q
      [Row.of labels p (branch .branch l)] where
  shown := rfl
  address := address
  start := rfl
  flows := by
    refine ⟨⟨?_, ?_, ?_⟩, trivial⟩
    · intro impossible
      cases impossible
    · intro _
      refine ⟨t, Row.target_branch rfl bound, Row.operand_branch bound, ?_⟩
      show (⟨t, p.height + 0⟩ : Station) ∈ whole
      rw [Int.add_zero]
      exact known
    · intro bare
      cases bare
  each := by
    have own : (Row.of labels p (branch .branch l)).Own low := Row.own_of above nofun nofun
    simpa using own

end Piece

def Opcode.isOrdinary (op : Opcode) : Bool := !op.isBranch && op != .js && op != .halt

def Symbolic.effects : List Symbolic → Int
  | [] => 0
  | i :: code => i.op.effect + effects code

namespace Symbolic

@[simp] theorem effects_nil : effects [] = 0 := rfl

@[simp] theorem effects_cons (i : Symbolic) (code : List Symbolic) :
    effects (i :: code) = i.op.effect + effects code := rfl

@[simp] theorem effects_append (c d : List Symbolic) :
    effects (c ++ d) = effects c + effects d := by
  induction c with
  | nil => simp
  | cons i c ih => simp [ih, Int.add_assoc]

/-- Ordinary instructions one after the other, none of which stands lower than `low` if the first
one stands at height `h`. -/
def Straight (low : Int) : (h : Int) → List Symbolic → Prop
  | _, [] => True
  | h, i :: code => low ≤ h ∧ i.op.isOrdinary = true ∧ Straight low (h + i.op.effect) code

@[simp] theorem straight_append {low h : Int} {c d : List Symbolic} :
    Straight low h (c ++ d) ↔ Straight low h c ∧ Straight low (h + effects c) d := by
  induction c generalizing h with
  | nil => simp [Straight]
  | cons i c ih => simp [Straight, ih, and_assoc, Int.add_assoc]

end Symbolic

def Station.past (p : Station) : List Symbolic → Station
  | [] => p
  | i :: code => past ⟨p.address + i.op.width, p.height + i.op.effect⟩ code

@[simp] theorem Station.height_past (p : Station) (code : List Symbolic) :
    (p.past code).height = p.height + effects code := by
  induction code generalizing p with
  | nil => simp [past]
  | cons i code ih => simp [past, ih, Int.add_assoc]

theorem Station.address_past (p : Station) (line : Line) (code : List Symbolic) :
    (p.past code).address = p.address + Code.width (onLine line code) := by
  induction code generalizing p with
  | nil => rfl
  | cons i code ih =>
    rw [past, ih]
    exact Nat.add_assoc _ _ _

namespace Row

def run (labels : Labels) (p : Station) : List Symbolic → List Row
  | [] => []
  | i :: code => of labels p i :: run labels ⟨p.address + i.op.width, p.height + i.op.effect⟩ code

theorem mem_run {labels : Labels} {p : Station} {code : List Symbolic} {r : Row}
    (mem : r ∈ run labels p code) : ∃ q, ∃ i ∈ code, r = of labels q i := by
  induction code generalizing p with
  | nil => cases mem
  | cons i code ih =>
    rcases List.mem_cons.mp mem with rfl | mem
    · exact ⟨p, i, List.mem_cons_self, rfl⟩
    · obtain ⟨q, j, later, same⟩ := ih mem
      exact ⟨q, j, List.mem_cons_of_mem _ later, same⟩

theorem opcodes_run (labels : Labels) (p : Station) (code : List Symbolic) :
    (run labels p code).map (fun r => r.instr.op) = code.map Symbolic.op := by
  induction code generalizing p with
  | nil => rfl
  | cons i code ih => exact congrArg _ (ih _)

theorem entries_run (labels : Labels) (p : Station) (line : Line) (code : List Symbolic) :
    (run labels p code).map entry = Code.listing labels p.address (onLine line code) := by
  induction code generalizing p with
  | nil => rfl
  | cons i code ih => exact congrArg _ (ih _)

theorem run_append (labels : Labels) (p : Station) (c d : List Symbolic) :
    run labels p (c ++ d) = run labels p c ++ run labels (p.past c) d := by
  induction c generalizing p with
  | nil => rfl
  | cons i c ih => exact congrArg _ (ih _)

theorem first_run (labels : Labels) (p : Station) (code : List Symbolic) :
    first (p.past code) (run labels p code) = p := by
  cases code <;> rfl

theorem flows_run {labels : Labels} {whole : List Station} {p : Station} {code : List Symbolic}
    (bare : ∀ i ∈ code, i.op.isBranch = false) :
    Flows whole (p.past code) (run labels p code) := by
  induction code generalizing p with
  | nil => trivial
  | cons i code ih =>
    refine ⟨⟨?_, ?_, ?_⟩, ih fun j mem => bare j (List.mem_cons_of_mem _ mem)⟩
    · intro _
      exact first_run labels _ code
    · intro branches
      rw [of, link_op, bare i List.mem_cons_self] at branches
      cases branches
    · intro _
      simp [of, bare i List.mem_cons_self]

end Row

theorem Opcode.isOrdinary_iff {op : Opcode} :
    op.isOrdinary = true ↔ op.isBranch = false ∧ op ≠ .js ∧ op ≠ .halt := by
  simp [isOrdinary, and_assoc]

theorem Symbolic.Straight.bare {low h : Int} {code : List Symbolic}
    (straight : Straight low h code) : ∀ i ∈ code, i.op.isBranch = false := by
  induction code generalizing h with
  | nil => simp
  | cons i code ih =>
    obtain ⟨_, ordinary, rest⟩ := straight
    exact List.forall_mem_cons.mpr ⟨(Opcode.isOrdinary_iff.mp ordinary).1, ih rest⟩

theorem Symbolic.Straight.own {low : Int} {labels : Labels} {p : Station} {code : List Symbolic}
    (straight : Straight low p.height code) : ∀ r ∈ Row.run labels p code, r.Own low := by
  induction code generalizing p with
  | nil => simp [Row.run]
  | cons i code ih =>
    obtain ⟨above, ordinary, rest⟩ := straight
    obtain ⟨_, noCall, noHalt⟩ := Opcode.isOrdinary_iff.mp ordinary
    exact List.forall_mem_cons.mpr ⟨Row.own_of above noCall noHalt, ih rest⟩

theorem Piece.straight {labels : Labels} {whole : List Station} {low : Int} {p : Station}
    {code : List Symbolic} (straight : Straight low p.height code) (line : Line) :
    Piece labels whole (Row.Own low) (onLine line code) p (p.past code)
      (Row.run labels p code) where
  shown := Row.entries_run labels p line code
  address := p.address_past line code
  start := Row.first_run labels p code
  flows := Row.flows_run straight.bare
  each := straight.own

namespace Sequence

variable {low h : Int}

theorem straight_loadOffset (above : low ≤ h) (offset : Word) :
    Straight low h (loadOffset offset) := by
  simp [loadOffset, Straight, Opcode.isOrdinary, Opcode.isBranch, push, plain, Opcode.effect]
  omega

@[simp] theorem effects_loadOffset (offset : Word) : effects (loadOffset offset) = 0 := rfl

theorem straight_loads (above : low ≤ h) (count : Nat) :
    Straight low h (List.replicate count (plain .loadW)) := by
  induction count with
  | zero => trivial
  | succ count ih =>
    refine ⟨above, rfl, ?_⟩
    rw [show h + (plain .loadW).op.effect = h from Int.add_zero h]
    exact ih

@[simp] theorem effects_loads (count : Nat) :
    effects (List.replicate count (plain .loadW)) = 0 := by
  induction count with
  | zero => rfl
  | succ count ih => rw [List.replicate_succ, effects_cons, ih]; rfl

theorem straight_frame (above : low ≤ h) (g : Word) (use : Use) :
    Straight low h (use.frame g) := by
  unfold Use.frame
  split
  · exact ⟨above, rfl, trivial⟩
  · exact ⟨above, rfl, straight_loads (by show low ≤ h + 1; omega) _⟩

@[simp] theorem effects_frame (g : Word) (use : Use) : effects (use.frame g) = 1 := by
  unfold Use.frame
  split
  · rfl
  · rw [frameWalk, effects_cons, effects_loads]
    rfl

theorem straight_heapBump (above : low ≤ h) : Straight low h heapBump := by
  simp [heapBump, Straight, Opcode.isOrdinary, Opcode.isBranch, push, plain, Opcode.effect]
  omega

theorem straight_heapStore (above : low + 1 ≤ h) : Straight low h heapStore := by
  refine ⟨by omega, rfl, ?_, rfl, ?_⟩
  · show low ≤ h + 1
    omega
  · exact straight_heapBump (by show low ≤ h + 1 + -2; omega)

@[simp] theorem effects_heapStore : effects heapStore = -1 := rfl

theorem straight_heapStores {count : Nat} (above : low + count ≤ h) :
    Straight low h (List.replicate count heapStore).flatten := by
  induction count generalizing h with
  | zero => trivial
  | succ count ih =>
    rw [List.replicate_succ, List.flatten_cons, straight_append]
    refine ⟨straight_heapStore (by omega), ih ?_⟩
    rw [effects_heapStore]
    omega

@[simp] theorem effects_heapStores (count : Nat) :
    effects (List.replicate count heapStore).flatten = -count := by
  induction count with
  | zero => rfl
  | succ count ih =>
    rw [List.replicate_succ, List.flatten_cons, effects_append, effects_heapStore, ih]
    omega

theorem straight_newTail {count : Nat} (above : low + count ≤ h) (g : Word) (b : Binding) :
    Straight low h (Expr.newTail g count b) := by
  simp only [Expr.newTail, straight_append, effects_append, effects_heapStores]
  refine ⟨⟨straight_heapStores above, ?_⟩, straight_heapBump ?_⟩
  · simp [Straight, Opcode.isOrdinary, Opcode.isBranch, push, plain, Opcode.effect]
    omega
  · simp [push, plain, Opcode.effect]
    omega

@[simp] theorem effects_newTail (g : Word) (count : Nat) (b : Binding) :
    effects (Expr.newTail g count b) = 1 - count := by
  simp only [Expr.newTail, effects_append, effects_heapStores]
  simp [heapBump, push, plain, Opcode.effect]
  omega

theorem straight_callStart (above : low + 1 ≤ h) : Straight low h callStart := by
  simp [callStart, Straight, Opcode.isOrdinary, Opcode.isBranch, plain, Opcode.effect]
  omega

@[simp] theorem effects_callStart : effects callStart = 1 := rfl

theorem straight_loadThrough (above : low ≤ h) (offset : Word) :
    Straight low h (plain .loadW :: loadOffset offset) :=
  ⟨above, rfl, straight_loadOffset (by show low ≤ h + 0; omega) offset⟩

theorem straight_callTarget (above : low ≤ h) (b : Binding) :
    Straight low h (Expr.callTarget b) := by
  unfold Expr.callTarget
  split
  · exact straight_loadThrough above b.offset
  · exact straight_loadOffset above b.offset

@[simp] theorem effects_callTarget (b : Binding) : effects (Expr.callTarget b) = 0 := by
  unfold Expr.callTarget
  split <;> rfl

theorem straight_swap (above : low + 2 ≤ h) : Straight low h swap := by
  simp [swap, Straight, Opcode.isOrdinary, Opcode.isBranch, plain, Opcode.effect]
  omega

theorem straight_entries (above : low ≤ h) (table : List Label) :
    Straight low h (table.flatMap fun entry => pushLabel entry :: heapStore) := by
  induction table with
  | nil => trivial
  | cons entry table ih =>
    rw [List.flatMap_cons, straight_append]
    refine ⟨⟨above, rfl, straight_heapStore (by show low + 1 ≤ h + 1; omega)⟩, ?_⟩
    rw [effects_cons, effects_heapStore, show (pushLabel entry).op.effect + -1 = 0 from rfl,
      Int.add_zero]
    exact ih

theorem effects_entries (table : List Label) :
    effects (table.flatMap fun entry => pushLabel entry :: heapStore) = 0 := by
  induction table with
  | nil => rfl
  | cons entry table ih => rw [List.flatMap_cons, effects_append, ih]; rfl

theorem straight_tableCode (above : low ≤ h) (table : List Label) :
    Straight low h (tableCode table) :=
  ⟨above, rfl, straight_entries (by show low ≤ h + 1; omega) table⟩

@[simp] theorem effects_tableCode (table : List Label) : effects (tableCode table) = 1 := by
  rw [tableCode, effects_cons, effects_entries]
  rfl

end Sequence

end ObjectLang
