import Mathlib.Tactic.SplitIfs
import ObjectLang.Proofs.Code.Lowering

/-!
Labels of generated code. Whatever tree is lowered, every instruction carries an operand exactly if
its opcode takes one, every label is marked at most once, and every label an instruction refers to
is marked somewhere in the same program.

Labels are handed out in order, so the marks of a piece of code lie between the supply it was
lowered from and the supply it left. The marks are counted: a count adds up over concatenation in
any order, and disjoint ranges keep it at one.
-/
namespace ObjectLang

open Symbolic Lower

def Symbolic.formed (i : Symbolic) : Bool := i.op.hasOperand == (i.operand != .none)

@[simp] theorem formed_plain (op : Opcode) : (plain op).formed = !op.hasOperand := by
  simp [Symbolic.formed, plain]

@[simp] theorem formed_push (w : Word) : (push w).formed = true := rfl

@[simp] theorem formed_pushLabel (l : Label) : (pushLabel l).formed = true := rfl

@[simp] theorem formed_branch (op : Opcode) (l : Label) : (branch op l).formed = op.hasOperand := by
  have labelled : (Operand.label l != .none) = true := rfl
  simp [Symbolic.formed, branch, labelled]

def Symbolic.label? (i : Symbolic) : Option Label :=
  match i.operand with
  | .label l => some l
  | _ => none

@[simp] theorem label?_plain (op : Opcode) : (plain op).label? = none := rfl

@[simp] theorem label?_push (w : Word) : (push w).label? = none := rfl

@[simp] theorem label?_pushLabel (l : Label) : (pushLabel l).label? = some l := rfl

@[simp] theorem label?_branch (op : Opcode) (l : Label) : (branch op l).label? = some l := rfl

namespace Item

def formed : Item → Bool
  | .instr i _ => i.formed
  | .mark _ => true

def ref? : Item → Option Label
  | .instr i _ => i.label?
  | .mark _ => none

def mark? : Item → Option Label
  | .instr _ _ => none
  | .mark l => some l

end Item

def Label.within (lo hi : Nat) (l : Label) : Nat := if lo ≤ l.id ∧ l.id < hi then 1 else 0

def Label.entry (number : Nat) (l : Label) : Nat := if l.id = number then 1 else 0

theorem Label.within_add {lo mid hi : Nat} (l : Label) (low : lo ≤ mid) (high : mid ≤ hi) :
    l.within lo mid + l.within mid hi = l.within lo hi := by
  unfold within
  split_ifs <;> omega

theorem Label.entry_add {lo hi : Nat} (l : Label) (low : lo < hi) :
    l.entry lo + l.within (lo + 1) hi = l.within lo hi := by
  unfold entry within
  split_ifs <;> omega

namespace Code

def refs (c : Code) : List Label := c.filterMap Item.ref?

def marks (c : Code) : List Label := c.filterMap Item.mark?

def markCount (c : Code) (l : Label) : Nat := (marks c).count l

@[simp] theorem refs_nil : refs [] = [] := rfl

@[simp] theorem refs_append (c d : Code) : refs (c ++ d) = refs c ++ refs d := by simp [refs]

@[simp] theorem refs_mark (l : Label) (c : Code) : refs (.mark l :: c) = refs c := rfl

@[simp] theorem refs_onLine (line : Line) (code : List Symbolic) :
    refs (onLine line code) = code.filterMap Symbolic.label? := by
  simp [refs, onLine, List.filterMap_map, Function.comp_def, Item.ref?]

@[simp] theorem marks_nil : marks [] = [] := rfl

@[simp] theorem marks_append (c d : Code) : marks (c ++ d) = marks c ++ marks d := by
  simp [marks]

@[simp] theorem marks_mark (l : Label) (c : Code) : marks (.mark l :: c) = l :: marks c := rfl

@[simp] theorem marks_onLine (line : Line) (code : List Symbolic) :
    marks (onLine line code) = [] := by
  simp [marks, onLine, List.filterMap_map, Function.comp_def, Item.mark?]

@[simp] theorem markCount_nil (l : Label) : markCount [] l = 0 := rfl

@[simp] theorem markCount_append (c d : Code) (l : Label) :
    markCount (c ++ d) l = markCount c l + markCount d l := by
  simp [markCount]

@[simp] theorem markCount_mark (entry l : Label) (c : Code) :
    markCount (.mark entry :: c) l = l.entry entry.id + markCount c l := by
  obtain ⟨a⟩ := entry
  obtain ⟨b⟩ := l
  simp only [markCount, marks_mark, List.count_cons, beq_iff_eq, Label.mk.injEq, Label.entry,
    eq_comm (a := a)]
  omega

@[simp] theorem markCount_onLine (line : Line) (code : List Symbolic) (l : Label) :
    markCount (onLine line code) l = 0 := by
  simp [markCount]

@[simp] theorem forall_formed_onLine (line : Line) (code : List Symbolic) :
    (∀ item ∈ onLine line code, item.formed = true) ↔ ∀ i ∈ code, i.formed = true := by
  simp [onLine, Item.formed]

end Code

structure Enclosed (s t : Supply) (c : Code) : Prop where
  grows : s.next ≤ t.next
  formed : ∀ item ∈ c, item.formed = true
  once : ∀ l, c.markCount l ≤ l.within s.next t.next
  bound : ∀ l ∈ c.refs, l ∈ c.marks
  dispatch : t.dispatch = s.dispatch

namespace Enclosed

variable {s t u : Supply} {c d : Code}

theorem onLine {line : Line} {code : List Symbolic} (formed : ∀ i ∈ code, i.formed = true)
    (free : ∀ i ∈ code, i.label? = none) : Enclosed s s (onLine line code) where
  grows := by omega
  formed := by simpa using formed
  once := by simp
  bound := by
    intro l mem
    simp only [Code.refs_onLine, List.mem_filterMap] at mem
    obtain ⟨i, mem, label⟩ := mem
    rw [free i mem] at label
    cases label
  dispatch := rfl

theorem nil : Enclosed s s [] := by
  have none : Enclosed s s (Symbolic.onLine 0 []) := onLine (by simp) (by simp)
  exact none

theorem append (first : Enclosed s u c) (second : Enclosed u t d) : Enclosed s t (c ++ d) where
  grows := Nat.le_trans first.grows second.grows
  formed := List.forall_mem_append.mpr ⟨first.formed, second.formed⟩
  once := by
    intro l
    have one := first.once l
    have two := second.once l
    have range := l.within_add first.grows second.grows
    rw [Code.markCount_append]
    omega
  bound := by
    intro l mem
    rw [Code.refs_append, List.mem_append] at mem
    rw [Code.marks_append, List.mem_append]
    rcases mem with mem | mem
    · exact .inl (first.bound l mem)
    · exact .inr (second.bound l mem)
  dispatch := second.dispatch.trans first.dispatch

theorem select (line : Line) {op : Opcode} (taken otherwise : Word) (operand : op.hasOperand = true) :
    Enclosed s { s with next := s.next + 2 }
      (selectItems line op taken otherwise ⟨s.next⟩ ⟨s.next + 1⟩) where
  grows := by simp
  formed := by
    have jump : Opcode.branch.hasOperand = true := rfl
    simp only [selectItems, List.append_assoc, List.forall_mem_append, Code.forall_formed_onLine]
    simp [operand, jump, Item.formed]
  once := by
    intro l
    have yes := l.entry_add (show s.next < s.next + 2 by omega)
    have done := l.entry_add (show s.next + 1 < s.next + 2 by omega)
    simp only [selectItems, Code.markCount_append, Code.markCount_onLine, Code.markCount_mark,
      Code.markCount_nil]
    omega
  bound := by
    simp [selectItems]
  dispatch := rfl

theorem logical (op : BinaryOp) (leftLine rightLine : Line)
    (first : Enclosed { s with next := s.next + 2 } u c) (second : Enclosed u t d) :
    Enclosed s t (Expr.logicalItems op leftLine rightLine c d ⟨s.next⟩ ⟨s.next + 1⟩) where
  grows := by
    have low := first.grows
    have high := second.grows
    simp only at low
    omega
  formed := by
    simp only [Expr.logicalItems, List.append_assoc, List.forall_mem_append,
      Code.forall_formed_onLine]
    refine ⟨first.formed, ?_, second.formed, ?_⟩
    · simp [Opcode.hasOperand, Opcode.isBranch]
    · simp [Item.formed, Opcode.hasOperand, Opcode.isBranch]
  once := by
    intro l
    have one := first.once l
    have two := second.once l
    have low : s.next + 2 ≤ u.next := first.grows
    have high := second.grows
    have inner := l.within_add low high
    have decided := l.entry_add (show s.next < t.next by omega)
    have done : l.entry (s.next + 1) + l.within (s.next + 2) t.next = l.within (s.next + 1) t.next :=
      l.entry_add (by omega)
    simp only [Expr.logicalItems, Code.markCount_append, Code.markCount_onLine,
      Code.markCount_mark, Code.markCount_nil] at *
    omega
  bound := by
    intro l mem
    have one := first.bound l
    have two := second.bound l
    simp only [Expr.logicalItems, Code.refs_append, Code.refs_onLine, Code.marks_append,
      Code.marks_onLine, List.mem_append, List.filterMap_cons, label?_push, label?_branch,
      Code.marks_mark, Code.refs_mark, Code.refs_nil, List.mem_cons] at *
    grind
  dispatch := second.dispatch.trans first.dispatch

theorem cond {testCode noCode yesCode : Code} {v : Supply} (test no : Expr)
    (first : Enclosed { s with next := s.next + 2 } u testCode) (second : Enclosed u v noCode)
    (third : Enclosed v t yesCode) :
    Enclosed s t (Expr.condItems test no testCode noCode yesCode ⟨s.next⟩ ⟨s.next + 1⟩) where
  grows := by
    have low := first.grows
    have mid := second.grows
    have high := third.grows
    simp only at low
    omega
  formed := by
    simp only [Expr.condItems, List.append_assoc, List.forall_mem_append,
      Code.forall_formed_onLine]
    refine ⟨first.formed, ?_, second.formed, ?_, ?_, third.formed, ?_⟩
    · simp [Opcode.hasOperand, Opcode.isBranch]
    · simp [Opcode.hasOperand, Opcode.isBranch]
    · simp [Item.formed]
    · simp [Item.formed]
  once := by
    intro l
    have one := first.once l
    have two := second.once l
    have three := third.once l
    have low : s.next + 2 ≤ u.next := first.grows
    have mid := second.grows
    have high := third.grows
    have branches := l.within_add mid high
    have inner := l.within_add low (Nat.le_trans mid high)
    have taken := l.entry_add (show s.next < t.next by omega)
    have done : l.entry (s.next + 1) + l.within (s.next + 2) t.next = l.within (s.next + 1) t.next :=
      l.entry_add (by omega)
    simp only [Expr.condItems, Code.markCount_append, Code.markCount_onLine,
      Code.markCount_mark, Code.markCount_nil] at *
    omega
  bound := by
    intro l mem
    have one := first.bound l
    have two := second.bound l
    have three := third.bound l
    simp only [Expr.condItems, Code.refs_append, Code.refs_onLine, Code.marks_append,
      Code.marks_onLine, List.mem_append, List.filterMap_cons, label?_push, label?_branch,
      Code.marks_mark, Code.refs_mark, Code.refs_nil, List.mem_cons] at *
    grind
  dispatch := third.dispatch.trans (second.dispatch.trans first.dispatch)

end Enclosed

theorem enclosed_operator {line : Line} {op : BinaryOp} {s t : Supply} {c : Code}
    (lowered : Yields (op.code line) s c t) : Enclosed s t c := by
  cases op with
  | add | sub | mul | div =>
    simp only [BinaryOp.code, yields_pure] at lowered
    obtain ⟨rfl, rfl⟩ := lowered
    exact .onLine (by simp; rfl) (by simp)
  | eq | le =>
    simp only [BinaryOp.code, yields_selectCode] at lowered
    obtain ⟨rfl, rfl⟩ := lowered
    exact .select line 1 0 rfl
  | ge =>
    simp only [BinaryOp.code, yields_bind, yields_pure, yields_selectCode] at lowered
    obtain ⟨_, _, ⟨rfl, rfl⟩, rfl, rfl⟩ := lowered
    refine .append (.onLine ?_ ?_) (.select line 1 0 rfl)
    · simp [Sequence.swap, Opcode.hasOperand, Opcode.isBranch]
    · simp [Sequence.swap]
  | and | or =>
    simp only [BinaryOp.code, yields_pure] at lowered
    obtain ⟨rfl, rfl⟩ := lowered
    exact .nil

def Unlabelled (code : List Symbolic) : Prop := ∀ i ∈ code, i.formed = true ∧ i.label? = none

namespace Unlabelled

theorem append {c d : List Symbolic} (first : Unlabelled c) (second : Unlabelled d) :
    Unlabelled (c ++ d) := by
  intro i mem
  rcases List.mem_append.mp mem with mem | mem
  · exact first i mem
  · exact second i mem

theorem flatten {codes : List (List Symbolic)} (each : ∀ c ∈ codes, Unlabelled c) :
    Unlabelled codes.flatten := by
  intro i mem
  obtain ⟨c, part, mem⟩ := List.mem_flatten.mp mem
  exact each c part i mem

theorem enclosed {code : List Symbolic} (free : Unlabelled code) (line : Line) {s : Supply} :
    Enclosed s s (onLine line code) :=
  .onLine (fun i mem => (free i mem).1) (fun i mem => (free i mem).2)

theorem single {op : Opcode} (bare : op.hasOperand = false) : Unlabelled [plain op] := by
  simp [Unlabelled, bare]

theorem loadOffset (offset : Word) : Unlabelled (Sequence.loadOffset offset) := by
  simp [Unlabelled, Sequence.loadOffset, Opcode.hasOperand, Opcode.isBranch]

theorem frame (g : Word) (u : Use) : Unlabelled (u.frame g) := by
  unfold Use.frame
  split
  · simp [Unlabelled]
  · simp [Unlabelled, Sequence.frameWalk, Opcode.hasOperand, Opcode.isBranch]

theorem heapBump : Unlabelled Sequence.heapBump := by
  simp [Unlabelled, Sequence.heapBump, Opcode.hasOperand, Opcode.isBranch]

theorem heapStore : Unlabelled Sequence.heapStore := by
  simp [Unlabelled, Sequence.heapStore, Sequence.heapBump, Opcode.hasOperand, Opcode.isBranch]

theorem callThrough {target : List Symbolic} (free : Unlabelled target) :
    Unlabelled (Sequence.callThrough target) := by
  refine (append ?_ free).append ?_
  · simp [Unlabelled, Sequence.callStart, Opcode.hasOperand, Opcode.isBranch]
  · simp [Unlabelled, Opcode.hasOperand, Opcode.isBranch]

theorem loadThrough (offset : Word) :
    Unlabelled (plain .loadW :: Sequence.loadOffset offset) := by
  simp [Unlabelled, Sequence.loadOffset, Opcode.hasOperand, Opcode.isBranch]

theorem callTarget (b : Binding) : Unlabelled (Expr.callTarget b) := by
  unfold Expr.callTarget
  split
  · exact loadThrough b.offset
  · exact loadOffset b.offset

theorem newTail (g : Word) (fields : Nat) (b : Binding) : Unlabelled (Expr.newTail g fields b) := by
  refine (append (flatten ?_) ?_).append heapBump
  · intro c mem
    rw [List.eq_of_mem_replicate mem]
    exact heapStore
  · simp [Unlabelled, Opcode.hasOperand, Opcode.isBranch]

end Unlabelled

namespace Expr

mutual

theorem enclosed {g : Word} :
    (e : Expr) → ∀ {s t : Supply} {c : Code}, Yields (e.code g) s c t → Enclosed s t c
  | .int _ _ => by
    intro lowered
    obtain ⟨rfl, rfl⟩ := yields_int.mp lowered
    exact .onLine (by simp) (by simp)
  | .bool _ _ => by
    intro lowered
    obtain ⟨rfl, rfl⟩ := yields_bool.mp lowered
    exact .onLine (by simp) (by simp)
  | .null _ => by
    intro lowered
    obtain ⟨rfl, rfl⟩ := yields_null.mp lowered
    exact .onLine (by simp) (by simp)
  | .id _ _ => by
    intro lowered
    obtain ⟨use, _, rfl, rfl⟩ := yields_id.mp lowered
    exact ((Unlabelled.frame g use).append (.loadOffset _)).enclosed _
  | .call _ _ args => by
    intro lowered
    obtain ⟨use, argCode, _, inner, rfl⟩ := yields_call.mp lowered
    have start : Unlabelled [plain .loadFp] := .single rfl
    refine ((start.enclosed _).append (enclosedBackward args inner)).append ?_
    exact ((Unlabelled.frame g use).append (.callThrough (.callTarget _))).enclosed _
  | .binary _ op lhs rhs => by
    intro lowered
    cases logical : op.isLogical with
    | true =>
      obtain ⟨left, right, u, first, second, rfl⟩ := (yields_logical logical).mp lowered
      exact .logical op _ _ (enclosed lhs first) (enclosed rhs second)
    | false =>
      obtain ⟨left, right, tail, u, v, first, second, third, rfl⟩ :=
        (yields_binary logical).mp lowered
      exact ((enclosed lhs first).append (enclosed rhs second)).append (enclosed_operator third)
  | .not _ operand => by
    intro lowered
    obtain ⟨operandCode, u, inner, rfl, rfl⟩ := yields_not.mp lowered
    exact ((enclosed operand inner).append (.onLine (by simp) (by simp))).append
      (.select _ 0 1 rfl)
  | .cond _ test yes no => by
    intro lowered
    obtain ⟨testCode, noCode, yesCode, u, v, first, second, third, rfl⟩ := yields_cond.mp lowered
    exact .cond test no (enclosed test first) (enclosed no second) (enclosed yes third)
  | .print _ operand => by
    intro lowered
    obtain ⟨operandCode, inner, rfl⟩ := yields_print.mp lowered
    have last : Unlabelled [plain .print] := .single rfl
    exact (enclosed operand inner).append (last.enclosed _)
  | .new _ _ args _ => by
    intro lowered
    obtain ⟨b, layout, argCode, _, _, inner, rfl⟩ := yields_new.mp lowered
    exact (enclosedForward args inner).append ((Unlabelled.newTail g _ b).enclosed _)
  | .send _ _ _ args _ => by
    intro lowered
    obtain ⟨b, use, argCode, _, _, inner, rfl⟩ := yields_send.mp lowered
    have start : Unlabelled [plain .loadFp] := .single rfl
    refine ((start.enclosed _).append (enclosedBackward args inner)).append ?_
    exact (((Unlabelled.frame g use).append (.loadOffset _)).append
      (.callThrough (.loadThrough _))).enclosed _
  | .get _ _ _ _ => by
    intro lowered
    obtain ⟨b, use, _, _, rfl, rfl⟩ := yields_get.mp lowered
    exact (((Unlabelled.frame g use).append (.loadOffset _)).append (.loadOffset _)).enclosed _

theorem enclosedForward {g : Word} :
    (args : List Expr) → ∀ {s t : Supply} {c : Code}, Yields (argsForward g args) s c t →
      Enclosed s t c
  | [] => by
    intro lowered
    obtain ⟨rfl, rfl⟩ := yields_argsForward_nil.mp lowered
    exact .nil
  | arg :: args => by
    intro lowered
    obtain ⟨head, tail, u, first, second, rfl⟩ := yields_argsForward_cons.mp lowered
    exact (enclosed arg first).append (enclosedForward args second)

theorem enclosedBackward {g : Word} :
    (args : List Expr) → ∀ {s t : Supply} {c : Code}, Yields (argsBackward g args) s c t →
      Enclosed s t c
  | [] => by
    intro lowered
    obtain ⟨rfl, rfl⟩ := yields_argsBackward_nil.mp lowered
    exact .nil
  | arg :: args => by
    intro lowered
    obtain ⟨head, tail, u, first, second, rfl⟩ := yields_argsBackward_cons.mp lowered
    exact (enclosedBackward args first).append (enclosed arg second)

end

end Expr

def Supply.Holds (s : Supply) (l : Label) : Prop :=
  ∃ name table, s.dispatch.find? name = some table ∧ l ∈ table

/-- What lowering a declaration from supply `s` to supply `t` says about the labels of its code.
Labels of dispatch tables made before may be referred to as well; the labels counted by `entries`
are marked here and were set aside before. -/
structure Labelled (s t : Supply) (entries : Label → Nat) (c : Code) : Prop where
  grows : s.next ≤ t.next
  formed : ∀ item ∈ c, item.formed = true
  once : ∀ l, c.markCount l ≤ entries l + l.within s.next t.next
  bound : ∀ l ∈ c.refs, l ∈ c.marks ∨ s.Holds l
  held : ∀ l, t.Holds l → l ∈ c.marks ∨ s.Holds l

theorem Enclosed.labelled {s t : Supply} {c : Code} (e : Enclosed s t c) :
    Labelled s t (fun _ => 0) c where
  grows := e.grows
  formed := e.formed
  once := by simpa using e.once
  bound := fun l mem => .inl (e.bound l mem)
  held := by
    rintro l ⟨name, table, found, mem⟩
    exact .inr ⟨name, table, e.dispatch ▸ found, mem⟩

namespace Labelled

variable {s t u : Supply} {c d : Code} {entries more : Label → Nat}

theorem append (first : Labelled s u entries c) (second : Labelled u t more d) :
    Labelled s t (fun l => entries l + more l) (c ++ d) where
  grows := Nat.le_trans first.grows second.grows
  formed := List.forall_mem_append.mpr ⟨first.formed, second.formed⟩
  once := by
    intro l
    have one := first.once l
    have two := second.once l
    have range := l.within_add first.grows second.grows
    rw [Code.markCount_append]
    omega
  bound := by
    intro l mem
    have lead := first.bound l
    have inherited := first.held l
    have own := second.bound l
    simp only [Code.refs_append, Code.marks_append, List.mem_append] at *
    grind
  held := by
    intro l mem
    have lead := first.held l
    have own := second.held l mem
    simp only [Code.marks_append, List.mem_append] at *
    grind

theorem weaken (l : Labelled s t entries c) (le : ∀ label, entries label ≤ more label) :
    Labelled s t more c where
  grows := l.grows
  formed := l.formed
  once := fun label => Nat.le_trans (l.once label) (Nat.add_le_add_right (le label) _)
  bound := l.bound
  held := l.held

/-- None of this depends on the order of the code. -/
theorem perm (l : Labelled s t entries c) (order : c.Perm d) : Labelled s t entries d where
  grows := l.grows
  formed := fun item mem => l.formed item (order.mem_iff.mpr mem)
  once := by
    intro label
    have same : d.markCount label = c.markCount label :=
      (order.filterMap Item.mark?).count_eq label |>.symm
    rw [same]
    exact l.once label
  bound := by
    intro label mem
    have refs := order.filterMap Item.ref?
    have marks := order.filterMap Item.mark?
    rcases l.bound label (refs.mem_iff.mpr mem) with marked | holds
    · exact .inl (marks.mem_iff.mp marked)
    · exact .inr holds
  held := by
    intro label holds
    have marks := order.filterMap Item.mark?
    rcases l.held label holds with marked | holds
    · exact .inl (marks.mem_iff.mp marked)
    · exact .inr holds

end Labelled

theorem mem_fillTable {l : Label} {table : List Label} {first : Nat} {methods : List Method}
    (mem : l ∈ fillTable table first methods) :
    l ∈ table ∨ ∃ i < methods.length, l = ⟨first + i⟩ := by
  induction methods generalizing table first with
  | nil => exact .inl mem
  | cons m methods ih =>
    rcases ih mem with mem | ⟨i, bound, rfl⟩
    · have slot : l ∈ table ∨ l = ⟨first⟩ := by
        unfold fillSlot at mem
        split at mem
        · split at mem
          · exact List.mem_or_eq_of_mem_set mem
          · simpa using mem
        · simpa using mem
      rcases slot with mem | rfl
      · exact .inl mem
      · exact .inr ⟨0, by simp, rfl⟩
    · exact .inr ⟨i + 1, by simp only [List.length_cons]; omega, by simp; omega⟩

theorem refs_tableCode (line : Line) (table : List Label) :
    Code.refs (onLine line (tableCode table)) = table := by
  have entry (l : Label) : (pushLabel l :: Sequence.heapStore).filterMap Symbolic.label? = [l] := rfl
  rw [Code.refs_onLine, tableCode, List.filterMap_cons_none (label?_plain _)]
  induction table with
  | nil => rfl
  | cons l table ih => rw [List.flatMap_cons, List.filterMap_append, entry, ih, List.singleton_append]

theorem formed_tableCode (table : List Label) : ∀ i ∈ tableCode table, i.formed = true := by
  intro i mem
  simp only [tableCode, List.mem_cons, List.mem_flatMap] at mem
  rcases mem with rfl | ⟨entry, _, rfl | mem⟩
  · rfl
  · rfl
  · exact (Unlabelled.heapStore i mem).1

def Fragment.all (f : Fragment) : Code := f.inline ++ f.bodies.flatten

namespace Labelled

variable {s t u : Supply} {bodies : List Code}

theorem mark (entry : Label) : Labelled s s (Label.entry entry.id) [.mark entry] where
  grows := by omega
  formed := by simp [Item.formed]
  once := by simp [Label.entry]
  bound := by simp
  held := fun _ holds => .inr holds

theorem routine {entry : Label} {r : Routine} {inner : Fragment} {result : Code}
    (declared : Labelled s u (fun _ => 0) inner.all) (computed : Enclosed u t result) :
    Labelled s t (Label.entry entry.id)
      (inner.bodies ++ [Decl.routineItems entry r inner.inline result]).flatten := by
  have start : Unlabelled Routine.prologue := by
    simp [Unlabelled, Routine.prologue, Opcode.hasOperand, Opcode.isBranch]
  have finish (params locals : Nat) : Unlabelled (Routine.epilogue params locals) := by
    simp only [Unlabelled, Routine.epilogue, List.mem_append, List.mem_cons, List.mem_replicate]
    rintro i (((((rfl | none) | ⟨_, rfl⟩) | rfl | rfl | none) | ⟨_, rfl⟩) | rfl | rfl | rfl | rfl | none)
    all_goals first | exact ⟨rfl, rfl⟩ | cases none
  have opening := (@mark s entry).append (start.enclosed r.line).labelled
  have closing := @Unlabelled.enclosed _ (finish r.params.length r.locals.length) r.body.endLine t
  have together := ((opening.append declared).append computed.labelled).append closing.labelled
  refine (together.weaken (by simp)).perm ?_
  rw [List.perm_iff_count]
  intro item
  simp only [Fragment.all, Decl.routineItems, List.flatten_append, List.flatten_singleton,
    List.count_append]
  omega

theorem fn {line : Line}
    (body : Labelled { s with next := s.next + 1 } t (Label.entry s.next) bodies.flatten)
    (marked : ⟨s.next⟩ ∈ Code.marks bodies.flatten) :
    Labelled s t (fun _ => 0) (Fragment.all ⟨onLine line [pushLabel ⟨s.next⟩], bodies⟩) where
  grows := by
    have := body.grows
    simp only at this
    omega
  formed := by
    intro item mem
    rcases List.mem_append.mp mem with mem | mem
    · exact (Code.forall_formed_onLine _ _).mpr (by simp) item mem
    · exact body.formed item mem
  once := by
    intro l
    have count := body.once l
    have low : s.next + 1 ≤ t.next := body.grows
    have range := l.entry_add low
    simp only [Fragment.all, Code.markCount_append, Code.markCount_onLine] at *
    omega
  bound := by
    intro l mem
    have own := body.bound l
    simp only [Fragment.all, Code.refs_append, Code.marks_append, List.mem_append,
      Code.refs_onLine, Code.marks_onLine] at *
    rcases mem with mem | mem
    · have : l = ⟨s.next⟩ := by simpa using mem
      exact .inl (.inr (this ▸ marked))
    · exact (own mem).imp .inr id
  held := by
    intro l holds
    have own := body.held l holds
    simp only [Fragment.all, Code.marks_append, List.mem_append] at *
    exact own.imp .inr id

theorem tableOf_bound {c : ClassDecl}
    (marked : ∀ i < c.methods.length, ⟨s.next + i⟩ ∈ Code.marks bodies.flatten) :
    ∀ l ∈ Decl.tableOf s c, l ∈ Code.marks bodies.flatten ∨ s.Holds l := by
  intro l mem
  rcases mem_fillTable mem with mem | ⟨i, bound, rfl⟩
  · right
    cases found : c.parent.bind s.dispatch.find? with
    | none => simp [found] at mem
    | some table =>
      obtain ⟨parent, _, known⟩ := Option.bind_eq_some_iff.mp found
      exact ⟨parent, table, known, by simpa [found] using mem⟩
  · exact .inl (marked i bound)

theorem methodSupply_held {c : ClassDecl}
    (marked : ∀ i < c.methods.length, ⟨s.next + i⟩ ∈ Code.marks bodies.flatten) :
    ∀ l, (Decl.methodSupply s c).Holds l → l ∈ Code.marks bodies.flatten ∨ s.Holds l := by
  rintro l ⟨other, labels, found, mem⟩
  rcases Table.find?_insert_eq_some.mp found with ⟨_, rfl⟩ | ⟨_, old⟩
  · exact tableOf_bound marked l mem
  · exact .inr ⟨other, labels, old, mem⟩

theorem cls {c : ClassDecl}
    (body : Labelled (Decl.methodSupply s c) t (Label.within s.next (s.next + c.methods.length))
      bodies.flatten)
    (marked : ∀ i < c.methods.length, ⟨s.next + i⟩ ∈ Code.marks bodies.flatten) :
    Labelled s t (fun _ => 0)
      (Fragment.all ⟨onLine c.line (tableCode (Decl.tableOf s c)), bodies⟩) where
  grows := by
    have := body.grows
    simp only [Decl.methodSupply] at this
    omega
  formed := by
    intro item mem
    rcases List.mem_append.mp mem with mem | mem
    · exact (Code.forall_formed_onLine _ _).mpr (formed_tableCode _) item mem
    · exact body.formed item mem
  once := by
    intro l
    have count := body.once l
    have low : s.next + c.methods.length ≤ t.next := body.grows
    have range := l.within_add (Nat.le_add_right s.next c.methods.length) low
    simp only [Fragment.all, Code.markCount_append, Code.markCount_onLine, Decl.methodSupply] at *
    omega
  bound := by
    intro l mem
    simp only [Fragment.all, Code.refs_append, Code.marks_append, List.mem_append,
      refs_tableCode] at *
    rcases mem with mem | mem
    · exact (tableOf_bound marked l mem).imp .inr id
    · rcases body.bound l mem with mem | held
      · exact .inl (.inr mem)
      · exact (methodSupply_held marked l held).imp .inr id
  held := by
    intro l held
    simp only [Fragment.all, Code.marks_append, List.mem_append] at *
    rcases body.held l held with mem | held
    · exact .inl (.inr mem)
    · exact (methodSupply_held marked l held).imp .inr id

end Labelled

namespace Decl

mutual

theorem labelled {g : Word} :
    (d : Decl) → ∀ {s t : Supply} {f : Fragment}, Yields (d.code g) s f t →
      Labelled s t (fun _ => 0) f.all
  | .var decl => by
    intro lowered
    obtain ⟨c, inner, rfl⟩ := yields_var.mp lowered
    simpa [Fragment.all] using (Expr.enclosed decl.init inner).labelled
  | .fn routine => by
    intro lowered
    obtain ⟨bodies, inner, rfl⟩ := yields_fn.mp lowered
    obtain ⟨body, marked⟩ := labelledRoutine routine inner
    exact .fn body marked
  | .cls ⟨line, name, parent, fields, methods, binding, parentBinding⟩ => by
    intro lowered
    obtain ⟨bodies, inner, rfl⟩ := yields_cls.mp lowered
    obtain ⟨body, marked⟩ := labelledMethods methods inner
    exact .cls body marked

theorem labelledRoutine {g : Word} {entry : Label} :
    (r : Routine) → ∀ {s t : Supply} {bodies : List Code},
      Yields (routineCode g entry r) s bodies t →
      Labelled s t (Label.entry entry.id) bodies.flatten ∧ entry ∈ Code.marks bodies.flatten
  | ⟨line, name, ret, params, locals, body⟩ => by
    intro lowered
    obtain ⟨inner, result, u, first, second, rfl⟩ := yields_routineCode.mp lowered
    refine ⟨.routine (labelledAll locals first) (Expr.enclosed body second), ?_⟩
    simp [routineItems]

theorem labelledMethods {g : Word} :
    (methods : List Method) → ∀ {first : Nat} {s t : Supply} {bodies : List Code},
      Yields (methodsCode g first methods) s bodies t →
      Labelled s t (Label.within first (first + methods.length)) bodies.flatten ∧
        ∀ i < methods.length, ⟨first + i⟩ ∈ Code.marks bodies.flatten
  | [] => by
    intro lowered
    obtain ⟨rfl, rfl⟩ := yields_methodsCode_nil.mp lowered
    exact ⟨Enclosed.nil.labelled.weaken (by simp), by simp⟩
  | ⟨routine, offset⟩ :: methods => by
    rename_i first _ _ _
    intro lowered
    obtain ⟨head, tail, u, one, others, rfl⟩ := yields_methodsCode_cons.mp lowered
    obtain ⟨body, marked⟩ := labelledRoutine routine one
    obtain ⟨rest, entries⟩ := labelledMethods methods others
    rw [List.flatten_append]
    refine ⟨(body.append rest).weaken ?_, ?_⟩
    · intro l
      have range := l.entry_add (show first < first + 1 + methods.length by omega)
      rw [List.length_cons, Nat.add_comm methods.length, ← Nat.add_assoc]
      exact Nat.le_of_eq range
    · intro i bound
      rw [Code.marks_append, List.mem_append]
      cases i with
      | zero => exact .inl marked
      | succ i =>
        right
        have := entries i (by simpa using bound)
        rwa [Nat.add_assoc, Nat.add_comm 1] at this

theorem labelledAll {g : Word} :
    (ds : List Decl) → ∀ {s t : Supply} {f : Fragment}, Yields (allCode g ds) s f t →
      Labelled s t (fun _ => 0) f.all
  | [] => by
    intro lowered
    obtain ⟨rfl, rfl⟩ := yields_allCode_nil.mp lowered
    exact Enclosed.nil.labelled
  | d :: ds => by
    intro lowered
    obtain ⟨head, tail, u, one, others, rfl⟩ := yields_allCode_cons.mp lowered
    refine ((labelled d one).append (labelledAll ds others)).perm ?_
    rw [List.perm_iff_count]
    intro item
    simp only [Fragment.all, List.flatten_append, List.count_append]
    omega

end

end Decl

end ObjectLang
