import ObjectLang.Proofs.Evaluation
import ObjectLang.Proofs.Machine.Sequences

/-!
Operators and code with branches on snapshots: arithmetic, comparisons, logical operators and
conditionals.
-/
namespace ObjectLang.Machine

open Symbolic

variable {m : Machine} {labels : Labels} {ip : Nat} {c : Snapshot} {u v w : Word}
  {rest : List Word} {line : Line}

@[simp] theorem width_push (w : Word) : (Symbolic.push w).op.width = 2 := rfl

@[simp] theorem width_onLine_nil : Code.width (onLine line []) = 0 := rfl

@[simp] theorem width_onLine_cons (i : Symbolic) (is : List Symbolic) :
    Code.width (onLine line (i :: is)) = i.op.width + Code.width (onLine line is) :=
  Code.width_instr i line _

@[simp] theorem at_onLine_nil : Code.At m.code labels ip (onLine line []) := trivial

@[simp] theorem at_onLine_cons {i : Symbolic} {is : List Symbolic} :
    Code.At m.code labels ip (onLine line (i :: is)) ↔
      i.At m.code labels ip ∧ Code.At m.code labels (ip + i.op.width) (onLine line is) :=
  Iff.rfl

@[simp] theorem at_onLine_append {is js : List Symbolic} :
    Code.At m.code labels ip (onLine line (is ++ js)) ↔
      Code.At m.code labels ip (onLine line is) ∧
        Code.At m.code labels (ip + Code.width (onLine line is)) (onLine line js) := by
  rw [onLine, List.map_append]
  exact Code.at_append

@[simp] theorem width_onLine_append (is js : List Symbolic) :
    Code.width (onLine line (is ++ js)) =
      Code.width (onLine line is) + Code.width (onLine line js) := by
  rw [onLine, List.map_append]
  exact Code.width_append _ _

section

variable (linked : m.Linked labels)

include linked

theorem advances_push (stands : (Symbolic.push w).At m.code labels ip) :
    m.Advances (ip, c) (ip + 2, { c with stack := w :: c.stack }) :=
  effect_push linked w ip stands

theorem goes_select {op : Opcode} {taken otherwise : Word} {yes done : Label} {test : Prop}
    [Decidable test] (wide : op.width = 2)
    (stands : Code.At m.code labels ip (selectItems line op taken otherwise yes done))
    (decides : ∀ target, (branch op yes).At m.code labels ip →
      labels.address? yes = some target →
      m.Advances (ip, c) (if test then target else ip + 2, { c with stack := rest })) :
    m.Goes (ip, c) (ip + Code.width (selectItems line op taken otherwise yes done),
      { c with stack := (if test then taken else otherwise) :: rest }) := by
  have wide' : (branch op yes).op.width = 2 := wide
  have jumps : (branch .branch done).op.width = 2 := rfl
  simp only [selectItems, Code.at_append, Code.at_mark, Code.at_nil, at_onLine_cons, at_onLine_nil,
    width_onLine_cons, width_onLine_nil, Code.width_append, Code.width_mark, Code.width_nil, wide',
    jumps, width_push, and_true] at stands ⊢
  obtain ⟨⟨⟨⟨branches, pushes, leaves⟩, here⟩, pushes'⟩, there⟩ := stands
  have first := decides _ branches here
  by_cases holds : test
  · rw [if_pos holds] at first ⊢
    have second := @advances_push m labels _ { c with stack := rest } taken linked pushes'
    exact .head first (.head second .refl)
  · rw [if_neg holds] at first ⊢
    have second := @advances_push m labels _ { c with stack := rest } otherwise linked pushes
    have third := @advances_branch m labels _ { c with stack := otherwise :: rest } linked _ _
      leaves there
    exact .head first (.head second (.head third .refl))

theorem goes_operator {op : BinaryOp} {s t : Supply} {tail : Code} {value : Word}
    (lowered : Lower.Yields (op.code line) s tail t) (stands : Code.At m.code labels ip tail)
    (top : c.stack = v :: u :: rest) (computes : op.apply u v = some value) :
    ∃ ra tm, m.Goes (ip, c)
      (ip + Code.width tail, { c with stack := value :: rest, ra := ra, tm := tm }) := by
  cases op with
  | and | or => cases computes
  | add =>
    obtain ⟨rfl, _⟩ := Lower.yields_pure.mp lowered
    cases computes
    exact ⟨c.ra, c.tm, (Effects.cons (effect_add linked top) .nil).goes stands⟩
  | sub =>
    obtain ⟨rfl, _⟩ := Lower.yields_pure.mp lowered
    cases computes
    exact ⟨c.ra, c.tm, (Effects.cons (effect_sub linked top) .nil).goes stands⟩
  | mul =>
    obtain ⟨rfl, _⟩ := Lower.yields_pure.mp lowered
    cases computes
    exact ⟨c.ra, c.tm, (Effects.cons (effect_mult linked top) .nil).goes stands⟩
  | div =>
    obtain ⟨rfl, _⟩ := Lower.yields_pure.mp lowered
    by_cases zero : v = 0
    · simp [BinaryOp.apply, zero] at computes
    · rw [BinaryOp.apply, if_neg zero, Option.some.injEq] at computes
      subst computes
      exact ⟨c.ra, c.tm, (Effects.cons (effect_div linked top zero) .nil).goes stands⟩
  | eq =>
    obtain ⟨rfl, _⟩ := yields_selectCode.mp lowered
    cases computes
    exact ⟨c.ra, c.tm, goes_select linked rfl stands fun target branches here =>
      advances_branchEq linked branches here top⟩
  | le =>
    obtain ⟨rfl, _⟩ := yields_selectCode.mp lowered
    cases computes
    exact ⟨c.ra, c.tm, goes_select linked rfl stands fun target branches here =>
      advances_branchLessEq linked branches here top⟩
  | ge =>
    simp only [BinaryOp.code, Lower.yields_bind, Lower.yields_pure, yields_selectCode] at lowered
    obtain ⟨_, _, ⟨rfl, _⟩, rfl, _⟩ := lowered
    cases computes
    obtain ⟨swaps, selects⟩ := Code.at_append.mp stands
    have first := (effects_swap linked top).goes swaps
    have second := @goes_select m labels _ { c with stack := u :: v :: rest, tm := v, ra := u } rest
      line linked .branchLessEq 1 0 _ _ (v ≤ u) _ rfl selects fun target branches here =>
      advances_branchLessEq linked branches here rfl
    rw [Nat.add_assoc, ← Code.width_append] at second
    exact ⟨u, v, first.trans second⟩

theorem stops_operator {op : BinaryOp} {s t : Supply} {tail : Code} (strict : op.isLogical = false)
    (lowered : Lower.Yields (op.code line) s tail t) (stands : Code.At m.code labels ip tail)
    (top : c.stack = v :: u :: rest) (fails : op.apply u v = none) :
    m.Breaks (ip, c) (fun fault => ∃ ip, fault = .divisionByZero ip) := by
  cases op with
  | and | or => cases strict
  | div =>
    obtain ⟨rfl, _⟩ := Lower.yields_pure.mp lowered
    by_cases zero : v = 0
    · subst zero
      refine ⟨(ip, c), .refl, ?_⟩
      intro s shows
      obtain ⟨fault, s', run, reason⟩ := stops_div linked stands.1 top s shows
      exact ⟨fault, s', run, reason.imp_left fun same => ⟨ip, same⟩⟩
    · simp [BinaryOp.apply, zero] at fails
  | _ => cases fails

end

section

variable (linked : m.Linked labels)

include linked

theorem goes_test {value : Word} {l : Label} {target : Nat}
    (pushes : (Symbolic.push value).At m.code labels ip)
    (branches : (branch .branchEq l).At m.code labels (ip + 2))
    (here : labels.address? l = some target) (top : c.stack = u :: rest) :
    m.Goes (ip, c) (if u = value then target else ip + 4, { c with stack := rest }) := by
  have first := @advances_push m labels _ c value linked pushes
  have second := @advances_branchEq m labels _ { c with stack := value :: c.stack } value u rest
    linked l _ branches here (by simp only [top])
  exact .head first (.head second .refl)

theorem goes_logical_left {op : BinaryOp} {leftLine rightLine : Line} {left right : Code}
    {decided done : Label}
    (stands : Code.At m.code labels ip
      (Expr.logicalItems op leftLine rightLine left right decided done))
    (top : c.stack = u :: rest) :
    m.Goes (ip + left.width, c)
      (if u = op.deciding then
        (ip + Code.width (Expr.logicalItems op leftLine rightLine left right decided done),
          { c with stack := op.deciding :: rest })
      else (ip + left.width + 4, { c with stack := rest })) := by
  have jumps : (branch .branchEq decided).op.width = 2 := rfl
  have leaves : (branch .branch done).op.width = 2 := rfl
  simp only [Expr.logicalItems, Code.at_append, Code.at_mark, Code.at_nil, at_onLine_cons,
    at_onLine_nil, width_onLine_cons, width_onLine_nil, Code.width_append, Code.width_mark,
    Code.width_nil, jumps, leaves, width_push, and_true, Nat.add_zero] at stands ⊢
  obtain ⟨⟨⟨⟨⟨⟨_, pushes, branches⟩, _⟩, _⟩, here⟩, pushes'⟩, _⟩ := stands
  have both := goes_test linked pushes branches here top
  by_cases same : u = op.deciding
  · rw [if_pos same] at both ⊢
    have third := @advances_push m labels _ { c with stack := rest } op.deciding linked pushes'
    have all : m.Goes _ _ := both.tail third
    simpa only [Nat.add_assoc, Nat.reduceAdd] using all
  · rw [if_neg same] at both ⊢
    exact both

theorem goes_logical_right {op : BinaryOp} {leftLine rightLine : Line} {left right : Code}
    {decided done : Label}
    (stands : Code.At m.code labels ip
      (Expr.logicalItems op leftLine rightLine left right decided done))
    (top : c.stack = u :: rest) :
    m.Goes (ip + left.width + 4 + right.width, c)
      (ip + Code.width (Expr.logicalItems op leftLine rightLine left right decided done),
        { c with stack := (if u = op.deciding then op.deciding else 1 - op.deciding) :: rest }) := by
  have jumps : (branch .branchEq decided).op.width = 2 := rfl
  have leaves : (branch .branch done).op.width = 2 := rfl
  simp only [Expr.logicalItems, Code.at_append, Code.at_mark, Code.at_nil, at_onLine_cons,
    at_onLine_nil, width_onLine_cons, width_onLine_nil, Code.width_append, Code.width_mark,
    Code.width_nil, jumps, leaves, width_push, and_true, Nat.add_zero] at stands ⊢
  obtain ⟨⟨⟨⟨_, pushes, branches, other, out⟩, here⟩, pushes'⟩, there⟩ := stands
  simp only [Nat.add_assoc, Nat.reduceAdd] at pushes branches other out here pushes' there ⊢
  have both := goes_test linked pushes
    (by simpa only [Nat.add_assoc, Nat.reduceAdd] using branches) here top
  by_cases same : u = op.deciding
  · rw [if_pos same] at both ⊢
    have third := @advances_push m labels _ { c with stack := rest } op.deciding linked pushes'
    have all : m.Goes _ _ := both.tail third
    simpa only [Nat.add_assoc, Nat.reduceAdd] using all
  · rw [if_neg same] at both ⊢
    simp only [Nat.add_assoc] at both
    have third := @advances_push m labels _ { c with stack := rest } (1 - op.deciding) linked other
    have fourth := @advances_branch m labels _ { c with stack := (1 - op.deciding) :: rest } linked
      done _ out there
    simp only [Nat.add_assoc, Nat.reduceAdd] at third
    exact (both.tail third).tail fourth

end

theorem width_cond {test no : Expr} {testCode noCode yesCode : Code} {taken done : Label} :
    Code.width (Expr.condItems test no testCode noCode yesCode taken done) =
      testCode.width + 4 + noCode.width + 2 + yesCode.width := by
  simp only [Expr.condItems, Code.width_append, width_onLine_cons, width_onLine_nil,
    Code.width_mark, Code.width_nil]
  rfl

section

variable (linked : m.Linked labels)

include linked

theorem goes_cond_test {test no : Expr} {testCode noCode yesCode : Code} {taken done : Label}
    (stands : Code.At m.code labels ip
      (Expr.condItems test no testCode noCode yesCode taken done))
    (top : c.stack = u :: rest) :
    m.Goes (ip + testCode.width, c)
      (if u = 1 then ip + testCode.width + 4 + noCode.width + 2 else ip + testCode.width + 4,
        { c with stack := rest }) := by
  have jumps : (branch .branchEq taken).op.width = 2 := rfl
  have leaves : (branch .branch done).op.width = 2 := rfl
  simp only [Expr.condItems, Code.at_append, Code.at_mark, Code.at_nil, at_onLine_cons,
    at_onLine_nil, width_onLine_cons, width_onLine_nil, Code.width_append, Code.width_mark,
    Code.width_nil, jumps, leaves, width_push, and_true, Nat.add_zero, Nat.add_assoc,
    Nat.reduceAdd] at stands ⊢
  obtain ⟨⟨⟨⟨⟨⟨_, pushes, branches⟩, _⟩, _⟩, here⟩, _⟩, _⟩ := stands
  have goes := goes_test linked pushes branches here top
  simp only [Nat.add_assoc] at goes
  exact goes

theorem goes_cond_no {test no : Expr} {testCode noCode yesCode : Code} {taken done : Label}
    (stands : Code.At m.code labels ip
      (Expr.condItems test no testCode noCode yesCode taken done)) :
    m.Goes (ip + testCode.width + 4 + noCode.width, c)
      (ip + Code.width (Expr.condItems test no testCode noCode yesCode taken done), c) := by
  have jumps : (branch .branchEq taken).op.width = 2 := rfl
  have leaves : (branch .branch done).op.width = 2 := rfl
  simp only [Expr.condItems, Code.at_append, Code.at_mark, Code.at_nil, at_onLine_cons,
    at_onLine_nil, width_onLine_cons, width_onLine_nil, Code.width_append, Code.width_mark,
    Code.width_nil, jumps, leaves, width_push, and_true, Nat.add_zero, Nat.add_assoc,
    Nat.reduceAdd] at stands ⊢
  obtain ⟨⟨⟨⟨_, out⟩, _⟩, _⟩, there⟩ := stands
  exact .single (advances_branch linked out there)

theorem index?_return {target : List Symbolic}
    (stands : Code.At m.code labels ip (onLine line (Sequence.callThrough target))) :
    Word.index? (Int32.ofNat (ip + Code.width (onLine line (Sequence.callThrough target)))) =
      some (ip + Code.width (onLine line (Sequence.callThrough target))) := by
  apply Word.index?_ofNat
  rw [Sequence.callThrough, at_onLine_append] at stands
  obtain ⟨found, _⟩ := stands.2.1
  obtain ⟨inside, _⟩ := Array.getElem?_eq_some_iff.mp found
  have size := linked.code
  rw [Sequence.callThrough, width_onLine_append, width_onLine_cons, width_onLine_nil]
  have one : (plain .js).op.width = 1 := rfl
  omega

theorem breaks_loadOffset {address offset : Word}
    (stands : Code.At m.code labels ip (onLine line (Sequence.loadOffset offset)))
    (top : c.stack = address :: rest) (negative : (address + offset).toInt < 0) :
    m.Breaks (ip, c) fun fault => ∃ ip, fault = .memoryOutOfBounds (address + offset) ip := by
  have split : Sequence.loadOffset offset =
      [Symbolic.push offset, plain .add] ++ [plain .loadW] := rfl
  rw [split, at_onLine_append] at stands
  have sum : Effects m labels [Symbolic.push offset, plain .add] c
      { c with stack := (address + offset) :: rest } :=
    .cons (effect_push linked offset) (.cons (effect_add linked (by rw [top])) .nil)
  exact ⟨_, sum.goes stands.1, stops_loadW linked stands.2.1 rfl negative⟩

theorem breaks_dispatch {target : List Symbolic}
    (stands : Code.At m.code labels ip
      (onLine line (Sequence.callThrough (plain .loadW :: target))))
    (top : c.stack = -1 :: rest) :
    m.Breaks (ip, c) fun fault => ∃ ip, fault = .memoryOutOfBounds (-1) ip := by
  have split : Sequence.callThrough (plain .loadW :: target) =
      Sequence.callStart ++ ([plain .loadW] ++ (target ++ [plain .js])) := by
    simp [Sequence.callThrough]
  rw [split, at_onLine_append, at_onLine_append] at stands
  exact ⟨_, (effects_callStart linked top).goes stands.1,
    stops_loadW linked stands.2.1.1 rfl (by decide)⟩

end

end ObjectLang.Machine
