import ObjectLang.Proofs.Code.Heights

/-!
The code of expressions. It raises the stack by one word along every way through it and never sinks
below the height it starts from, and so does the code of every expression inside, each on a stretch
of its own.
-/
namespace ObjectLang

open Symbolic Lower

namespace Expr

def operands : Expr → List Expr
  | .call _ _ args | .send _ _ _ args _ => args.reverse
  | .new _ _ args _ => args
  | .binary _ _ lhs rhs => [lhs, rhs]
  | .not _ operand | .print _ operand => [operand]
  | .cond _ test yes no => [test, no, yes]
  | .int _ _ | .bool _ _ | .null _ | .id _ _ | .get _ _ _ _ => []

def callArity? : Expr → Option Nat
  | .call _ _ args | .send _ _ _ args _ => some args.length
  | _ => none

variable (g : Word) (labels : Labels)

mutual

/-- The rows `R` are the code `c` of the expression from station `p` on, with station `q` after
them. Control comes in at `p`, stays on the rows and comes out at `q`, one word higher; it sinks
nowhere below `p`. The same holds of the expressions inside. -/
inductive Stands : Expr → Code → Station → List Row → Station → Prop
  | intro {e c p R q s t} (lowered : Yields (e.code g) s c t)
      (piece : Piece labels (Row.stations R q) (Row.Inner p.height) c p q R)
      (rises : q.height = p.height + 1) (tiled : Tiled e.operands e.callArity? R q) :
      Stands e c p R q

/-- Stretches of the rows are the codes of the expressions, one after the other. The rows between
them neither call nor return, except that a call ends with a `js` that has its arity. -/
inductive Tiled : List Expr → Option Nat → List Row → Station → Prop
  | own {R q} (plain : ∀ r ∈ R, r.instr.op ≠ .js) : Tiled [] none R q
  | call {R q js n} (plain : ∀ r ∈ R, r.instr.op ≠ .js) (ends : js.instr.op = .js)
      (args : js.args = some n) : Tiled [] (some n) (R ++ [js]) q
  | part {own e es arity c p R rest q} (plain : ∀ r ∈ own, r.instr.op ≠ .js)
      (stands : Stands e c p R (Row.first q rest)) (tiled : Tiled es arity rest q) :
      Tiled (e :: es) arity (own ++ R ++ rest) q

end

variable {g labels} {e : Expr} {es fs : List Expr} {arity : Option Nat} {c : Code}
  {p q : Station} {R S : List Row}

theorem Stands.piece (stands : Stands g labels e c p R q) :
    Piece labels (Row.stations R q) (Row.Inner p.height) c p q R := by
  cases stands with
  | intro _ piece _ _ => exact piece

theorem Stands.rises (stands : Stands g labels e c p R q) : q.height = p.height + 1 := by
  cases stands with
  | intro _ _ rises _ => exact rises

theorem Stands.tile (stands : Stands g labels e c p R q) : Tiled g labels [e] none R q := by
  have alone : Tiled g labels [e] none ([] ++ R ++ []) q :=
    .part (by simp) stands (.own (by simp))
  simpa using alone

theorem Tiled.after (plain : ∀ r ∈ R, r.instr.op ≠ .js) (tiled : Tiled g labels es arity S q) :
    Tiled g labels es arity (R ++ S) q := by
  cases tiled with
  | own more => exact .own (List.forall_mem_append.mpr ⟨plain, more⟩)
  | call more ends args =>
    rw [← List.append_assoc]
    exact .call (List.forall_mem_append.mpr ⟨plain, more⟩) ends args
  | part more stands rest =>
    rw [← List.append_assoc, ← List.append_assoc]
    exact .part (List.forall_mem_append.mpr ⟨plain, more⟩) stands rest

theorem Tiled.append (one : Tiled g labels es none R (Row.first q S))
    (two : Tiled g labels fs arity S q) : Tiled g labels (es ++ fs) arity (R ++ S) q := by
  induction es generalizing R with
  | nil =>
    cases one with
    | own plain => exact two.after plain
  | cons e es ih =>
    cases one with
    | part plain stands rest =>
      rw [← Row.first_append] at stands
      rw [List.append_assoc]
      exact .part plain stands (ih rest)

theorem Tiled.before (tiled : Tiled g labels es none R p) (start : Row.first q S = p)
    (plain : ∀ r ∈ S, r.instr.op ≠ .js) : Tiled g labels es none (R ++ S) q := by
  subst start
  have longer := tiled.append (Tiled.own plain)
  rwa [List.append_nil] at longer

theorem Stands.within {whole : List Station} {low : Int} (stands : Stands g labels e c p R q)
    (rows : ∀ r ∈ R, r.toStation ∈ whole) (last : q ∈ whole) (above : low ≤ p.height) :
    Piece labels whole (Row.Inner low) c p q R :=
  (stands.piece.mono (Row.stations_subset rows last)).weaken fun _ inner => inner.mono above

variable (g labels)

structure Covers (es : List Expr) (arity : Option Nat) (low : Int) (c : Code) (p : Station)
    (R : List Row) (q : Station) : Prop where
  piece : Piece labels (Row.stations R q) (Row.Inner low) c p q R
  tiled : Tiled g labels es arity R q

variable {g labels} {low : Int} {d : Code} {r : Station}

theorem covers_own (piece : Piece labels (Row.stations R q) (Row.Own low) c p q R) :
    Covers g labels [] none low c p R q :=
  ⟨piece.weaken fun _ own => own.1, .own fun r mem => (piece.each r mem).2⟩

theorem covers_straight {code : List Symbolic} (straight : Straight low p.height code)
    (line : Line) :
    Covers g labels [] none low (onLine line code) p (Row.run labels p code) (p.past code) :=
  covers_own (.straight straight line)

theorem covers_plain {op : Opcode} (ordinary : op.isOrdinary = true) (above : low ≤ p.height)
    (line : Line) :
    Covers g labels [] none low (onLine line [plain op]) p (Row.run labels p [plain op])
      (p.past [plain op]) :=
  have straight : Straight low p.height [plain op] := ⟨above, ordinary, trivial⟩
  covers_straight straight line

theorem Stands.covers (stands : Stands g labels e c p R q) (above : low ≤ p.height) :
    Covers g labels [e] none low c p R q :=
  ⟨stands.piece.weaken fun _ inner => inner.mono above, stands.tile⟩

theorem Covers.append (one : Covers g labels es none low c p R q)
    (two : Covers g labels fs arity low d q S r) :
    Covers g labels (es ++ fs) arity low (c ++ d) p (R ++ S) r := by
  obtain ⟨piece, tiled⟩ := one
  refine ⟨piece.join two.piece, ?_⟩
  rw [← two.piece.start] at tiled
  exact tiled.append two.tiled

theorem covers_js {line : Line} (n : Nat) (above : low ≤ p.height) :
    Covers g labels [] (some n) low (onLine line [plain .js]) p [Row.call labels p n]
      ⟨p.address + 1, p.height - (n + 2)⟩ := by
  refine ⟨.call n ⟨above, rfl⟩, ?_⟩
  have last : Tiled g labels [] (some n) ([] ++ [Row.call labels p n])
      ⟨p.address + 1, p.height - (n + 2)⟩ := .call (by simp) rfl rfl
  exact last

theorem Covers.stands {s t : Supply} (covers : Covers g labels es arity p.height c p R q)
    (lowered : Yields (e.code g) s c t) (parts : e.operands = es) (calls : e.callArity? = arity)
    (rises : q.height = p.height + 1) : Stands g labels e c p R q :=
  .intro lowered covers.piece rises (by rw [parts, calls]; exact covers.tiled)

end Expr

namespace Row

def select (labels : Labels) (p : Station) (op : Opcode) (taken otherwise : Word)
    (yes done : Label) : List Row :=
  [of labels p (branch op yes), of labels ⟨p.address + 2, p.height - 2⟩ (push otherwise),
    of labels ⟨p.address + 4, p.height - 1⟩ (branch .branch done),
    of labels ⟨p.address + 6, p.height - 2⟩ (push taken)]

def logical (labels : Labels) (op : BinaryOp) (left right : List Row) (p q : Station)
    (decided done : Label) : List Row :=
  left ++ [of labels p (push op.deciding),
      of labels ⟨p.address + 2, p.height + 1⟩ (branch .branchEq decided)] ++
    right ++ [of labels q (push op.deciding),
      of labels ⟨q.address + 2, q.height + 1⟩ (branch .branchEq decided),
      of labels ⟨q.address + 4, q.height - 1⟩ (push (1 - op.deciding)),
      of labels ⟨q.address + 6, q.height⟩ (branch .branch done)] ++
    [of labels ⟨q.address + 8, q.height - 1⟩ (push op.deciding)]

def cond (labels : Labels) (test no yes : List Row) (p q : Station) (taken done : Label) :
    List Row :=
  test ++
    [of labels p (push 1), of labels ⟨p.address + 2, p.height + 1⟩ (branch .branchEq taken)] ++
    no ++ [of labels q (branch .branch done)] ++ yes

end Row

namespace Piece

variable {labels : Labels} {whole : List Station} {low : Int} {p q q' : Station} {line : Line}

theorem select {op : Opcode} {taken otherwise : Word} {yes done : Label}
    (branches : op.isBranch = true) (effect : op.effect = -2) (above : low + 2 ≤ p.height)
    (yesAt : labels.address? yes = some (p.address + 6))
    (doneAt : labels.address? done = some (p.address + 8))
    (toYes : ⟨p.address + 6, p.height - 2⟩ ∈ whole)
    (toDone : ⟨p.address + 8, p.height - 1⟩ ∈ whole) :
    Piece labels whole (Row.Own low) (selectItems line op taken otherwise yes done) p
      ⟨p.address + 8, p.height - 1⟩ (Row.select labels p op taken otherwise yes done) := by
  have one : Piece labels whole (Row.Own low) [.instr (branch op yes) line] p
      ⟨p.address + 2, p.height - 2⟩ [Row.of labels p (branch op yes)] :=
    .branchIf branches effect (by omega) yesAt toYes rfl rfl
  have two : Piece labels whole (Row.Own low) [.instr (Symbolic.push otherwise) line]
      ⟨p.address + 2, p.height - 2⟩ ⟨p.address + 4, p.height - 1⟩ _ :=
    .push (by simp; omega) rfl (by simp; omega)
  have three : Piece labels whole (Row.Own low) [.instr (branch .branch done) line]
      ⟨p.address + 4, p.height - 1⟩ ⟨p.address + 6, p.height - 2⟩ _ :=
    .jump (by simp; omega) doneAt toDone rfl
  have four : Piece labels whole (Row.Own low) [.instr (Symbolic.push taken) line]
      ⟨p.address + 6, p.height - 2⟩ ⟨p.address + 8, p.height - 1⟩ _ :=
    .push (by simp; omega) rfl (by simp; omega)
  exact ((((one.append two).append three).marked yes).append four).marked done

theorem logical {op : BinaryOp} {leftLine rightLine : Line} {left right : Code}
    {decided done : Label} {L R : List Row} {start : Station}
    (one : Piece labels whole (Row.Inner low) left start p L)
    (two : Piece labels whole (Row.Inner low) right ⟨p.address + 4, p.height - 1⟩ q R)
    (level : q.height = p.height) (above : low + 1 ≤ p.height)
    (decidedAt : labels.address? decided = some (q.address + 8))
    (doneAt : labels.address? done = some (q.address + 10))
    (toDecided : ⟨q.address + 8, q.height - 1⟩ ∈ whole)
    (toDone : ⟨q.address + 10, q.height⟩ ∈ whole) :
    Piece labels whole (Row.Inner low)
      (Expr.logicalItems op leftLine rightLine left right decided done) start
      ⟨q.address + 10, q.height⟩ (Row.logical labels op L R p q decided done) := by
  have inner {c : Code} {p q : Station} {R : List Row}
      (piece : Piece labels whole (Row.Own low) c p q R) :
      Piece labels whole (Row.Inner low) c p q R := piece.weaken fun _ own => own.1
  have pushLeft : Piece labels whole (Row.Own low) [.instr (Symbolic.push op.deciding) leftLine] p
      ⟨p.address + 2, p.height + 1⟩ _ := .push (by omega) rfl rfl
  have testLeft : Piece labels whole (Row.Own low) [.instr (branch .branchEq decided) leftLine]
      ⟨p.address + 2, p.height + 1⟩ ⟨p.address + 4, p.height - 1⟩ _ :=
    .branchIf rfl rfl (by simp; omega) decidedAt (level ▸ toDecided) rfl (by simp; omega)
  have pushRight : Piece labels whole (Row.Own low)
      [.instr (Symbolic.push op.deciding) rightLine] q ⟨q.address + 2, q.height + 1⟩ _ :=
    .push (by omega) rfl rfl
  have testRight : Piece labels whole (Row.Own low) [.instr (branch .branchEq decided) rightLine]
      ⟨q.address + 2, q.height + 1⟩ ⟨q.address + 4, q.height - 1⟩ _ :=
    .branchIf rfl rfl (by simp; omega) decidedAt toDecided rfl (by simp; omega)
  have pushOther : Piece labels whole (Row.Own low)
      [.instr (Symbolic.push (1 - op.deciding)) rightLine] ⟨q.address + 4, q.height - 1⟩
      ⟨q.address + 6, q.height⟩ _ := .push (by simp; omega) rfl (by simp)
  have skip : Piece labels whole (Row.Own low) [.instr (branch .branch done) rightLine]
      ⟨q.address + 6, q.height⟩ ⟨q.address + 8, q.height - 1⟩ _ :=
    .jump (by simp; omega) doneAt toDone rfl
  have pushDecided : Piece labels whole (Row.Own low)
      [.instr (Symbolic.push op.deciding) rightLine] ⟨q.address + 8, q.height - 1⟩
      ⟨q.address + 10, q.height⟩ _ := .push (by simp; omega) rfl (by simp)
  exact (((((one.append (inner (pushLeft.append testLeft))).append two).append
    (inner (((pushRight.append testRight).append pushOther).append skip))).marked
    decided).append (inner pushDecided)).marked done

theorem cond {test no : Expr} {testCode noCode yesCode : Code} {taken done : Label}
    {T N Y : List Row} {start : Station}
    (one : Piece labels whole (Row.Inner low) testCode start p T)
    (two : Piece labels whole (Row.Inner low) noCode ⟨p.address + 4, p.height - 1⟩ q N)
    (three : Piece labels whole (Row.Inner low) yesCode ⟨q.address + 2, q.height - 1⟩ q' Y)
    (level : q.height = p.height) (level' : q'.height = q.height) (above : low + 1 ≤ p.height)
    (takenAt : labels.address? taken = some (q.address + 2))
    (doneAt : labels.address? done = some q'.address)
    (toTaken : ⟨q.address + 2, q.height - 1⟩ ∈ whole) (toDone : q' ∈ whole) :
    Piece labels whole (Row.Inner low)
      (Expr.condItems test no testCode noCode yesCode taken done) start q'
      (Row.cond labels T N Y p q taken done) := by
  have inner {c : Code} {p q : Station} {R : List Row}
      (piece : Piece labels whole (Row.Own low) c p q R) :
      Piece labels whole (Row.Inner low) c p q R := piece.weaken fun _ own => own.1
  have pushOne : Piece labels whole (Row.Own low) [.instr (Symbolic.push 1) test.endLine] p
      ⟨p.address + 2, p.height + 1⟩ _ := .push (by omega) rfl rfl
  have choose : Piece labels whole (Row.Own low) [.instr (branch .branchEq taken) test.endLine]
      ⟨p.address + 2, p.height + 1⟩ ⟨p.address + 4, p.height - 1⟩ _ :=
    .branchIf rfl rfl (by simp; omega) takenAt (level ▸ toTaken) rfl (by simp; omega)
  have skip : Piece labels whole (Row.Own low) [.instr (branch .branch done) no.endLine] q
      ⟨q.address + 2, q.height - 1⟩ _ :=
    .jump (by omega) doneAt (level' ▸ toDone) rfl
  exact (((((one.append (inner (pushOne.append choose))).append two).append
    (inner skip)).marked taken).append three).marked done

end Piece

namespace Expr

variable {g : Word} {words : Array Word} {labels : Labels} {low : Int} {p : Station} {c : Code}
  {s t : Supply}

theorem covers_select {line : Line} {op : Opcode} {taken otherwise : Word} {yes done : Label}
    (branches : op.isBranch = true) (effect : op.effect = -2) (above : low + 2 ≤ p.height)
    (placed : Code.At words labels p.address (selectItems line op taken otherwise yes done)) :
    Covers g labels [] none low (selectItems line op taken otherwise yes done) p
      (Row.select labels p op taken otherwise yes done) ⟨p.address + 8, p.height - 1⟩ := by
  have before :
      Code.width (onLine line [branch op yes, push otherwise, branch .branch done]) = 6 := by
    show op.width + 4 = 6
    rw [Row.width_branch branches]
  have between : Code.width (onLine line [push taken]) = 2 := rfl
  simp only [selectItems, Code.at_append, Code.at_mark, Code.at_nil, Code.width_append,
    Code.width_mark, Code.width_nil, before, between, and_true, Nat.add_zero] at placed
  obtain ⟨⟨⟨_, yesAt⟩, _⟩, doneAt⟩ := placed
  refine covers_own (.select branches effect above yesAt doneAt ?_ (Row.last_mem _ _))
  simp [Row.stations, Row.select, Row.of]

theorem covers_operator {line : Line} {op : BinaryOp} (strict : op.isLogical = false)
    (lowered : Yields (op.code line) s c t) (above : low + 2 ≤ p.height)
    (placed : Code.At words labels p.address c) :
    ∃ R q, Covers g labels [] none low c p R q ∧ q.height = p.height - 1 := by
  cases op with
  | add | sub | mul | div =>
    simp only [BinaryOp.code, yields_pure] at lowered
    obtain ⟨rfl, rfl⟩ := lowered
    exact ⟨_, _, covers_plain rfl (by omega) line, rfl⟩
  | eq | le =>
    simp only [BinaryOp.code, yields_selectCode] at lowered
    obtain ⟨rfl, rfl⟩ := lowered
    exact ⟨_, _, covers_select rfl rfl above placed, rfl⟩
  | ge =>
    simp only [BinaryOp.code, yields_bind, yields_pure, yields_selectCode] at lowered
    obtain ⟨_, _, ⟨rfl, rfl⟩, rfl, rfl⟩ := lowered
    have swaps : Covers g labels [] none low (onLine line Sequence.swap) p _ _ :=
      covers_straight (Sequence.straight_swap above) line
    rw [Code.at_append, ← swaps.piece.address] at placed
    have level : (p.past Sequence.swap).height = p.height := by
      rw [Station.height_past]
      exact Int.add_zero _
    have selects : Covers g labels [] none low _ (p.past Sequence.swap) _ _ :=
      covers_select rfl rfl (level ▸ above) placed.2
    exact ⟨_, _, swaps.append selects, by rw [level]⟩
  | and | or => cases strict

theorem tiled_logical {op : BinaryOp} {lhs rhs : Expr} {decided done : Label} {L R : List Row}
    {q q' after : Station} (one : Tiled g labels [lhs] none L q)
    (two : Tiled g labels [rhs] none R q') :
    Tiled g labels [lhs, rhs] none (Row.logical labels op L R q q' decided done) after := by
  have tested : Tiled g labels [lhs] none (L ++ [Row.of labels q (push op.deciding),
      Row.of labels ⟨q.address + 2, q.height + 1⟩ (branch .branchEq decided)]) (Row.first q' R) :=
    one.before rfl (by simp [Row.of, push, branch])
  have computed := tested.append two
  have decides : Tiled g labels [lhs, rhs] none _ ⟨q'.address + 8, q'.height - 1⟩ :=
    computed.before (S := [Row.of labels q' (push op.deciding),
      Row.of labels ⟨q'.address + 2, q'.height + 1⟩ (branch .branchEq decided),
      Row.of labels ⟨q'.address + 4, q'.height - 1⟩ (push (1 - op.deciding)),
      Row.of labels ⟨q'.address + 6, q'.height⟩ (branch .branch done)]) rfl
      (by simp [Row.of, push, branch])
  exact decides.before rfl (by simp [Row.of, push])

theorem tiled_cond {test no yes : Expr} {taken done : Label} {T N Y : List Row}
    {q q' after : Station} (one : Tiled g labels [test] none T q)
    (two : Tiled g labels [no] none N q') (three : Tiled g labels [yes] none Y after) :
    Tiled g labels [test, no, yes] none (Row.cond labels T N Y q q' taken done) after := by
  have tested : Tiled g labels [test] none (T ++ [Row.of labels q (push 1),
      Row.of labels ⟨q.address + 2, q.height + 1⟩ (branch .branchEq taken)]) (Row.first q' N) :=
    one.before rfl (by simp [Row.of, push, branch])
  have refused : Tiled g labels [test, no] none (T ++ [Row.of labels q (push 1),
      Row.of labels ⟨q.address + 2, q.height + 1⟩ (branch .branchEq taken)] ++ N ++
      [Row.of labels q' (branch .branch done)]) (Row.first after Y) :=
    (tested.append two).before rfl (by simp [Row.of, branch])
  exact refused.append three

theorem stands_logical {line : Line} {op : BinaryOp} {lhs rhs : Expr} {left right : Code}
    {decided done : Label} {L R : List Row} {q q' : Station}
    (lowered : Yields ((Expr.binary line op lhs rhs).code g) s
      (logicalItems op lhs.endLine rhs.endLine left right decided done) t)
    (one : Stands g labels lhs left p L q)
    (two : Stands g labels rhs right ⟨q.address + 4, q.height - 1⟩ R q')
    (placed : Code.At words labels p.address
      (logicalItems op lhs.endLine rhs.endLine left right decided done)) :
    Stands g labels (.binary line op lhs rhs)
      (logicalItems op lhs.endLine rhs.endLine left right decided done) p
      (Row.logical labels op L R q q' decided done) ⟨q'.address + 10, q'.height⟩ := by
  have height := one.rises
  have level : q'.height = q.height := by
    rw [two.rises]
    exact Int.sub_add_cancel _ _
  -- The labels stand where the pieces come out.
  have first := one.piece.address
  have second := two.piece.address
  have leftTest (l : Line) :
      Code.width (onLine l [push op.deciding, branch .branchEq decided]) = 4 := rfl
  have rightTest (l : Line) : Code.width (onLine l [push op.deciding, branch .branchEq decided,
      push (1 - op.deciding), branch .branch done]) = 8 := rfl
  have settled (l : Line) : Code.width (onLine l [push op.deciding]) = 2 := rfl
  simp only [logicalItems, Code.at_append, Code.at_mark, Code.at_nil, Code.width_append,
    Code.width_mark, Code.width_nil, leftTest, rightTest, settled, and_true] at placed
  obtain ⟨⟨⟨_, decidedAt⟩, _⟩, doneAt⟩ := placed
  simp only at second
  rw [show p.address + (left.width + 4 + right.width + 8) = q'.address + 8 by omega] at decidedAt
  rw [show p.address + (left.width + 4 + right.width + 8 + 0 + 2) = q'.address + 10 by omega]
    at doneAt
  refine .intro lowered (.logical (one.within ?_ ?_ (Int.le_refl _)) (two.within ?_ ?_ ?_) level
    (by omega) decidedAt doneAt ?_ (Row.last_mem _ _)) ?_ ?_
  · intro r mem
    exact Row.mem_stations (by simp [Row.logical, mem]) _
  · simp [Row.stations, Row.logical, Row.of]
  · intro r mem
    exact Row.mem_stations (by simp [Row.logical, mem]) _
  · simp [Row.stations, Row.logical, Row.of]
  · simp only
    omega
  · simp [Row.stations, Row.logical, Row.of]
  · simp only
    omega
  · exact tiled_logical one.tile two.tile

theorem stands_cond {line : Line} {test yes no : Expr} {testCode noCode yesCode : Code}
    {taken done : Label} {T N Y : List Row} {q q' after : Station}
    (lowered : Yields ((Expr.cond line test yes no).code g) s
      (condItems test no testCode noCode yesCode taken done) t)
    (one : Stands g labels test testCode p T q)
    (two : Stands g labels no noCode ⟨q.address + 4, q.height - 1⟩ N q')
    (three : Stands g labels yes yesCode ⟨q'.address + 2, q'.height - 1⟩ Y after)
    (placed : Code.At words labels p.address
      (condItems test no testCode noCode yesCode taken done)) :
    Stands g labels (.cond line test yes no)
      (condItems test no testCode noCode yesCode taken done) p
      (Row.cond labels T N Y q q' taken done) after := by
  have height := one.rises
  have level : q'.height = q.height := by
    rw [two.rises]
    exact Int.sub_add_cancel _ _
  have level' : after.height = q'.height := by
    rw [three.rises]
    exact Int.sub_add_cancel _ _
  have first := one.piece.address
  have second := two.piece.address
  have third := three.piece.address
  have choose (l : Line) : Code.width (onLine l [push 1, branch .branchEq taken]) = 4 := rfl
  have skip (l : Line) : Code.width (onLine l [branch .branch done]) = 2 := rfl
  simp only [condItems, Code.at_append, Code.at_mark, Code.at_nil, Code.width_append,
    Code.width_mark, Code.width_nil, choose, skip, and_true] at placed
  obtain ⟨⟨⟨_, takenAt⟩, _⟩, doneAt⟩ := placed
  simp only at second third
  rw [show p.address + (testCode.width + 4 + noCode.width + 2) = q'.address + 2 by omega] at takenAt
  rw [show p.address + (testCode.width + 4 + noCode.width + 2 + 0 + yesCode.width) = after.address
    by omega] at doneAt
  -- The first row of the branch that is taken is the target of the test.
  have toTaken : (⟨q'.address + 2, q'.height - 1⟩ : Station) ∈
      Row.stations (Row.cond labels T N Y q q' taken done) after := by
    rw [← three.piece.start]
    exact Row.stations_right _ Y after (Row.first_mem Y after)
  refine .intro lowered (.cond (one.within ?_ ?_ (Int.le_refl _)) (two.within ?_ ?_ ?_)
    (three.within ?_ (Row.last_mem _ _) ?_) level level' (by omega) takenAt doneAt toTaken
    (Row.last_mem _ _)) ?_ (tiled_cond one.tile two.tile three.tile)
  · intro r mem
    exact Row.mem_stations (by simp [Row.cond, mem]) _
  · simp [Row.stations, Row.cond, Row.of]
  · intro r mem
    exact Row.mem_stations (by simp [Row.cond, mem]) _
  · simp [Row.stations, Row.cond, Row.of]
  · simp only
    omega
  · intro r mem
    exact Row.mem_stations (by simp [Row.cond, mem]) _
  · simp only
    omega
  · omega

/-- A call: the control link, the arguments, the frame or object that is called, and straight code
that finds the target through it. -/
theorem stands_call {e : Expr} {args : List Expr} {line : Line} {argCode : Code}
    {receiver target : List Symbolic} {A : List Row} {q : Station}
    (lowered : Yields (e.code g) s
      (onLine line [plain .loadFp] ++ argCode ++
        onLine line (receiver ++ Sequence.callThrough target)) t)
    (parts : e.operands = args.reverse) (calls : e.callArity? = some args.length)
    (covers : Covers g labels args.reverse none p.height argCode (p.past [plain .loadFp]) A q)
    (height : q.height = p.height + 1 + args.length)
    (receives : Straight p.height q.height receiver) (one : effects receiver = 1)
    (finds : Straight p.height (q.height + 1 + 1) target) (level : effects target = 0) :
    ∃ R q', Stands g labels e
      (onLine line [plain .loadFp] ++ argCode ++
        onLine line (receiver ++ Sequence.callThrough target)) p R q' := by
  have link : Covers g labels [] none p.height (onLine line [plain .loadFp]) p _ _ :=
    covers_plain rfl (Int.le_refl _) line
  have straight : Straight p.height q.height (receiver ++ (Sequence.callStart ++ target)) := by
    simp only [straight_append, one, Sequence.effects_callStart]
    exact ⟨receives, Sequence.straight_callStart (by omega), finds⟩
  have effect : effects (receiver ++ (Sequence.callStart ++ target)) = 2 := by
    simp [one, level]
  have through : Covers g labels [] none p.height
      (onLine line (receiver ++ (Sequence.callStart ++ target))) q _ _ :=
    covers_straight straight line
  have above : p.height ≤ (q.past (receiver ++ (Sequence.callStart ++ target))).height := by
    rw [Station.height_past, effect]
    omega
  have js : Covers g labels [] (some args.length) p.height (onLine line [plain .js]) _ _ _ :=
    covers_js args.length above
  have whole := (link.append covers).append (through.append js)
  simp only [List.append_nil, List.nil_append] at whole
  have sameCode : onLine line (receiver ++ Sequence.callThrough target) =
      onLine line (receiver ++ (Sequence.callStart ++ target)) ++ onLine line [plain .js] := by
    simp [Sequence.callThrough, onLine]
  rw [sameCode] at lowered ⊢
  refine ⟨_, _, whole.stands lowered parts calls ?_⟩
  simp only [Station.height_past, effect]
  omega

theorem straight_push {h : Int} (above : low ≤ h) (w : Word) : Straight low h [push w] :=
  ⟨above, rfl, trivial⟩

theorem straight_name {h : Int} (above : low ≤ h) (g : Word) (use : Use) :
    Straight low h (use.frame g ++ Sequence.loadOffset use.binding.offset) := by
  rw [straight_append, Sequence.effects_frame]
  exact ⟨Sequence.straight_frame above g use, Sequence.straight_loadOffset (by omega) _⟩

theorem stands_straight {e : Expr} {line : Line} {code : List Symbolic}
    (lowered : Yields (e.code g) s (onLine line code) t) (parts : e.operands = [])
    (noCall : e.callArity? = none) (straight : Straight p.height p.height code)
    (effect : effects code = 1) :
    Stands g labels e (onLine line code) p (Row.run labels p code) (p.past code) :=
  (covers_straight straight line).stands lowered parts noCall
    (by rw [Station.height_past, effect])

theorem height_link (p : Station) : (p.past [plain .loadFp]).height = p.height + 1 := rfl

mutual

theorem stands : (e : Expr) → ∀ {s t : Supply} {c : Code}, Yields (e.code g) s c t →
    ∀ p : Station, Code.At words labels p.address c → ∃ R q, Stands g labels e c p R q
  | .int _ _ => by
    intro lowered p _
    obtain ⟨rfl, rfl⟩ := yields_int.mp lowered
    exact ⟨_, _, stands_straight lowered rfl rfl (straight_push (Int.le_refl _) _) rfl⟩
  | .bool _ _ => by
    intro lowered p _
    obtain ⟨rfl, rfl⟩ := yields_bool.mp lowered
    exact ⟨_, _, stands_straight lowered rfl rfl (straight_push (Int.le_refl _) _) rfl⟩
  | .null _ => by
    intro lowered p _
    obtain ⟨rfl, rfl⟩ := yields_null.mp lowered
    exact ⟨_, _, stands_straight lowered rfl rfl (straight_push (Int.le_refl _) _) rfl⟩
  | .id _ _ => by
    intro lowered p _
    obtain ⟨use, _, rfl, rfl⟩ := yields_id.mp lowered
    refine ⟨_, _, stands_straight lowered rfl rfl ?_ (by simp)⟩
    exact straight_name (Int.le_refl _) g use
  | .call line callee args => by
    intro lowered p placed
    obtain ⟨use, argCode, _, inner, rfl⟩ := yields_call.mp lowered
    simp only [Code.at_append] at placed
    obtain ⟨A, q, covers, height⟩ :=
      coversBackward args inner (p.past [plain .loadFp]) placed.1.2 p.height
        (by rw [height_link]; omega)
    rw [height_link] at height
    exact stands_call lowered rfl rfl covers height (Sequence.straight_frame (by omega) g use)
      (by simp) (Sequence.straight_callTarget (by omega) _) (by simp)
  | .binary _ op lhs rhs => by
    intro lowered p placed
    cases logical : op.isLogical with
    | true =>
      obtain ⟨left, right, u, first, second, rfl⟩ := (yields_logical logical).mp lowered
      obtain ⟨atLeft, atRight⟩ := at_logicalItems placed
      obtain ⟨L, q, one⟩ := stands lhs first p atLeft
      rw [← one.piece.address] at atRight
      obtain ⟨R, q', two⟩ := stands rhs second ⟨q.address + 4, q.height - 1⟩ atRight
      exact ⟨_, _, stands_logical lowered one two placed⟩
    | false =>
      obtain ⟨left, right, tail, u, v, first, second, third, rfl⟩ :=
        (yields_binary logical).mp lowered
      simp only [Code.at_append, Code.width_append] at placed
      obtain ⟨L, q, one⟩ := stands lhs first p placed.1.1
      have atRight := placed.1.2
      rw [← one.piece.address] at atRight
      obtain ⟨R, q', two⟩ := stands rhs second q atRight
      have atTail := placed.2
      rw [← Nat.add_assoc, ← one.piece.address, ← two.piece.address] at atTail
      have low := one.rises
      have high := two.rises
      obtain ⟨S, r, three, height⟩ : ∃ S r, Covers g labels [] none p.height tail q' S r ∧
          r.height = q'.height - 1 := covers_operator logical third (by omega) atTail
      refine ⟨_, _, Covers.stands (((one.covers (Int.le_refl _)).append
        (two.covers (by omega))).append three) lowered rfl rfl (by omega)⟩
  | .not _ operand => by
    intro lowered p placed
    obtain ⟨operandCode, u, inner, rfl, rfl⟩ := yields_not.mp lowered
    simp only [Code.at_append, Code.width_append] at placed
    obtain ⟨R, q, one⟩ := stands operand inner p placed.1.1
    have rises := one.rises
    have pushes : Covers g labels [] none p.height (onLine operand.endLine [push 1]) q _ _ :=
      covers_straight (straight_push (by omega) 1) _
    have atSelect := placed.2
    rw [← Nat.add_assoc, ← one.piece.address, ← pushes.piece.address] at atSelect
    have height : (q.past [push 1]).height = p.height + 2 := by
      rw [Station.height_past, rises, Int.add_assoc]
      rfl
    have selects : Covers g labels [] none p.height _ (q.past [push 1]) _ _ :=
      covers_select rfl rfl (by omega) atSelect
    exact ⟨_, _, Covers.stands (((one.covers (Int.le_refl _)).append pushes).append selects)
      lowered rfl rfl (by simp only; omega)⟩
  | .cond _ test yes no => by
    intro lowered p placed
    obtain ⟨testCode, noCode, yesCode, u, v, first, second, third, rfl⟩ := yields_cond.mp lowered
    obtain ⟨atTest, atNo, atYes⟩ := at_condItems placed
    obtain ⟨T, q, one⟩ := stands test first p atTest
    rw [← one.piece.address] at atNo atYes
    obtain ⟨N, q', two⟩ := stands no second ⟨q.address + 4, q.height - 1⟩ atNo
    have address := two.piece.address
    simp only at address
    rw [← address] at atYes
    obtain ⟨Y, after, three⟩ := stands yes third ⟨q'.address + 2, q'.height - 1⟩ atYes
    exact ⟨_, _, stands_cond lowered one two three placed⟩
  | .print _ operand => by
    intro lowered p placed
    obtain ⟨operandCode, inner, rfl⟩ := yields_print.mp lowered
    rw [Code.at_append] at placed
    obtain ⟨R, q, one⟩ := stands operand inner p placed.1
    have rises := one.rises
    have prints : Covers g labels [] none p.height (onLine operand.endLine [plain .print]) q _ _ :=
      covers_plain rfl (by omega) _
    refine ⟨_, _, Covers.stands ((one.covers (Int.le_refl _)).append prints) lowered rfl rfl ?_⟩
    rw [Station.height_past, rises]
    exact Int.add_zero _
  | .new line _ args _ => by
    intro lowered p placed
    obtain ⟨b, layout, argCode, _, _, inner, rfl⟩ := yields_new.mp lowered
    rw [Code.at_append] at placed
    obtain ⟨A, q, covers, height⟩ := coversForward args inner p placed.1 p.height (Int.le_refl _)
    have makes : Covers g labels [] none p.height (onLine line (newTail g args.length b)) q _ _ :=
      covers_straight (Sequence.straight_newTail (by omega) g b) line
    refine ⟨_, _, (covers.append makes).stands lowered (by simp [operands]) rfl ?_⟩
    rw [Station.height_past, Sequence.effects_newTail, height]
    omega
  | .send line object method args binding => by
    intro lowered p placed
    obtain ⟨b, use, argCode, _, _, inner, rfl⟩ := yields_send.mp lowered
    simp only [Code.at_append] at placed
    obtain ⟨A, q, covers, height⟩ :=
      coversBackward args inner (p.past [plain .loadFp]) placed.1.2 p.height
        (by rw [height_link]; omega)
    rw [height_link] at height
    exact stands_call lowered rfl rfl covers height (straight_name (by omega) g use) (by simp)
      (Sequence.straight_loadThrough (by omega) _) rfl
  | .get _ _ _ _ => by
    intro lowered p _
    obtain ⟨b, use, _, _, rfl, rfl⟩ := yields_get.mp lowered
    refine ⟨_, _, stands_straight lowered rfl rfl ?_ (by simp)⟩
    rw [straight_append]
    refine ⟨straight_name (Int.le_refl _) g use, Sequence.straight_loadOffset ?_ _⟩
    simp only [effects_append, Sequence.effects_frame, Sequence.effects_loadOffset]
    omega

theorem coversForward : (args : List Expr) → ∀ {s t : Supply} {c : Code},
    Yields (argsForward g args) s c t → ∀ p : Station, Code.At words labels p.address c →
    ∀ low : Int, low ≤ p.height →
    ∃ R q, Covers g labels args none low c p R q ∧ q.height = p.height + args.length
  | [] => by
    intro lowered p _ low _
    obtain ⟨rfl, rfl⟩ := yields_argsForward_nil.mp lowered
    exact ⟨[], p, covers_own .nil, by simp⟩
  | arg :: args => by
    intro lowered p placed low above
    obtain ⟨head, tail, u, first, second, rfl⟩ := yields_argsForward_cons.mp lowered
    rw [Code.at_append] at placed
    obtain ⟨R, q, one⟩ := stands arg first p placed.1
    rw [← one.piece.address] at placed
    have rises := one.rises
    obtain ⟨S, r, others, height⟩ := coversForward args second q placed.2 low (by omega)
    refine ⟨R ++ S, r, (one.covers above).append others, ?_⟩
    rw [height, rises, List.length_cons]
    omega

theorem coversBackward : (args : List Expr) → ∀ {s t : Supply} {c : Code},
    Yields (argsBackward g args) s c t → ∀ p : Station, Code.At words labels p.address c →
    ∀ low : Int, low ≤ p.height →
    ∃ R q, Covers g labels args.reverse none low c p R q ∧ q.height = p.height + args.length
  | [] => by
    intro lowered p _ low _
    obtain ⟨rfl, rfl⟩ := yields_argsBackward_nil.mp lowered
    exact ⟨[], p, covers_own .nil, by simp⟩
  | arg :: args => by
    intro lowered p placed low above
    obtain ⟨head, tail, u, first, second, rfl⟩ := yields_argsBackward_cons.mp lowered
    rw [Code.at_append] at placed
    obtain ⟨R, q, others, height⟩ := coversBackward args first p placed.1 low above
    rw [← others.piece.address] at placed
    obtain ⟨S, r, one⟩ := stands arg second q placed.2
    have rises := one.rises
    refine ⟨R ++ S, r, ?_, ?_⟩
    · rw [List.reverse_cons]
      exact others.append (one.covers (by omega))
    · rw [rises, height, List.length_cons]
      omega

end

end Expr

end ObjectLang
