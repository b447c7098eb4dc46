import ObjectLang.Proofs.Code.Segments

/-!
Static stack discipline. All ways through a segment agree on the height of the stack at each of its
instructions.
-/
namespace ObjectLang

open Symbolic Lower

namespace Row

inductive Follows (seg : List Row) : Row → Row → Prop
  | fall {before r r' after} (here : seg = before ++ r :: r' :: after)
      (passes : r.passes = true) : Follows seg r r'
  | jump {r r'} (here : r ∈ seg) (there : r' ∈ seg) (aims : r.target = some r'.address) :
      Follows seg r r'

/-- Some way from the first row of the segment leads to the row, and the effects along it add up to
the height. -/
inductive Reached (seg : List Row) : Row → Int → Prop
  | start {r rest} (here : seg = r :: rest) : Reached seg r 0
  | step {r r' h} (reached : Reached seg r h) (follows : Follows seg r r') :
      Reached seg r' (h + r.effect)

variable {seg : List Row} {q : Station} {r r' : Row}

end Row

namespace Segment

variable {g : Word} {labels : Labels} {opening closing : List Symbolic} {ds : List Decl}
  {result : Expr} {address : Nat} {seg : List Row}

theorem last {body : List Symbolic} {i : Symbolic}
    (segment : Segment g labels opening (body ++ [i]) ds result address seg) :
    ∃ (before : List Row) (r : Row), seg = before ++ [r] ∧ r.instr = i.link labels ∧ r.args = none ∧
      r.height = ds.length + 2 + effects body := by
  cases segment with
  | @intro c d D E p q decls computes height =>
    rw [Row.run_append, ← List.append_assoc]
    refine ⟨_, _, rfl, rfl, rfl, ?_⟩
    rw [Row.of, Station.height_past, height]

end Segment

namespace Routine

variable {g : Word} {labels : Labels} {r : Routine} {seg : List Row}

def unwind (params locals : Nat) : List Symbolic :=
  [plain .storeTm] ++ List.replicate locals (plain .pop) ++ [plain .storeRa, plain .pop] ++
    List.replicate params (plain .pop) ++ [plain .storeFp, plain .loadTm, plain .loadRa]

theorem epilogue_eq (params locals : Nat) :
    epilogue params locals = unwind params locals ++ [plain .js] := by
  simp [epilogue, unwind]

theorem effects_pops (count : Nat) : effects (List.replicate count (plain .pop)) = -count := by
  induction count with
  | zero => rfl
  | succ count ih =>
    rw [List.replicate_succ, effects_cons, ih]
    simp only [plain, Opcode.effect]
    omega

theorem effects_unwind (params locals : Nat) :
    effects (unwind params locals) = -(params + locals + 2) := by
  simp only [unwind, effects_append, effects_pops]
  simp only [effects_cons, effects_nil, plain, Opcode.effect]
  omega

theorem Realized.returns (realized : r.Realized g labels seg) :
    ∃ (before : List Row) (js : Row), seg = before ++ [js] ∧ js.instr.op = .js ∧ js.args = none ∧
      js.height + js.effect = -((r.params.length : Int) + 1) := by
  obtain ⟨address, segment⟩ := realized
  rw [epilogue_eq] at segment
  obtain ⟨before, js, rfl, instr, args, height⟩ := segment.last
  refine ⟨before, js, rfl, congrArg Instr.op instr, args, ?_⟩
  rw [Row.effect, args, instr, height, effects_unwind]
  simp [plain, Opcode.effect]
  omega

end Routine

namespace Program

/-- In a program of fewer than 2 ^ 31 words, the address that a branch leads to is its operand, as
the machine reads it. -/
theorem target_eq_operand {p : Program} {g : Word} {image : Image} {labels : Labels}
    {main : List Row} {bodies : List (List Row)}
    (decoded : image.instructions = .ok ((main :: bodies).flatten.map Row.entry))
    (segment : Segment g labels [push 0] [plain .halt] p.decls p.body 0 main)
    (realized : List.Forall₂ (Routine.Realized g labels) p.routines bodies)
    (small : image.size < Word.limit) : ∀ r ∈ (main :: bodies).flatten,
      r.instr.op.isBranch = true → r.target = r.instr.operand.bind Word.index? := by
  intro r mem
  have low : ∀ r ∈ (main :: bodies).flatten, r.address < Word.limit := fun r mem =>
    Nat.lt_trans (Image.address_lt_size decoded r.entry (List.mem_map_of_mem mem)) small
  obtain ⟨seg, inSegs, inSeg⟩ := List.mem_flatten.mp mem
  have lowRows := fun r inRows => low r (List.mem_flatten_of_mem inSegs inRows)
  rcases List.mem_cons.mp inSegs with rfl | inBodies
  · obtain ⟨_, flows, _⟩ := segment.flows (by decide) (by decide) (by decide)
    exact flows.target_eq_operand lowRows inSeg
  · obtain ⟨_, _, body⟩ := Routine.Realized.of_mem realized inBodies
    obtain ⟨_, flows, _⟩ := body.flows Routine.bare_prologue (Routine.bare_epilogue _ _)
      (by simp [Routine.epilogue])
    exact flows.target_eq_operand lowRows inSeg

end Program

end ObjectLang
