import ObjectLang.Proofs.Code.Links
import ObjectLang.Proofs.Code.Segments

/-!
Control-flow integrity. Generating code never fails for want of a label. In the code that it gives,
only the main segment halts, and only at its end; every other segment is the body of a routine and
ends by returning; a branch stays in its segment; and the addresses that declarations push are the
starts of segments.
-/
namespace ObjectLang

open Symbolic Lower

namespace Lower

variable {α β : Type}

def NoUnbound (x : Lower α) : Prop := ∀ s l, x.run s ≠ .error (.unboundLabel l)

theorem NoUnbound.bind {x : Lower α} {f : α → Lower β} (one : NoUnbound x)
    (two : ∀ a, NoUnbound (f a)) : NoUnbound (x >>= f) := by
  intro s l failed
  rw [StateT.run_bind] at failed
  cases first : x.run s with
  | error e =>
    rw [first] at failed
    cases failed
    exact one s l first
  | ok result =>
    rw [first] at failed
    exact two result.1 result.2 l failed

theorem noUnbound_pure (a : α) : NoUnbound (pure a) := nofun

theorem noUnbound_unresolved (name : String) (line : Line) :
    NoUnbound (fail (.unresolved name line) : Lower α) := nofun

theorem noUnbound_notAClass (name : String) (line : Line) :
    NoUnbound (fail (.notAClass name line) : Lower α) := nofun

theorem noUnbound_reserve (count : Nat) : NoUnbound (reserve count) := nofun

theorem noUnbound_dispatchTable (cls : Option String) : NoUnbound (dispatchTable cls) := nofun

theorem noUnbound_setDispatchTable (cls : String) (table : List Label) :
    NoUnbound (setDispatchTable cls table) := nofun

end Lower

theorem Ident.noUnbound (g : Word) (line : Line) (i : Ident) : NoUnbound (i.code g line) := by
  unfold Ident.code
  split
  · exact noUnbound_unresolved _ _
  · exact noUnbound_pure _

theorem noUnbound_selectCode (line : Line) (op : Opcode) (taken otherwise : Word) :
    NoUnbound (selectCode line op taken otherwise) :=
  (noUnbound_reserve 2).bind fun _ => noUnbound_pure _

theorem BinaryOp.noUnbound (line : Line) (op : BinaryOp) : NoUnbound (op.code line) := by
  cases op with
  | add | sub | mul | div | and | or => exact noUnbound_pure _
  | eq | le => exact noUnbound_selectCode _ _ _ _
  | ge => exact (noUnbound_selectCode _ _ _ _).bind fun _ => noUnbound_pure _

namespace Expr

variable (g : Word)

mutual

theorem noUnbound : (e : Expr) → NoUnbound (e.code g)
  | .int _ _ | .bool _ _ | .null _ => by
    rw [code]
    exact noUnbound_pure _
  | .id line ident => by
    rw [code]
    exact (ident.noUnbound g line).bind fun _ => noUnbound_pure _
  | .call _ _ args => by
    rw [code]
    split
    · exact noUnbound_unresolved _ _
    · exact (noUnboundBackward args).bind fun _ => noUnbound_pure _
  | .binary _ op lhs rhs => by
    rw [code]
    split
    · exact (noUnbound_reserve 2).bind fun _ => (noUnbound lhs).bind fun _ =>
        (noUnbound rhs).bind fun _ => noUnbound_pure _
    · exact (noUnbound lhs).bind fun _ => (noUnbound rhs).bind fun _ =>
        (op.noUnbound _).bind fun _ => noUnbound_pure _
  | .not _ operand => by
    rw [code]
    exact (noUnbound operand).bind fun _ =>
      (noUnbound_selectCode _ _ _ _).bind fun _ => noUnbound_pure _
  | .cond _ test yes no => by
    rw [code]
    exact (noUnbound_reserve 2).bind fun _ => (noUnbound test).bind fun _ =>
      (noUnbound no).bind fun _ => (noUnbound yes).bind fun _ => noUnbound_pure _
  | .print _ operand => by
    rw [code]
    exact (noUnbound operand).bind fun _ => noUnbound_pure _
  | .new _ _ args binding => by
    cases binding with
    | none =>
      rw [code]
      exact noUnbound_unresolved _ _
    | some b =>
      rw [code]
      split
      · exact (noUnboundForward args).bind fun _ => noUnbound_pure _
      · exact noUnbound_notAClass _ _
  | .send line object _ args binding => by
    cases binding with
    | none =>
      rw [code]
      exact noUnbound_unresolved _ _
    | some b =>
      rw [code]
      exact (noUnboundBackward args).bind fun _ => (object.noUnbound g line).bind fun _ =>
        noUnbound_pure _
  | .get line object _ binding => by
    cases binding with
    | none =>
      rw [code]
      exact noUnbound_unresolved _ _
    | some b =>
      rw [code]
      exact (object.noUnbound g line).bind fun _ => noUnbound_pure _

theorem noUnboundForward : (args : List Expr) → NoUnbound (argsForward g args)
  | [] => by
    rw [argsForward]
    exact noUnbound_pure _
  | arg :: args => by
    rw [argsForward]
    exact (noUnbound arg).bind fun _ => (noUnboundForward args).bind fun _ => noUnbound_pure _

theorem noUnboundBackward : (args : List Expr) → NoUnbound (argsBackward g args)
  | [] => by
    rw [argsBackward]
    exact noUnbound_pure _
  | arg :: args => by
    rw [argsBackward]
    exact (noUnboundBackward args).bind fun _ => (noUnbound arg).bind fun _ => noUnbound_pure _

end

end Expr

namespace Decl

variable (g : Word)

mutual

theorem noUnbound : (d : Decl) → NoUnbound (d.code g)
  | .var decl => by
    rw [code]
    exact (decl.init.noUnbound g).bind fun _ => noUnbound_pure _
  | .fn routine => by
    rw [code]
    exact (noUnbound_reserve 1).bind fun _ => (noUnboundRoutine _ routine).bind fun _ =>
      noUnbound_pure _
  | .cls ⟨_, _, _, _, methods, _, _⟩ => by
    rw [code]
    exact (noUnbound_reserve _).bind fun _ => (noUnbound_dispatchTable _).bind fun _ =>
      (noUnbound_setDispatchTable _ _).bind fun _ => (noUnboundMethods _ methods).bind fun _ =>
        noUnbound_pure _

theorem noUnboundRoutine (entry : Label) : (r : Routine) → NoUnbound (routineCode g entry r)
  | ⟨_, _, _, _, locals, body⟩ => by
    rw [routineCode]
    exact (noUnboundAll locals).bind fun _ => (body.noUnbound g).bind fun _ => noUnbound_pure _

theorem noUnboundMethods (first : Nat) :
    (methods : List Method) → NoUnbound (methodsCode g first methods)
  | [] => by
    rw [methodsCode]
    exact noUnbound_pure _
  | ⟨routine, _⟩ :: methods => by
    rw [methodsCode]
    exact (noUnboundRoutine _ routine).bind fun _ => (noUnboundMethods _ methods).bind fun _ =>
      noUnbound_pure _

theorem noUnboundAll : (ds : List Decl) → NoUnbound (allCode g ds)
  | [] => by
    rw [allCode]
    exact noUnbound_pure _
  | d :: ds => by
    rw [allCode]
    exact (noUnbound d).bind fun _ => (noUnboundAll ds).bind fun _ => noUnbound_pure _

end

end Decl

theorem Program.lower_ne_unboundLabel (p : Program) (size : Nat) (l : Label) :
    p.lower size ≠ .error (.unboundLabel l) := by
  have noUnbound : NoUnbound (p.code (Word.ofSize size)) :=
    (Decl.noUnboundAll _ p.decls).bind fun _ => (p.body.noUnbound _).bind fun _ => noUnbound_pure _
  intro failed
  cases run : (p.code (Word.ofSize size)).run {} with
  | error e =>
    rw [lower, run] at failed
    cases failed
    exact noUnbound _ l run
  | ok result =>
    obtain ⟨image, laid, _⟩ := layout_code (f := result.1) (t := result.2) run
    rw [lower_eq run, laid] at failed
    cases failed

namespace Segment

variable {g : Word} {labels : Labels} {opening closing : List Symbolic} {ds : List Decl}
  {result : Expr} {address : Nat} {seg : List Row}

theorem inner (segment : Segment g labels opening closing ds result address seg)
    (ordinary : ∀ i ∈ opening, i.op.isOrdinary = true) :
    ∃ before q, seg = before ++ Row.run labels q closing ∧ ∀ r ∈ before, r.leaves = false := by
  cases segment with
  | @intro c d D E p q decls computes height =>
    refine ⟨_, q, rfl, ?_⟩
    intro r mem
    rcases List.mem_append.mp mem with mem | mem
    · rcases List.mem_append.mp mem with mem | mem
      · obtain ⟨_, i, inOpening, rfl⟩ := Row.mem_run mem
        obtain ⟨_, noCall, noHalt⟩ := Opcode.isOrdinary_iff.mp (ordinary i inOpening)
        simp [Row.leaves, Row.of, noCall, noHalt]
      · exact (decls.piece.each r mem).2
    · exact (computes.piece.each r mem).2

theorem opcodes (segment : Segment g labels opening closing ds result address seg) :
    ∃ middle, seg.map (fun r => r.instr.op) =
      opening.map Symbolic.op ++ middle ++ closing.map Symbolic.op := by
  cases segment with
  | @intro c d D E p q decls computes height =>
    refine ⟨(D ++ E).map fun r => r.instr.op, ?_⟩
    simp [Row.opcodes_run]

end Segment

def Listing.Closed (seg : Listing) : Prop :=
  ∀ entry ∈ seg, entry.2.op.isBranch = true →
    ∃ target ∈ seg, entry.2.operand.bind Word.index? = some target.1

theorem Row.not_halt {r : Row} (stays : r.leaves = false) : r.instr.op ≠ .halt := by
  intro halts
  simp [leaves, halts] at stays

theorem Row.Flows.closed {seg : List Row} {q : Station}
    (flows : Row.Flows (seg.map Row.toStation) q seg)
    (low : ∀ r ∈ seg, r.address < Word.limit) : Listing.Closed (seg.map Row.entry) := by
  intro entry mem branches
  obtain ⟨r, listed, rfl⟩ := List.mem_map.mp mem
  obtain ⟨r', listed', target, _⟩ := flows.lands listed branches
  refine ⟨r'.entry, List.mem_map_of_mem listed', ?_⟩
  exact (flows.target_eq_operand low listed branches).symm.trans target

namespace Routine

/-- The opcodes of a segment are those of a body of the routine: they set its frame up, and at the
end they drop its locals and its arguments and return. -/
def Encloses (r : Routine) (seg : Listing) : Prop :=
  ∃ middle : List Opcode, seg.map (fun entry => entry.2.op) =
    [Opcode.copyFp, Opcode.loadRa] ++ middle ++ [Opcode.storeTm] ++
      List.replicate r.locals.length Opcode.pop ++ [Opcode.storeRa, Opcode.pop] ++
      List.replicate r.params.length Opcode.pop ++
      [Opcode.storeFp, Opcode.loadTm, Opcode.loadRa, Opcode.js]

variable {g : Word} {labels : Labels} {r : Routine} {seg : List Row}

theorem Realized.encloses (realized : r.Realized g labels seg) :
    r.Encloses (seg.map Row.entry) := by
  obtain ⟨address, segment⟩ := realized
  obtain ⟨middle, opcodes⟩ := segment.opcodes
  refine ⟨middle, ?_⟩
  simpa [prologue, epilogue, plain, Row.entry, Function.comp_def] using opcodes

theorem Realized.closed (realized : r.Realized g labels seg)
    (low : ∀ r ∈ seg, r.address < Word.limit) : Listing.Closed (seg.map Row.entry) := by
  obtain ⟨address, segment⟩ := realized
  obtain ⟨_, flows, _⟩ := segment.flows bare_prologue (bare_epilogue _ _) (by simp [epilogue])
  exact flows.closed low

theorem Realized.noHalt (realized : r.Realized g labels seg) :
    ∀ row ∈ seg, row.instr.op ≠ .halt := by
  obtain ⟨address, segment⟩ := realized
  obtain ⟨before, q, rfl, stays⟩ := segment.inner (by decide)
  intro row mem halts
  rcases List.mem_append.mp mem with mem | mem
  · exact Row.not_halt (stays row mem) halts
  · obtain ⟨_, i, inClosing, rfl⟩ := Row.mem_run mem
    have returns : ∀ op ∈ [.storeTm, .pop, .storeRa, .storeFp, .loadTm, .loadRa, .js],
        op ≠ Opcode.halt := by decide
    exact returns i.op (mem_epilogue inClosing) halts

end Routine

namespace Program

variable {p : Program} {g : Word} {f : Fragment} {t : Supply}

theorem linked (lowered : Yields (p.code g) {} f t) :
    ∃ slots tables, Framed g f.labels opening closing slots p.body 0
        (Code.listing f.labels 0 f.inline) ∧
      Decl.AllLinked g f.labels (fun _ => []) p.decls slots
        (Code.listings f.labels f.inline.width f.bodies) tables := by
  obtain ⟨_, _, _, placed⟩ := layout_code lowered
  rw [← Fragment.labels] at placed
  generalize f.labels = labels at placed ⊢
  obtain ⟨decls, result, u, first, second, rfl⟩ := yields_code.mp lowered
  rw [Fragment.all, Code.at_append, Nat.zero_add] at placed
  have inPlace := placed.1
  simp only [List.append_assoc, Code.at_append] at inPlace
  obtain ⟨slots, shown, all⟩ := Decl.linkedAll p.decls first _ _ inPlace.2.1 placed.2
  refine ⟨slots, _, ?_, all⟩
  rw [Code.listing_append, Code.listing_append, Code.listing_append, ← shown]
  exact .intro second

theorem halts_last {labels : Labels} {ds : List Decl} {result : Expr} {main : List Row}
    (segment : Segment g labels opening closing ds result 0 main) :
    ∃ (before : Listing) (address : Nat), main.map Row.entry = before ++ [(address, ⟨.halt, none⟩)] ∧
      ∀ entry ∈ before, entry.2.op ≠ .halt := by
  obtain ⟨before, q, rfl, stays⟩ := segment.inner (by decide)
  refine ⟨before.map Row.entry, q.address, List.map_append, ?_⟩
  intro entry mem halts
  obtain ⟨r, listed, rfl⟩ := List.mem_map.mp mem
  exact Row.not_halt (stays r listed) halts

/-- However a tree is annotated, its code keeps control where it belongs. No label is unbound. The
words decode into the main segment, whose last instruction is the only one that halts, and one
segment for each routine; branches stay in their segments; and the addresses that fill the slots of
functions and the dispatch tables are the starts of the segments of their routines. -/
theorem control_flow_integrity :
    (∀ (p : Program) (size : Nat) (l : Label), p.lower size ≠ .error (.unboundLabel l)) ∧
    ∀ (p : Program) (size : Nat) (image : Image), p.lower size = .ok image →
      image.size < Word.limit →
      ∃ (labels : Labels) (main : Listing) (bodies slots : List Listing) (tables : Tables),
        image.instructions = .ok (main :: bodies).flatten ∧
        (∀ entry ∈ (main :: bodies).flatten, Word.index? (Int32.ofNat entry.1) = some entry.1) ∧
        (∃ (before : Listing) (address : Nat), main = before ++ [(address, ⟨.halt, none⟩)] ∧
          ∀ entry ∈ before ++ bodies.flatten, entry.2.op ≠ .halt) ∧
        List.Forall₂ Routine.Encloses p.routines bodies ∧
        (∀ seg ∈ main :: bodies, Listing.Closed seg) ∧
        Framed (Word.ofSize size) labels [push 0] [plain .halt] slots p.body 0 main ∧
        Decl.AllLinked (Word.ofSize size) labels (fun _ => []) p.decls slots bodies tables := by
  refine ⟨lower_ne_unboundLabel, ?_⟩
  intro p size image done small
  obtain ⟨f, t, lowered, _, decoded⟩ := listed done
  obtain ⟨main, bodies, shown, shownBodies, segment, realized⟩ := segmented lowered
  obtain ⟨slots, tables, framed, linked⟩ := linked lowered
  rw [← shown, ← shownBodies] at decoded
  rw [← shown] at framed
  rw [← shownBodies] at linked
  rw [← List.map_flatten, ← List.map_append, ← List.flatten_cons] at decoded
  have low : ∀ r ∈ (main :: bodies).flatten, r.address < Word.limit := fun r mem =>
    Nat.lt_trans (Image.address_lt_size decoded r.entry (List.mem_map_of_mem mem)) small
  refine ⟨f.labels, main.map Row.entry, bodies.map (List.map Row.entry), slots, tables,
    by rw [decoded, List.map_flatten, List.map_cons], ?_, ?_, ?_, ?_, framed, linked⟩
  · intro entry mem
    rw [← List.map_cons, ← List.map_flatten] at mem
    obtain ⟨r, listed, rfl⟩ := List.mem_map.mp mem
    exact Word.index?_ofNat (low r listed)
  · obtain ⟨before, address, shape, inner⟩ := halts_last segment
    refine ⟨before, address, shape, ?_⟩
    intro entry mem
    rcases List.mem_append.mp mem with mem | mem
    · exact inner entry mem
    · rw [← List.map_flatten] at mem
      obtain ⟨r, listed, rfl⟩ := List.mem_map.mp mem
      obtain ⟨seg, inBodies, inSeg⟩ := List.mem_flatten.mp listed
      obtain ⟨_, body⟩ := Routine.Realized.of_mem realized inBodies
      exact body.noHalt r inSeg
  · exact List.forall₂_map_right_iff.mpr (realized.imp fun _ _ body => body.encloses)
  · intro seg mem
    rw [← List.map_cons] at mem
    obtain ⟨rows, listed, rfl⟩ := List.mem_map.mp mem
    have lowRows := fun r inRows => low r (List.mem_flatten_of_mem listed inRows)
    rcases List.mem_cons.mp listed with rfl | inBodies
    · obtain ⟨_, flows, _⟩ := segment.flows (by decide) (by decide) (by decide)
      exact flows.closed lowRows
    · obtain ⟨_, body⟩ := Routine.Realized.of_mem realized inBodies
      exact body.closed lowRows

def overriding : Program where
  decls := [
    .cls ⟨1, "A", none, [], [⟨⟨1, "get", .int, [], [], .int 1 1⟩, 0⟩], none, none⟩,
    .cls ⟨2, "B", some "A", [], [
      ⟨⟨2, "get", .int, [], [
          .fn ⟨2, "next", .int, [⟨2, "n", .int⟩], [],
            .binary 2 .add (.id 2 ⟨"n", some ⟨⟨3, .int, 1⟩, 3⟩⟩) (.int 2 1)⟩],
        .cond 3 (.bool 3 true)
          (.call 3 ⟨"next", some ⟨⟨2, .arrow ⟨[.int], .int⟩, -2⟩, 2⟩⟩ [.int 3 2]) (.int 3 0)⟩, 0⟩,
      ⟨⟨4, "put", .int, [], [], .int 4 3⟩, 1⟩], none, none⟩]
  body := .null 5

theorem control_flow_integrity_overriding :
    ∃ (image : Image) (main parent inner first second slot : Listing) (start next : Nat),
      overriding.lower 64 = .ok image ∧ image.size < Word.limit ∧
      image.instructions = .ok [main, parent, inner, first, second].flatten ∧
      (∀ seg ∈ [main, parent, inner, first, second], Listing.Closed seg) ∧
      slot.map Prod.snd = Instr.writing [start, next] ∧
      first.head? = some (start, ⟨.copyFp, none⟩) ∧
      second.head? = some (next, ⟨.copyFp, none⟩) := by
  obtain ⟨image, done, small⟩ : ∃ image, overriding.lower 64 = .ok image ∧
      image.size < Word.limit := by
    have lowers : (overriding.lower 64).toOption.any
        (fun image => decide (image.size < Word.limit)) = true := by decide +kernel
    cases run : overriding.lower 64 with
    | error e =>
      rw [run] at lowers
      cases lowers
    | ok image =>
      rw [run] at lowers
      exact ⟨image, rfl, of_decide_eq_true lowers⟩
  obtain ⟨labels, main, bodies, slots, tables, decoded, _, _, _, closed, _, linked⟩ :=
    control_flow_integrity.2 overriding 64 image done small
  -- One rule applies to each part of the tree.
  obtain _ | ⟨_ | _ | ⟨filledA, _, methodsA⟩, _ | ⟨_ | _ | ⟨filledB, writes, methodsB⟩, _ | _⟩⟩ :=
    linked
  obtain _ | ⟨⟨_ | _, _⟩, _ | _⟩ := methodsA
  obtain _ | ⟨⟨_ | ⟨_ | ⟨_ | _, _⟩ | _, _ | _⟩, framed⟩, _ | ⟨⟨_ | _, framed'⟩, _ | _⟩⟩ := methodsB
  rw [filledB, filledA] at writes
  exact ⟨image, main, _, _, _, _, _, _, _, done, small, decoded, closed, writes, framed.head?,
    framed'.head?⟩

end Program

end ObjectLang
