import Mathlib.Data.List.Forall2
import ObjectLang.Proofs.Code.Assembly
import ObjectLang.Proofs.Scope.Creations

/-!
Code for two memory sizes. The size of the memory reaches code generation as the address of the
global frame, and code uses this address only to push it or to push the address of a class in that
frame. So two runs for two sizes go side by side: they take the same labels, fail alike, and give
code that differs only in words that are pushed. Layout then gives the same address to each label.
-/
namespace ObjectLang

open Symbolic Lower

/-! Code in which pushed words may differ as a relation allows. -/

section Moved

variable (R : Word → Word → Prop)

inductive Symbolic.Moved : Symbolic → Symbolic → Prop
  | same (i : Symbolic) : Moved i i
  | push {w w' : Word} (related : R w w') : Moved (push w) (push w')

inductive Item.Moved : Item → Item → Prop
  | mark (l : Label) : Moved (.mark l) (.mark l)
  | instr {i j : Symbolic} (moved : i.Moved R j) (line : Line) :
      Moved (.instr i line) (.instr j line)

abbrev Code.Moved : Code → Code → Prop := List.Forall₂ (Item.Moved R)

structure Fragment.Moved (f f' : Fragment) : Prop where
  inline : Code.Moved R f.inline f'.inline
  bodies : List.Forall₂ (Code.Moved R) f.bodies f'.bodies

inductive Instr.Moved : Instr → Instr → Prop
  | same (i : Instr) : Moved i i
  | push {w w' : Word} (related : R w w') : Moved ⟨.push, some w⟩ ⟨.push, some w'⟩

end Moved

variable {R : Word → Word → Prop}

namespace Code.Moved

variable {c c' d d' : Code}

theorem refl (c : Code) : Code.Moved R c c := by
  rw [Code.Moved, List.forall₂_same]
  intro item _
  cases item with
  | mark l => exact .mark l
  | instr i line => exact .instr (.same i) line

theorem append (first : Code.Moved R c c') (second : Code.Moved R d d') :
    Code.Moved R (c ++ d) (c' ++ d') :=
  List.rel_append first second

theorem onLine {code code' : List Symbolic} (line : Line)
    (moved : List.Forall₂ (Symbolic.Moved R) code code') :
    Code.Moved R (onLine line code) (onLine line code') := by
  induction moved with
  | nil => exact .nil
  | cons head _ ih => exact .cons (.instr head line) ih

end Code.Moved

theorem Symbolic.moved_refl (code : List Symbolic) :
    List.Forall₂ (Symbolic.Moved R) code code :=
  List.forall₂_same.mpr fun i _ => .same i

theorem Fragment.Moved.all {f f' : Fragment} (moved : f.Moved R f') :
    Code.Moved R f.all f'.all :=
  moved.inline.append (List.rel_flatten moved.bodies)

/-! Two lowerings side by side. -/

namespace Lower

variable {α β γ δ : Type} {P : α → β → Prop} {Q : γ → δ → Prop}

/-- From every supply both lowerings fail with the same error, or both leave the same supply and
give values that are related. -/
def Alike (P : α → β → Prop) (x : Lower α) (y : Lower β) : Prop :=
  ∀ s, (∃ e, x.run s = .error e ∧ y.run s = .error e) ∨
    ∃ a b t, Yields x s a t ∧ Yields y s b t ∧ P a b

theorem run_bind_error {x : Lower α} {f : α → Lower γ} {s : Supply} {e : CodeError}
    (failed : x.run s = .error e) : (x >>= f).run s = .error e := by
  rw [StateT.run_bind, failed]
  rfl

theorem run_bind_yields {x : Lower α} (f : α → Lower γ) {s t : Supply} {a : α}
    (done : Yields x s a t) : (x >>= f).run s = (f a).run t := by
  have run : x.run s = .ok (a, t) := done
  rw [StateT.run_bind, run]
  rfl

theorem Alike.bind {x : Lower α} {y : Lower β} {f : α → Lower γ} {g : β → Lower δ}
    (first : Alike P x y) (next : ∀ a b, P a b → Alike Q (f a) (g b)) :
    Alike Q (x >>= f) (y >>= g) := by
  intro s
  rcases first s with ⟨e, one, other⟩ | ⟨a, b, t, one, other, related⟩
  · exact .inl ⟨e, run_bind_error one, run_bind_error other⟩
  · have rest := next a b related t
    simpa only [Yields, run_bind_yields f one, run_bind_yields g other] using rest

theorem alike_pure {a : α} {b : β} (related : P a b) : Alike P (pure a) (pure b) :=
  fun s => .inr ⟨a, b, s, rfl, rfl, related⟩

theorem alike_fail (e : CodeError) : Alike P (fail e) (fail e) := fun _ => .inl ⟨e, rfl, rfl⟩

theorem alike_same {P : α → α → Prop} (x : Lower α) (self : ∀ a, P a a) : Alike P x x := by
  intro s
  cases run : x.run s with
  | error e => exact .inl ⟨e, rfl, rfl⟩
  | ok result => exact .inr ⟨result.1, result.1, result.2, run, run, self _⟩

theorem alike_after (x : Lower α) {f : α → Lower γ} {g : α → Lower δ}
    (next : ∀ a, Alike Q (f a) (g a)) : Alike Q (x >>= f) (x >>= g) := by
  refine (alike_same x fun a => Eq.refl a).bind ?_
  rintro a _ rfl
  exact next a

end Lower

/-- The relation allows what two global frames lead to: their own addresses, and the addresses in
them of the classes that objects are made of. -/
structure Bases (R : Word → Word → Prop) (g g' : Word) (creates : String → Binding → Prop) :
    Prop where
  frame : R g g'
  slot : ∀ {cls b layout}, creates cls b → b.ty = .cls layout →
    R (g + b.offset) (g' + b.offset)

theorem Bases.mono {g g' : Word} {creates fewer : String → Binding → Prop}
    (bases : Bases R g g' creates) (sub : ∀ {cls b}, fewer cls b → creates cls b) :
    Bases R g g' fewer :=
  ⟨bases.frame, fun creation => bases.slot (sub creation)⟩

variable {g g' : Word}

theorem Use.moved_frame (frame : R g g') (u : Use) :
    List.Forall₂ (Symbolic.Moved R) (u.frame g) (u.frame g') := by
  unfold Use.frame
  split
  · exact .cons (.push frame) .nil
  · exact moved_refl _

theorem Ident.alike_code (frame : R g g') (line : Line) (i : Ident) :
    Alike (List.Forall₂ (Symbolic.Moved R)) (i.code g line) (i.code g' line) := by
  unfold Ident.code
  split
  · exact alike_fail _
  · exact alike_pure (List.rel_append (Use.moved_frame frame _) (moved_refl _))

namespace Expr

theorem parts_bases {e part : Expr} (bases : Bases R g g' fun cls b => e.Creates cls b)
    (mem : part ∈ e.parts) : Bases R g g' fun cls b => part.Creates cls b :=
  bases.mono (.inside mem)

mutual

theorem alike_code : (e : Expr) → Bases R g g' (fun cls b => e.Creates cls b) →
    Alike (Code.Moved R) (e.code g) (e.code g')
  | .int _ _, _ | .bool _ _, _ | .null _, _ => by
    rw [code, code]
    exact alike_pure (.refl _)
  | .id line ident, bases => by
    rw [code, code]
    exact (ident.alike_code bases.frame line).bind fun _ _ moved => alike_pure (.onLine line moved)
  | .call line callee args, bases => by
    rw [code, code]
    split
    · exact alike_fail _
    · rename_i use _
      refine (alike_argsBackward args fun _ mem => parts_bases bases mem).bind ?_
      intro one other moved
      exact alike_pure (((Code.Moved.refl _).append moved).append
        (.onLine line (List.rel_append (use.moved_frame bases.frame) (moved_refl _))))
  | .binary _ op lhs rhs, bases => by
    have left := alike_code lhs (parts_bases bases (by simp [parts]))
    have right := alike_code rhs (parts_bases bases (by simp [parts]))
    rw [code, code]
    split
    · refine alike_after _ fun _ => left.bind fun _ _ left => right.bind fun _ _ right => ?_
      exact alike_pure (((((left.append (.refl _)).append right).append (.refl _)).append
        (.refl _)).append (.refl _) |>.append (.refl _))
    · refine left.bind fun _ _ left => right.bind fun _ _ right => alike_after _ fun _ => ?_
      exact alike_pure ((left.append right).append (.refl _))
  | .not _ operand, bases => by
    rw [code, code]
    refine (alike_code operand (parts_bases bases (by simp [parts]))).bind fun _ _ moved => ?_
    exact alike_after _ fun _ => alike_pure ((moved.append (.refl _)).append (.refl _))
  | .cond _ test yes no, bases => by
    have first := alike_code test (parts_bases bases (by simp [parts]))
    have second := alike_code no (parts_bases bases (by simp [parts]))
    have third := alike_code yes (parts_bases bases (by simp [parts]))
    rw [code, code]
    refine alike_after _ fun _ => first.bind fun _ _ test => second.bind fun _ _ no =>
      third.bind fun _ _ yes => ?_
    exact alike_pure ((((((test.append (.refl _)).append no).append (.refl _)).append
      (.refl _)).append yes).append (.refl _))
  | .print _ operand, bases => by
    rw [code, code]
    refine (alike_code operand (parts_bases bases (by simp [parts]))).bind fun _ _ moved => ?_
    exact alike_pure (moved.append (.refl _))
  | .new line cls args none, _ => by
    rw [code, code]
    exact alike_fail _
  | .new line cls args (some b), bases => by
    rw [code, code]
    cases shape : b.ty with
    | cls layout =>
      refine (alike_argsForward args fun _ mem => parts_bases bases mem).bind ?_
      intro one other moved
      -- Besides the frame itself, only the slot of the class is pushed by its address.
      have slot := bases.slot (.here line args) shape
      refine alike_pure (moved.append (.onLine line ?_))
      exact List.rel_append (List.rel_append (moved_refl _) (.cons (.push slot) (moved_refl _)))
        (moved_refl _)
    | _ => exact alike_fail _
  | .send line object method args none, _ => by
    rw [code, code]
    exact alike_fail _
  | .send line object method args (some b), bases => by
    rw [code, code]
    refine (alike_argsBackward args fun _ mem => parts_bases bases mem).bind fun _ _ moved =>
      (object.alike_code bases.frame line).bind fun _ _ receiver => ?_
    exact alike_pure (((Code.Moved.refl _).append moved).append
      (.onLine line (List.rel_append receiver (moved_refl _))))
  | .get line object field none, _ => by
    rw [code, code]
    exact alike_fail _
  | .get line object field (some b), bases => by
    rw [code, code]
    refine (object.alike_code bases.frame line).bind fun _ _ receiver => ?_
    exact alike_pure (.onLine line (List.rel_append receiver (moved_refl _)))

theorem alike_argsForward : (args : List Expr) →
    (∀ arg ∈ args, Bases R g g' fun cls b => arg.Creates cls b) →
    Alike (Code.Moved R) (argsForward g args) (argsForward g' args)
  | [], _ => alike_pure .nil
  | arg :: args, bases => by
    refine (alike_code arg (bases arg List.mem_cons_self)).bind fun _ _ head =>
      (alike_argsForward args fun arg mem => bases arg (List.mem_cons_of_mem _ mem)).bind
        fun _ _ tail => ?_
    exact alike_pure (head.append tail)

theorem alike_argsBackward : (args : List Expr) →
    (∀ arg ∈ args, Bases R g g' fun cls b => arg.Creates cls b) →
    Alike (Code.Moved R) (argsBackward g args) (argsBackward g' args)
  | [], _ => alike_pure .nil
  | arg :: args, bases => by
    refine (alike_argsBackward args fun arg mem => bases arg (List.mem_cons_of_mem _ mem)).bind
      fun _ _ tail => (alike_code arg (bases arg List.mem_cons_self)).bind fun _ _ head => ?_
    exact alike_pure (tail.append head)

end

end Expr

namespace Decl

mutual

theorem alike_code : (d : Decl) → Bases R g g' (fun cls b => d.Creates cls b) →
    Alike (Fragment.Moved R) (d.code g) (d.code g')
  | .var ⟨line, name, ty, init⟩, bases => by
    rw [code, code]
    exact (init.alike_code bases).bind fun _ _ moved => alike_pure ⟨moved, .nil⟩
  | .fn routine, bases => by
    rw [code, code]
    refine alike_after _ fun _ => (alike_routineCode _ routine bases).bind fun _ _ moved => ?_
    exact alike_pure ⟨.refl _, moved⟩
  | .cls ⟨line, name, parent, fields, methods, binding, parentBinding⟩, bases => by
    rw [code, code]
    refine alike_after _ fun _ => alike_after _ fun _ => alike_after _ fun _ =>
      (alike_methodsCode _ methods bases).bind fun _ _ moved => ?_
    exact alike_pure ⟨.refl _, moved⟩

theorem alike_routineCode (entry : Label) : (r : Routine) →
    Bases R g g' (fun cls b => RoutineCreates cls b r) →
    Alike (List.Forall₂ (Code.Moved R)) (routineCode g entry r) (routineCode g' entry r)
  | ⟨line, name, ret, params, locals, body⟩, bases => by
    rw [routineCode, routineCode]
    refine (alike_allCode locals (bases.mono .inl)).bind fun _ _ inner =>
      (body.alike_code (bases.mono .inr)).bind fun _ _ result => ?_
    refine alike_pure (List.rel_append inner.bodies (.cons ?_ .nil))
    exact (((Code.Moved.refl _).append inner.inline).append result).append (.refl _)

theorem alike_methodsCode (first : Nat) : (methods : List Method) →
    Bases R g g' (fun cls b => MethodsCreate cls b methods) →
    Alike (List.Forall₂ (Code.Moved R)) (methodsCode g first methods)
      (methodsCode g' first methods)
  | [], _ => alike_pure .nil
  | ⟨routine, _⟩ :: methods, bases => by
    rw [methodsCode, methodsCode]
    refine (alike_routineCode _ routine (bases.mono .inl)).bind fun _ _ head =>
      (alike_methodsCode _ methods (bases.mono .inr)).bind fun _ _ tail => ?_
    exact alike_pure (List.rel_append head tail)

theorem alike_allCode : (ds : List Decl) → Bases R g g' (fun cls b => AllCreate cls b ds) →
    Alike (Fragment.Moved R) (allCode g ds) (allCode g' ds)
  | [], _ => alike_pure ⟨.nil, .nil⟩
  | d :: ds, bases => by
    rw [allCode, allCode]
    refine (alike_code d (bases.mono .inl)).bind fun _ _ head =>
      (alike_allCode ds (bases.mono .inr)).bind fun _ _ tail => ?_
    exact alike_pure ⟨head.inline.append tail.inline, List.rel_append head.bodies tail.bodies⟩

end

end Decl

theorem Program.alike_code (p : Program) (bases : Bases R g g' fun cls b => p.Creates cls b) :
    Alike (Fragment.Moved R) (p.code g) (p.code g') := by
  unfold Program.code
  refine (Decl.alike_allCode p.decls (bases.mono .inl)).bind fun _ _ decls =>
    (p.body.alike_code (bases.mono .inr)).bind fun _ _ result => ?_
  exact alike_pure
    ⟨(((Code.Moved.refl _).append decls.inline).append result).append (.refl _), decls.bodies⟩

/-! Instructions whose pushed words differ. -/

namespace Instr

theorem Moved.op_eq {i j : Instr} (moved : i.Moved R j) : i.op = j.op := by
  cases moved <;> rfl

theorem Moved.length_words {i j : Instr} (moved : i.Moved R j) :
    i.words.length = j.words.length := by
  cases moved <;> rfl

variable {code code' : List Instr}

theorem length_encode_moved (moved : List.Forall₂ (Moved R) code code') :
    (encode code).length = (encode code').length := by
  induction moved with
  | nil => rfl
  | cons head _ ih => simp [head.length_words, ih]

def MovedRow (R : Word → Word → Prop) (row row' : Nat × Instr) : Prop :=
  row.1 = row'.1 ∧ row.2.op = row'.2.op ∧ row.2.Moved R row'.2

theorem numbered_moved (moved : List.Forall₂ (Moved R) code code') (address : Nat) :
    List.Forall₂ (MovedRow R) (numbered address code) (numbered address code') := by
  induction moved generalizing address with
  | nil => simp
  | cons head _ ih =>
    rw [numbered_cons, numbered_cons, head.op_eq]
    exact .cons ⟨rfl, head.op_eq, head⟩ (ih _)

def PushedAt (R : Word → Word → Prop) (rows rows' : List (Nat × Instr)) (address : Nat)
    (w w' : Word) : Prop :=
  ∃ start, address = start + 1 ∧ R w w' ∧ (start, ⟨.push, some w⟩) ∈ rows ∧
    (start, ⟨.push, some w'⟩) ∈ rows'

theorem PushedAt.cons {rows rows' : List (Nat × Instr)} {address : Nat} {w w' : Word}
    (pushed : PushedAt R rows rows' address w w') (row row' : Nat × Instr) :
    PushedAt R (row :: rows) (row' :: rows') address w w' := by
  obtain ⟨start, next, related, one, other⟩ := pushed
  exact ⟨start, next, related, List.mem_cons_of_mem _ one, List.mem_cons_of_mem _ other⟩

theorem words_moved (moved : List.Forall₂ (Moved R) code code') (whole : ∀ i ∈ code, i.Whole)
    (start place : Nat) :
    (encode code)[place]? = (encode code')[place]? ∨
      ∃ w w', (encode code)[place]? = some w ∧ (encode code')[place]? = some w' ∧
        PushedAt R (numbered start code) (numbered start code') (start + place) w w' := by
  induction moved generalizing start place with
  | nil => exact .inl rfl
  | @cons i j code code' head _ ih =>
    rw [List.forall_mem_cons] at whole
    have long := whole.1.length
    rw [encode_cons, encode_cons, numbered_cons, numbered_cons, ← head.op_eq]
    by_cases first : place < i.words.length
    · rw [List.getElem?_append_left first, List.getElem?_append_left (head.length_words ▸ first)]
      cases head with
      | same => exact .inl rfl
      | @push w w' related =>
        -- The opcode is the same, and the operand comes after it.
        match place, first with
        | 0, _ => exact .inl rfl
        | 1, _ => exact .inr ⟨w, w', rfl, rfl, start, rfl, related, by simp⟩
    · have later : i.words.length ≤ place := Nat.le_of_not_lt first
      rw [List.getElem?_append_right later, List.getElem?_append_right (head.length_words ▸ later),
        ← head.length_words]
      rcases ih whole.2 (start + i.op.width) (place - i.words.length) with
        same | ⟨w, w', one, other, pushed⟩
      · exact .inl same
      · have address : start + i.op.width + (place - i.words.length) = start + place := by omega
        rw [address] at pushed
        exact .inr ⟨w, w', one, other, pushed.cons _ _⟩

end Instr

/-- Two programs of one length, with the same lines, and with the same opcodes at the same
addresses. Their words differ only in operands of pushes, and there as the relation allows. -/
structure Image.Moved (R : Word → Word → Prop) (p q : Image) : Prop where
  size : p.size = q.size
  lines : p.lines = q.lines
  instructions : ∃ rows rows', p.instructions = .ok rows ∧ q.instructions = .ok rows' ∧
    List.Forall₂ (Instr.MovedRow R) rows rows' ∧
    ∀ address, p.words[address]? = q.words[address]? ∨
      ∃ w w', p.words[address]? = some w ∧ q.words[address]? = some w' ∧
        Instr.PushedAt R rows rows' address w w'

/-! Layout. -/

theorem Symbolic.Moved.op_eq {i j : Symbolic} (moved : i.Moved R j) : i.op = j.op := by
  cases moved <;> rfl

theorem Symbolic.Moved.assembled {i j : Symbolic} (moved : i.Moved R j)
    (target? : Label → Option Nat) :
    Instr.Moved R (i.assembled target?) (j.assembled target?) := by
  cases moved with
  | same => exact .same _
  | push related => exact .push related

theorem Code.words_of_layout_eq_ok {c : Code} {image : Image} (done : c.layout = .ok image) :
    image.words = Instr.encode (c.entries.map fun entry => entry.1.assembled c.target?) := by
  obtain ⟨_, rfl⟩ := layout_eq_ok.mp done
  rw [Image.words_ofInstrs, List.map_map]
  rfl

namespace Code.Moved

variable {c d : Code}

theorem place_eq (moved : Code.Moved R c d) (labels : Labels) (address : Nat) :
    place labels address c = place labels address d := by
  induction moved generalizing labels address with
  | nil => rfl
  | cons head _ ih =>
    cases head with
    | mark l => exact ih _ _
    | instr moved line =>
      rw [place, place, moved.op_eq]
      exact ih _ _

theorem target?_eq (moved : Code.Moved R c d) : c.target? = d.target? := by
  rw [← address?_place, ← address?_place, moved.place_eq]

theorem assembled (moved : Code.Moved R c d) (target? : Label → Option Nat) :
    List.Forall₂ (Instr.Moved R) (c.entries.map fun entry => entry.1.assembled target?)
      (d.entries.map fun entry => entry.1.assembled target?) := by
  induction moved with
  | nil => exact .nil
  | cons head _ ih =>
    cases head with
    | mark l => exact ih
    | instr moved line => exact .cons (moved.assembled target?) ih

theorem lines_eq (moved : Code.Moved R c d) :
    (c.entries.flatMap fun entry => List.replicate entry.1.op.width entry.2) =
      d.entries.flatMap fun entry => List.replicate entry.1.op.width entry.2 := by
  induction moved with
  | nil => rfl
  | cons head _ ih =>
    cases head with
    | mark l => exact ih
    | instr moved line => simp only [entries_instr, List.flatMap_cons, moved.op_eq, ih]

theorem layout {image image' : Image} (moved : Code.Moved R c d)
    (formed : ∀ item ∈ c, item.formed = true) (formed' : ∀ item ∈ d, item.formed = true)
    (done : c.layout = .ok image) (done' : d.layout = .ok image') : image.Moved R image' := by
  have rows := instructions_of_layout_eq_ok formed done
  have rows' := instructions_of_layout_eq_ok formed' done'
  have words := words_of_layout_eq_ok done
  have words' := words_of_layout_eq_ok done'
  rw [← moved.target?_eq] at rows' words'
  have code := moved.assembled c.target?
  have whole : ∀ i ∈ c.entries.map fun entry => entry.1.assembled c.target?, i.Whole := by
    rw [List.forall_mem_map]
    intro entry listed
    exact whole_of_mem_entries formed (layout_eq_ok.mp done).1 listed
  refine ⟨?_, ?_, _, _, rows, rows', Instr.numbered_moved code 0, ?_⟩
  · rw [Image.size, Image.size, words, words', Instr.length_encode_moved code]
  · rw [lines_of_layout_eq_ok formed done, lines_of_layout_eq_ok formed' done', moved.lines_eq]
  · intro address
    have differ := Instr.words_moved code whole 0 address
    rwa [Nat.zero_add, ← words, ← words'] at differ

end Code.Moved

/-! Two memory sizes. -/

namespace Program

/-- The offsets in the global frame that code reaches by their addresses: the frame's own start, and
the slots of the classes that the program makes objects of. -/
def Reached (p : Program) (offset : Word) : Prop :=
  offset = 0 ∨ ∃ cls b layout, p.resolve.program.Creates cls b ∧
    p.context.scopes.lookupGlobal cls = some b ∧ b.ty = .cls layout ∧ offset = b.offset

def Shifted (p : Program) (base base' w w' : Word) : Prop :=
  ∃ offset, p.Reached offset ∧ w = base + offset ∧ w' = base' + offset

theorem bases_shifted {p : Program} (accepted : p.resolve.errors = []) (base base' : Word) :
    Bases (p.Shifted base base') base base' fun cls b => p.resolve.program.Creates cls b where
  frame := ⟨0, .inl rfl, (Int32.add_zero _).symm, (Int32.add_zero _).symm⟩
  slot := by
    intro cls b layout creates shape
    have global := creates_global accepted creates
    exact ⟨b.offset, .inr ⟨cls, b, layout, creates, global, shape, rfl⟩, rfl, rfl⟩

/-- An accepted program has code for both memory sizes, or for neither and for the same reason. The
two differ only in words that are pushed. Such a word is at the same offset from both sizes, and the
offset is 0 or the global offset of a class that the program makes objects of. -/
theorem lower_relocates (p : Program) (accepted : p.resolve.errors = []) (size size' : Nat)
    (small : size < Word.limit) (small' : size' < Word.limit) :
    (∃ e, p.resolve.program.lower size = .error e ∧ p.resolve.program.lower size' = .error e) ∨
      ∃ image image', p.resolve.program.lower size = .ok image ∧
        p.resolve.program.lower size' = .ok image' ∧
        image.Moved (p.Shifted (Int32.ofNat size) (Int32.ofNat size')) image' := by
  rw [← Word.ofSize_eq small, ← Word.ofSize_eq small']
  have bases := bases_shifted accepted (Word.ofSize size) (Word.ofSize size')
  rcases p.resolve.program.alike_code bases {} with
    ⟨e, failed, failed'⟩ | ⟨f, f', t, done, done', moved⟩
  · left
    refine ⟨e, ?_, ?_⟩
    · simp [lower, failed, bind, Except.bind]
    · simp [lower, failed', bind, Except.bind]
  · obtain ⟨image, laid, _⟩ := layout_code done
    obtain ⟨image', laid', _⟩ := layout_code done'
    refine .inr ⟨image, image', (lower_eq done).trans laid, (lower_eq done').trans laid', ?_⟩
    exact moved.all.layout (labelled_code done).formed (labelled_code done').formed laid laid'

def readsGlobal : Program where
  decls := [
    .var ⟨1, "x", .int, .int 1 7⟩,
    .cls ⟨2, "A", none, [], [⟨⟨3, "m", .int, [], [], .id 3 ⟨"x", none⟩⟩, 0⟩], none, none⟩,
    .var ⟨4, "a", .ref "A", .new 4 "A" [] none⟩]
  body := .send 5 ⟨"a", none⟩ "m" [] none

theorem lower_relocates_readsGlobal :
    readsGlobal.resolve.errors = [] ∧
    ∃ image image', readsGlobal.resolve.program.lower 1000 = .ok image ∧
      readsGlobal.resolve.program.lower 2147483647 = .ok image' ∧ image ≠ image' ∧
      image.Moved (readsGlobal.Shifted 1000 2147483647) image' := by
  have accepted : readsGlobal.resolve.errors = [] := by decide +kernel
  have differ : (readsGlobal.resolve.program.lower 1000).toOption ≠
      (readsGlobal.resolve.program.lower 2147483647).toOption := by
    decide +kernel
  rcases readsGlobal.lower_relocates accepted 1000 2147483647 (by decide) (by decide) with
    ⟨e, failed, failed'⟩ | ⟨image, image', done, done', moved⟩
  · rw [failed, failed'] at differ
    exact absurd rfl differ
  · rw [done, done'] at differ
    exact ⟨accepted, image, image', done, done', fun same => differ (congrArg some same), moved⟩

end Program

end ObjectLang
