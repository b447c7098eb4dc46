import ObjectLang.Proofs.Code.Layout

/-!
Numbers of labels. Code that sets labels aside takes at least as many words, so the labels of a
program have numbers below the number of its words.
-/
namespace ObjectLang

open Symbolic Lower

theorem Code.length_le_width (line : Line) (code : List Symbolic) :
    code.length ≤ Code.width (onLine line code) := by
  induction code with
  | nil => exact Nat.le_refl 0
  | cons i code ih =>
    have wide := i.op.width_pos
    have split : Code.width (onLine line (i :: code)) =
        i.op.width + Code.width (onLine line code) := Code.width_instr i line _
    rw [List.length_cons]
    omega

theorem two_le_width_select (line : Line) (op : Opcode) (taken otherwise : Word)
    (yes done : Label) : 2 ≤ Code.width (selectItems line op taken otherwise yes done) := by
  have long := Code.length_le_width line [branch op yes, push otherwise, branch .branch done]
  simp only [List.length_cons, List.length_nil] at long
  simp only [selectItems, Code.width_append]
  omega

theorem BinaryOp.next_le {line : Line} {op : BinaryOp} {s t : Supply} {c : Code}
    (lowered : Yields (op.code line) s c t) : t.next ≤ s.next + c.width := by
  cases op with
  | add | sub | mul | div | and | or =>
    simp only [code, yields_pure] at lowered
    obtain ⟨_, rfl⟩ := lowered
    omega
  | eq | le =>
    simp only [code, yields_selectCode] at lowered
    obtain ⟨rfl, rfl⟩ := lowered
    exact Nat.add_le_add_left (two_le_width_select ..) _
  | ge =>
    simp only [code, yields_bind, yields_pure, yields_selectCode] at lowered
    obtain ⟨_, _, ⟨rfl, rfl⟩, rfl, rfl⟩ := lowered
    rw [Code.width_append, Nat.add_left_comm]
    exact Nat.le_add_left_of_le (Nat.add_le_add_left (two_le_width_select ..) _)

namespace Expr

variable {g : Word}

mutual

theorem next_le : (e : Expr) → ∀ {s t : Supply} {c : Code}, Yields (e.code g) s c t →
    t.next ≤ s.next + c.width
  | .int _ _ | .bool _ _ | .null _ => by
    intro lowered
    simp only [yields_int, yields_bool, yields_null] at lowered
    obtain ⟨_, rfl⟩ := lowered
    omega
  | .id _ _ => by
    intro lowered
    obtain ⟨_, _, _, rfl⟩ := yields_id.mp lowered
    omega
  | .get _ _ _ _ => by
    intro lowered
    obtain ⟨_, _, _, _, _, rfl⟩ := yields_get.mp lowered
    omega
  | .call _ _ args => by
    intro lowered
    obtain ⟨_, _, _, inner, rfl⟩ := yields_call.mp lowered
    have own := next_le_backward args inner
    simp only [Code.width_append]
    omega
  | .send _ _ _ args _ => by
    intro lowered
    obtain ⟨_, _, _, _, _, inner, rfl⟩ := yields_send.mp lowered
    have own := next_le_backward args inner
    simp only [Code.width_append]
    omega
  | .new _ _ args _ => by
    intro lowered
    obtain ⟨_, _, _, _, _, inner, rfl⟩ := yields_new.mp lowered
    have own := next_le_forward args inner
    simp only [Code.width_append]
    omega
  | .print _ operand => by
    intro lowered
    obtain ⟨_, inner, rfl⟩ := yields_print.mp lowered
    have own := next_le operand inner
    simp only [Code.width_append]
    omega
  | .not _ operand => by
    intro lowered
    obtain ⟨_, u, inner, rfl, rfl⟩ := yields_not.mp lowered
    have own := next_le operand inner
    have chosen := two_le_width_select operand.endLine .branchEq 0 1 ⟨u.next⟩ ⟨u.next + 1⟩
    simp only [Code.width_append]
    omega
  | .binary _ op lhs rhs => by
    intro lowered
    cases logical : op.isLogical with
    | true =>
      obtain ⟨_, _, _, first, second, rfl⟩ := (yields_logical logical).mp lowered
      have left := next_le lhs first
      have right := next_le rhs second
      have jumps (l : Line) (decided : Label) :
          Code.width (onLine l [push op.deciding, branch .branchEq decided]) = 4 := rfl
      simp only [logicalItems, Code.width_append, jumps]
      simp only at left
      omega
    | false =>
      obtain ⟨_, _, _, _, _, first, second, third, rfl⟩ := (yields_binary logical).mp lowered
      have left := next_le lhs first
      have right := next_le rhs second
      have own := BinaryOp.next_le third
      simp only [Code.width_append]
      omega
  | .cond _ test yes no => by
    intro lowered
    obtain ⟨_, _, _, _, _, first, second, third, rfl⟩ := yields_cond.mp lowered
    have chooses := next_le test first
    have otherwise := next_le no second
    have taken := next_le yes third
    have jumps (l : Line) (decided : Label) :
        Code.width (onLine l [push 1, branch .branchEq decided]) = 4 := rfl
    simp only [condItems, Code.width_append, jumps]
    simp only at chooses
    omega

theorem next_le_forward : (args : List Expr) → ∀ {s t : Supply} {c : Code},
    Yields (argsForward g args) s c t → t.next ≤ s.next + c.width
  | [] => by
    intro lowered
    obtain ⟨rfl, rfl⟩ := yields_argsForward_nil.mp lowered
    omega
  | arg :: args => by
    intro lowered
    obtain ⟨_, _, _, first, second, rfl⟩ := yields_argsForward_cons.mp lowered
    have head := next_le arg first
    have tail := next_le_forward args second
    rw [Code.width_append]
    omega

theorem next_le_backward : (args : List Expr) → ∀ {s t : Supply} {c : Code},
    Yields (argsBackward g args) s c t → t.next ≤ s.next + c.width
  | [] => by
    intro lowered
    obtain ⟨rfl, rfl⟩ := yields_argsBackward_nil.mp lowered
    omega
  | arg :: args => by
    intro lowered
    obtain ⟨_, _, _, first, second, rfl⟩ := yields_argsBackward_cons.mp lowered
    have tail := next_le_backward args first
    have head := next_le arg second
    rw [Code.width_append]
    omega

end

end Expr

namespace Decl

variable {g : Word}

mutual

theorem next_le : (d : Decl) → ∀ {s t : Supply} {f : Fragment}, Yields (d.code g) s f t →
    t.next ≤ s.next + f.all.width
  | .var decl => by
    intro lowered
    obtain ⟨_, inner, rfl⟩ := yields_var.mp lowered
    have own := Expr.next_le decl.init inner
    simp only [Fragment.all, Code.width_append]
    omega
  | .fn routine => by
    intro lowered
    obtain ⟨_, inner, rfl⟩ := yields_fn.mp lowered
    have own := next_le_routine routine inner
    simp only [Fragment.all, Code.width_append] at own ⊢
    omega
  | .cls ⟨line, name, parent, fields, methods, binding, parentBinding⟩ => by
    intro lowered
    obtain ⟨_, inner, rfl⟩ := yields_cls.mp lowered
    have own := next_le_methods methods inner
    simp only [Fragment.all, Code.width_append, methodSupply] at own ⊢
    omega

/-- The words of a body pay for its entry label too, which was set aside before. -/
theorem next_le_routine {entry : Label} : (r : Routine) → ∀ {s t : Supply} {bodies : List Code},
    Yields (routineCode g entry r) s bodies t → t.next + 1 ≤ s.next + Code.width bodies.flatten
  | ⟨line, name, ret, params, locals, body⟩ => by
    intro lowered
    obtain ⟨_, _, _, first, second, rfl⟩ := yields_routineCode.mp lowered
    have inner := next_le_all locals first
    have result := Expr.next_le body second
    have opening : Code.width (onLine line Routine.prologue) = 2 := rfl
    simp only [Fragment.all, routineItems, List.flatten_append, List.flatten_singleton,
      Code.width_append, opening] at inner ⊢
    omega

theorem next_le_methods : (methods : List Method) → ∀ {first : Nat} {s t : Supply}
    {bodies : List Code}, Yields (methodsCode g first methods) s bodies t →
      t.next + methods.length ≤ s.next + Code.width bodies.flatten
  | [] => by
    intro lowered
    obtain ⟨rfl, rfl⟩ := yields_methodsCode_nil.mp lowered
    exact Nat.le_refl _
  | ⟨routine, _⟩ :: methods => by
    intro lowered
    obtain ⟨_, _, _, one, others, rfl⟩ := yields_methodsCode_cons.mp lowered
    have head := next_le_routine routine one
    have tail := next_le_methods methods others
    rw [List.flatten_append, Code.width_append, List.length_cons]
    omega

theorem next_le_all : (ds : List Decl) → ∀ {s t : Supply} {f : Fragment},
    Yields (allCode g ds) s f t → t.next ≤ s.next + f.all.width
  | [] => by
    intro lowered
    obtain ⟨rfl, rfl⟩ := yields_allCode_nil.mp lowered
    exact Nat.le_refl _
  | d :: ds => by
    intro lowered
    obtain ⟨_, _, _, one, others, rfl⟩ := yields_allCode_cons.mp lowered
    have head := next_le d one
    have tail := next_le_all ds others
    simp only [Fragment.all, List.flatten_append, Code.width_append] at head tail ⊢
    omega

end

end Decl

namespace Program

variable {p : Program} {g : Word} {f : Fragment} {t : Supply}

theorem next_le_width (lowered : Yields (p.code g) {} f t) : t.next ≤ f.all.width := by
  obtain ⟨_, _, _, first, second, rfl⟩ := yields_code.mp lowered
  have decls := Decl.next_le_all p.decls first
  have body := Expr.next_le p.body second
  simp only [Fragment.all, Code.width_append] at decls ⊢
  omega

/-- Labels of a program are numbered below the number of its words, those that are set aside and
those that its code marks or refers to. -/
theorem label_lt_size {size : Nat} {image : Image} (done : p.lower size = .ok image)
    (lowered : Yields (p.code (Word.ofSize size)) {} f t) :
    t.next ≤ image.size ∧ ∀ l, l ∈ f.all.marks ∨ l ∈ f.all.refs → l.id < image.size := by
  obtain ⟨laid, layout, long, _⟩ := layout_code lowered
  rw [lower_eq lowered, layout, Except.ok.injEq] at done
  rw [← done, long]
  have below := next_le_width lowered
  have labelled := labelled_code lowered
  have marked : ∀ l ∈ f.all.marks, l.id < t.next := by
    intro l mem
    have count : 0 < f.all.markCount l := List.count_pos_iff.mpr mem
    have once := labelled.once l
    simp only [Label.within] at once
    split at once <;> omega
  refine ⟨below, ?_⟩
  intro l mem
  rcases mem with mem | mem
  · exact Nat.lt_of_lt_of_le (marked l mem) below
  · exact Nat.lt_of_lt_of_le (marked l (bound_code lowered l mem)) below

end Program

end ObjectLang
