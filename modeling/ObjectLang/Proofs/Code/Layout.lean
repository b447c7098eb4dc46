import Mathlib.Data.List.Nodup
import ObjectLang.Proofs.Code.Labels

/-!
Layout of symbolic code. If every label that code refers to is marked, and none is marked twice,
then the code can be laid out, and in the resulting words every instruction stands at its place
with the address of its label for an operand. Code generated from a tree is of this kind.
-/
namespace ObjectLang

open Symbolic Lower

theorem Labels.address?_bind_self {t : Labels} {l : Label} (address : Nat)
    (free : t.address? l = none) : (t.bind l address).address? l = some address := by
  unfold bind bind?
  rw [free]
  simp [address?]

theorem Labels.address?_bind_of_ne (t : Labels) {l other : Label} (address : Nat) (ne : l ≠ other) :
    (t.bind other address).address? l = t.address? l := by
  unfold bind bind?
  have differs : (l == other) = false := by simp [ne]
  split
  · rfl
  · simp [address?, List.lookup_cons, differs]

def Symbolic.At (words : Array Word) (labels : Labels) (address : Nat) (i : Symbolic) : Prop :=
  words[address]? = some i.op.toWord ∧
    match i.operand with
    | .none => True
    | .value w => words[address + 1]? = some w
    | .label l => ∃ target, labels.address? l = some target ∧
      words[address + 1]? = some (Int32.ofNat target)

namespace Code

def width : Code → Nat
  | [] => 0
  | item :: c => item.width + width c

@[simp] theorem width_nil : width [] = 0 := rfl

@[simp] theorem width_append (c d : Code) : width (c ++ d) = width c + width d := by
  induction c with
  | nil => simp
  | cons item c ih => simp [width, ih, Nat.add_assoc]

@[simp] theorem width_mark (l : Label) (c : Code) : width (.mark l :: c) = width c := by
  simp [width, Item.width]

@[simp] theorem width_instr (i : Symbolic) (line : Line) (c : Code) :
    width (.instr i line :: c) = i.op.width + width c := by
  simp [width, Item.width]

/-- The code stands in the program at an address, and its marks are the places of their labels. -/
def At (words : Array Word) (labels : Labels) : Nat → Code → Prop
  | _, [] => True
  | address, .mark l :: c => labels.address? l = some address ∧ At words labels address c
  | address, .instr i _ :: c =>
    i.At words labels address ∧ At words labels (address + i.op.width) c

variable {words : Array Word} {labels : Labels} {address : Nat}

@[simp] theorem at_nil : At words labels address [] := trivial

@[simp] theorem at_mark {l : Label} {c : Code} :
    At words labels address (.mark l :: c) ↔
      labels.address? l = some address ∧ At words labels address c := Iff.rfl

@[simp] theorem at_instr {i : Symbolic} {line : Line} {c : Code} :
    At words labels address (.instr i line :: c) ↔
      i.At words labels address ∧ At words labels (address + i.op.width) c := Iff.rfl

@[simp] theorem at_append {c d : Code} :
    At words labels address (c ++ d) ↔
      At words labels address c ∧ At words labels (address + width c) d := by
  induction c generalizing address with
  | nil => simp
  | cons item c ih =>
    cases item with
    | mark l => simp [ih, and_assoc]
    | instr i line => simp [ih, and_assoc, Nat.add_assoc]

theorem place_keeps {c : Code} {l : Label} {target : Nat}
    (bound : labels.address? l = some target) : (place labels address c).address? l = some target := by
  induction c generalizing labels address with
  | nil => exact bound
  | cons item c ih =>
    cases item with
    | instr i line => exact ih bound
    | mark other =>
      apply ih
      by_cases same : l = other
      · subst same
        simp [Labels.bind, Labels.bind?, bound]
      · rwa [labels.address?_bind_of_ne address same]

theorem place_le {c : Code} {l : Label} {target : Nat} (free : labels.address? l = none)
    (found : (place labels address c).address? l = some target) : target ≤ address + width c := by
  induction c generalizing labels address with
  | nil =>
    rw [place, free] at found
    cases found
  | cons item c ih =>
    cases item with
    | instr i line =>
      have bound := ih free found
      rw [width_instr]
      omega
    | mark other =>
      rw [width_mark]
      by_cases same : l = other
      · subst same
        rw [place, place_keeps (Labels.address?_bind_self address free), Option.some.injEq] at found
        omega
      · rw [← labels.address?_bind_of_ne address same] at free
        exact ih free found

theorem place_mark {c d : Code} {l : Label} (free : labels.address? l = none)
    (first : l ∉ marks c) :
    (place labels address (c ++ .mark l :: d)).address? l = some (address + width c) := by
  induction c generalizing labels address with
  | nil =>
    rw [List.nil_append, place]
    exact place_keeps (Labels.address?_bind_self address free)
  | cons item c ih =>
    cases item with
    | instr i line =>
      rw [List.cons_append, place, ih free first, width_instr]
      simp [Nat.add_assoc]
    | mark other =>
      rw [marks_mark, List.mem_cons, not_or] at first
      rw [← labels.address?_bind_of_ne address first.1] at free
      rw [List.cons_append, place, ih free first.2, width_mark]

theorem place_isSome {c : Code} {l : Label} (marked : l ∈ marks c) :
    ((place labels address c).address? l).isSome = true := by
  cases known : labels.address? l with
  | some target => simp [place_keeps known]
  | none =>
    induction c generalizing labels address with
    | nil => simp at marked
    | cons item c ih =>
      cases item with
      | instr i line => exact ih marked known
      | mark other =>
        by_cases same : l = other
        · subst same
          rw [place, place_keeps (Labels.address?_bind_self address known)]
          rfl
        · rw [← labels.address?_bind_of_ne address same] at known
          exact ih (by simpa [same] using marked) known

theorem resolve_succeeds {c : Code}
    (bound : ∀ l ∈ refs c, (labels.address? l).isSome = true) :
    ∃ resolved, resolve labels c = .ok resolved := by
  induction c with
  | nil => exact ⟨[], rfl⟩
  | cons item c ih =>
    cases item with
    | mark l => exact ih bound
    | instr i line =>
      obtain ⟨tail, rest⟩ := ih (fun l mem => bound l (by
        unfold refs at mem ⊢
        rw [List.filterMap_cons]
        split <;> simp_all))
      have head : ∃ instr, i.resolve labels = .ok instr := by
        unfold Symbolic.resolve
        cases operand : i.operand with
        | none => exact ⟨_, rfl⟩
        | value w => exact ⟨_, rfl⟩
        | label l =>
          have known := bound l (by simp [refs, Item.ref?, Symbolic.label?, operand])
          obtain ⟨target, found⟩ := Option.isSome_iff_exists.mp known
          exact ⟨⟨i.op, some (Int32.ofNat target)⟩, by simp only [found]⟩
      obtain ⟨instr, done⟩ := head
      exact ⟨(instr, line) :: tail, by simp [resolve, done, rest, bind, Except.bind]⟩

end Code

theorem Symbolic.words_length {labels : Labels} {i : Symbolic} {instr : Instr}
    (formed : i.formed = true) (done : i.resolve labels = .ok instr) :
    instr.words.length = i.op.width := by
  obtain ⟨op, operand⟩ := i
  simp only [Symbolic.resolve] at done
  simp only [Symbolic.formed, beq_iff_eq] at formed
  cases operand with
  | none =>
    cases done
    have bare : op.hasOperand = false := by simpa using formed
    simp [Instr.words, Opcode.width, bare]
  | value w =>
    cases done
    have takes : op.hasOperand = true := formed
    simp [Instr.words, Opcode.width, takes]
  | label l =>
    have takes : op.hasOperand = true := formed
    cases found : labels.address? l with
    | none => simp [found] at done
    | some target =>
      simp only [found, Except.ok.injEq] at done
      subst done
      simp [Instr.words, Opcode.width, takes]

theorem Symbolic.at_of_resolve {labels : Labels} {i : Symbolic} {instr : Instr}
    {before after : List Word} (done : i.resolve labels = .ok instr) :
    i.At (before ++ instr.words ++ after).toArray labels before.length := by
  obtain ⟨op, operand⟩ := i
  simp only [Symbolic.resolve] at done
  cases operand with
  | none =>
    cases done
    simp [Symbolic.At, Instr.words]
  | value w =>
    cases done
    simp [Symbolic.At, Instr.words]
  | label l =>
    cases found : labels.address? l with
    | none => simp [found] at done
    | some target =>
      simp only [found, Except.ok.injEq] at done
      subst done
      simp [Symbolic.At, Instr.words, found]

namespace Code

variable {labels : Labels}

theorem resolve_instr {i : Symbolic} {line : Line} {c : Code} {resolved : List (Instr × Line)}
    (done : resolve labels (.instr i line :: c) = .ok resolved) :
    ∃ instr others, i.resolve labels = .ok instr ∧ resolve labels c = .ok others ∧
      resolved = (instr, line) :: others := by
  simp only [resolve, bind, Except.bind] at done
  cases head : i.resolve labels with
  | error e => simp [head] at done
  | ok instr =>
    cases tail : resolve labels c with
    | error e => simp [head, tail] at done
    | ok others =>
      simp only [head, tail, Except.ok.injEq] at done
      exact ⟨instr, others, rfl, rfl, done.symm⟩

theorem at_of_resolve {c : Code} {resolved : List (Instr × Line)} {before after : List Word}
    (formed : ∀ item ∈ c, item.formed = true)
    (placed : ∀ d l e, c = d ++ .mark l :: e →
      labels.address? l = some (before.length + width d))
    (done : resolve labels c = .ok resolved) :
    At (before ++ (resolved.flatMap fun entry => entry.1.words) ++ after).toArray labels
      before.length c := by
  induction c generalizing before resolved with
  | nil => trivial
  | cons item c ih =>
    have rest := fun item mem => formed item (List.mem_cons_of_mem _ mem)
    cases item with
    | mark l =>
      refine ⟨placed [] l c rfl, ih rest ?_ done⟩
      intro d l' e same
      simpa using placed (.mark l :: d) l' e (by simp [same])
    | instr i line =>
      obtain ⟨instr, others, head, tail, rfl⟩ := resolve_instr done
      have long := words_length (formed _ List.mem_cons_self) head
      have count : (before ++ instr.words).length = before.length + i.op.width := by
        simp [long]
      have further := @ih others (before ++ instr.words) rest (by
        intro d l e same
        have := placed (.instr i line :: d) l e (by simp [same])
        simpa [long, Nat.add_assoc] using this) tail
      rw [count] at further
      refine ⟨?_, ?_⟩
      · simpa using @Symbolic.at_of_resolve labels i instr before
          ((others.flatMap fun entry => entry.1.words) ++ after) head
      · simpa using further

theorem length_of_resolve {c : Code} {resolved : List (Instr × Line)}
    (formed : ∀ item ∈ c, item.formed = true) (done : resolve labels c = .ok resolved) :
    (resolved.flatMap fun entry => entry.1.words).length = width c := by
  induction c generalizing resolved with
  | nil =>
    cases done
    rfl
  | cons item c ih =>
    have rest := fun item mem => formed item (List.mem_cons_of_mem _ mem)
    cases item with
    | mark l =>
      rw [width_mark]
      exact ih rest done
    | instr i line =>
      obtain ⟨instr, others, head, tail, rfl⟩ := resolve_instr done
      rw [List.flatMap_cons, List.length_append, ih rest tail, width_instr,
        words_length (formed _ List.mem_cons_self) head]

/-- Code whose labels are all marked, and none twice, has a layout in which it stands from
address 0. -/
theorem layout_succeeds {c : Code} (formed : ∀ item ∈ c, item.formed = true)
    (once : (marks c).Nodup) (bound : ∀ l ∈ refs c, l ∈ marks c) :
    ∃ image, layout c = .ok image ∧ image.size = width c ∧
      At image.words.toArray (place {} 0 c) 0 c := by
  obtain ⟨resolved, done⟩ := @resolve_succeeds (place {} 0 c) c
    fun l mem => place_isSome (bound l mem)
  refine ⟨Image.ofInstrs resolved, by simp [layout, done, bind, Except.bind],
    length_of_resolve formed done, ?_⟩
  have placed : ∀ d l e, c = d ++ .mark l :: e →
      (place {} 0 c).address? l = some (0 + width d) := by
    rintro d l e rfl
    apply place_mark rfl
    simp only [marks_append, marks_mark, List.nodup_append] at once
    intro mem
    exact once.2.2 l mem l (by simp) rfl
  have stands := @at_of_resolve _ c resolved [] [] formed (by simpa using placed) done
  simpa [Image.ofInstrs] using stands

end Code

namespace Expr

variable {words : Array Word} {labels : Labels}

theorem at_logicalItems {op : BinaryOp} {leftLine rightLine : Line} {left right : Code}
    {decided done : Label} {address : Nat}
    (placed : Code.At words labels address
      (logicalItems op leftLine rightLine left right decided done)) :
    Code.At words labels address left ∧ Code.At words labels (address + left.width + 4) right := by
  simp only [logicalItems, Code.at_append, Code.width_append] at placed
  exact ⟨placed.1.1.1.1.1.1, placed.1.1.1.1.2⟩

theorem at_condItems {test no : Expr} {testCode noCode yesCode : Code} {taken done : Label}
    {address : Nat}
    (placed : Code.At words labels address
      (condItems test no testCode noCode yesCode taken done)) :
    Code.At words labels address testCode ∧
      Code.At words labels (address + testCode.width + 4) noCode ∧
      Code.At words labels (address + testCode.width + 4 + noCode.width + 2) yesCode := by
  have choose (l : Line) : Code.width (onLine l [push 1, branch .branchEq taken]) = 4 := rfl
  have skip (l : Line) : Code.width (onLine l [branch .branch done]) = 2 := rfl
  simp only [condItems, Code.at_append, Code.width_append, Code.width_mark, Code.width_nil, choose,
    skip] at placed
  obtain ⟨⟨⟨⟨⟨⟨one, _⟩, two⟩, _⟩, _⟩, three⟩, _⟩ := placed
  refine ⟨one, two, ?_⟩
  simpa [Nat.add_assoc] using three

end Expr

theorem Program.labelled_code {g : Word} {p : Program} {f : Fragment} {t : Supply}
    (lowered : Yields (p.code g) {} f t) : Labelled {} t (fun _ => 0) f.all := by
  obtain ⟨decls, result, u, first, second, rfl⟩ := yields_code.mp lowered
  have start : Unlabelled [push 0] := by simp [Unlabelled]
  have last : Unlabelled [plain .halt] := .single rfl
  have together := (((@Unlabelled.enclosed _ start 0 {}).labelled.append
    (Decl.labelledAll p.decls first)).append (Expr.enclosed p.body second).labelled).append
    (last.enclosed p.body.endLine).labelled
  refine together.perm ?_
  rw [List.perm_iff_count]
  intro item
  simp only [Fragment.all, List.count_append]
  omega

theorem Program.bound_code {g : Word} {p : Program} {f : Fragment} {t : Supply}
    (lowered : Yields (p.code g) {} f t) : ∀ l ∈ f.all.refs, l ∈ f.all.marks := by
  have unheld (l : Label) : ¬ Supply.Holds {} l := by
    rintro ⟨name, table, found, _⟩
    cases found
  intro l mem
  exact ((labelled_code lowered).bound l mem).resolve_right (unheld l)

/-- Whatever tree it comes from, generated code has a layout. -/
theorem Program.layout_code {g : Word} {p : Program} {f : Fragment} {t : Supply}
    (lowered : Yields (p.code g) {} f t) :
    ∃ image, Code.layout f.all = .ok image ∧ image.size = f.all.width ∧
      Code.At image.words.toArray (Code.place {} 0 f.all) 0 f.all := by
  have labelled := labelled_code lowered
  refine Code.layout_succeeds labelled.formed ?_ (bound_code lowered)
  rw [List.nodup_iff_count_le_one]
  intro l
  have count := labelled.once l
  simp only [Label.within, Nat.zero_add] at count
  split at count <;> exact Nat.le_trans count (by omega)

theorem Program.lower_eq {p : Program} {size : Nat} {f : Fragment} {t : Supply}
    (done : Yields (p.code (Word.ofSize size)) {} f t) : p.lower size = Code.layout f.all := by
  have run : (p.code (Word.ofSize size)).run {} = .ok (f, t) := done
  simp [Program.lower, run, bind, Except.bind, Fragment.all]

end ObjectLang
