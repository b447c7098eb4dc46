import ObjectLang.Proofs.Machine.Execution

/-!
Reading a program back. The words that layout writes decode into the instructions of the code, in
their order and at the addresses that layout counted, with the address of its label for an operand
that was a label.
-/
namespace ObjectLang

open Symbolic

def Symbolic.link (labels : Labels) (i : Symbolic) : Instr where
  op := i.op
  operand := match i.operand with
    | .none => none
    | .value w => some w
    | .label l => (labels.address? l).map Int32.ofNat

@[simp] theorem Symbolic.link_op (labels : Labels) (i : Symbolic) : (i.link labels).op = i.op := rfl

theorem Symbolic.eq_link {labels : Labels} {i : Symbolic} {instr : Instr}
    (done : i.resolve labels = .ok instr) : instr = i.link labels := by
  obtain ⟨op, operand⟩ := i
  simp only [Symbolic.resolve] at done
  cases operand with
  | none =>
    cases done
    rfl
  | value w =>
    cases done
    rfl
  | label l =>
    cases known : labels.address? l with
    | none => simp [known] at done
    | some address =>
      simp only [known, Except.ok.injEq] at done
      simp [link, known, ← done]

theorem Symbolic.operand_link {labels : Labels} {i : Symbolic} (formed : i.formed = true)
    (done : i.resolve labels = .ok (i.link labels)) :
    (i.link labels).operand.isSome = i.op.hasOperand := by
  have long := words_length formed done
  unfold Instr.words Opcode.width at long
  cases operand : (i.link labels).operand <;> cases takes : i.op.hasOperand <;>
    simp [operand, takes] at long ⊢

namespace Code

def listing (labels : Labels) (address : Nat) : Code → List (Nat × Instr)
  | [] => []
  | .mark _ :: c => listing labels address c
  | .instr i _ :: c => (address, i.link labels) :: listing labels (address + i.op.width) c

@[simp] theorem listing_nil (labels : Labels) (address : Nat) :
    listing labels address [] = [] := rfl

@[simp] theorem listing_mark (labels : Labels) (address : Nat) (l : Label) (c : Code) :
    listing labels address (.mark l :: c) = listing labels address c := rfl

@[simp] theorem listing_instr (labels : Labels) (address : Nat) (i : Symbolic) (line : Line)
    (c : Code) :
    listing labels address (.instr i line :: c) =
      (address, i.link labels) :: listing labels (address + i.op.width) c := rfl

@[simp] theorem listing_append (labels : Labels) (address : Nat) (c d : Code) :
    listing labels address (c ++ d) =
      listing labels address c ++ listing labels (address + width c) d := by
  induction c generalizing address with
  | nil => rfl
  | cons item c ih =>
    cases item with
    | mark l => simp [ih]
    | instr i line => simp [ih, Nat.add_assoc]

theorem length_listing_le (labels : Labels) (address : Nat) (c : Code) :
    (listing labels address c).length ≤ width c := by
  induction c generalizing address with
  | nil => exact Nat.le_refl _
  | cons item c ih =>
    cases item with
    | mark l =>
      rw [listing_mark, width_mark]
      exact ih address
    | instr i line =>
      have wide := i.op.width_pos
      have rest := ih (address + i.op.width)
      rw [listing_instr, List.length_cons, width, Item.width]
      omega

def listings (labels : Labels) (address : Nat) : List Code → List (List (Nat × Instr))
  | [] => []
  | c :: cs => listing labels address c :: listings labels (address + width c) cs

theorem listings_append (labels : Labels) (address : Nat) (cs ds : List Code) :
    listings labels address (cs ++ ds) =
      listings labels address cs ++ listings labels (address + width cs.flatten) ds := by
  induction cs generalizing address with
  | nil => rfl
  | cons c cs ih => simp [listings, ih, Nat.add_assoc]

theorem flatten_listings (labels : Labels) (address : Nat) (cs : List Code) :
    (listings labels address cs).flatten = listing labels address cs.flatten := by
  induction cs generalizing address with
  | nil => rfl
  | cons c cs ih => simp [listings, ih]

theorem decodeFrom_resolve {labels : Labels} {c : Code} {resolved : List (Instr × Line)}
    {address : Nat} (formed : ∀ item ∈ c, item.formed = true)
    (done : resolve labels c = .ok resolved) :
    Image.decodeFrom address (resolved.flatMap fun entry => entry.1.words) =
      .ok (listing labels address c) := by
  induction c generalizing address resolved with
  | nil =>
    cases done
    rfl
  | cons item c ih =>
    have rest := fun item mem => formed item (List.mem_cons_of_mem _ mem)
    cases item with
    | mark l => exact ih rest done
    | instr i line =>
      obtain ⟨instr, others, head, tail, rfl⟩ := resolve_instr done
      obtain rfl := eq_link head
      have whole := operand_link (formed _ List.mem_cons_self) head
      rw [List.flatMap_cons, Image.decodeFrom_step whole, ih rest tail]
      rfl

/-- The words of a layout decode completely, into the instructions of the code. -/
theorem instructions_of_layout {c : Code} {image : Image}
    (formed : ∀ item ∈ c, item.formed = true) (done : layout c = .ok image) :
    image.instructions = .ok (listing (place {} 0 c) 0 c) := by
  unfold layout at done
  cases resolved : resolve (place {} 0 c) c with
  | error e =>
    rw [resolved] at done
    cases done
  | ok entries =>
    rw [resolved] at done
    cases done
    exact decodeFrom_resolve formed resolved

end Code

def Fragment.labels (f : Fragment) : Labels := Code.place {} 0 f.all

theorem Fragment.listing_all (f : Fragment) :
    Code.listing f.labels 0 f.all = Code.listing f.labels 0 f.inline ++
      (Code.listings f.labels f.inline.width f.bodies).flatten := by
  rw [all, Code.listing_append, Nat.zero_add, Code.flatten_listings]

end ObjectLang
