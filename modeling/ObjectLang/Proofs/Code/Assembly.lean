import ObjectLang.Proofs.Code.Listing

/-!
Layout of any symbolic code, also of code that leaves labels out or marks them twice. Layout fails
exactly at a label that is never marked. Otherwise it writes the instructions in their order, with
the address of what follows the first mark of a label for an operand that was this label, and notes
for each word the line of its instruction.
-/
namespace ObjectLang

open Symbolic

def Item.entry? : Item → Option (Symbolic × Line)
  | .instr i line => some (i, line)
  | .mark _ => none

def Symbolic.assembled (target? : Label → Option Nat) (i : Symbolic) : Instr where
  op := i.op
  operand := match i.operand with
    | .none => none
    | .value w => some w
    | .label l => (target? l).map Int32.ofNat

theorem Symbolic.whole_assembled {target? : Label → Option Nat} {i : Symbolic}
    (formed : i.formed = true) (known : ∀ l, i.label? = some l → (target? l).isSome = true) :
    (i.assembled target?).Whole := by
  obtain ⟨op, operand⟩ := i
  have takes : op.hasOperand = (operand != .none) := by simpa [Symbolic.formed] using formed
  cases operand with
  | none => exact takes.symm
  | value w => exact takes.symm
  | label l =>
    have present := known l rfl
    simp only [Instr.Whole, assembled, Option.isSome_map, present, takes]
    rfl

theorem Symbolic.resolve_of_known {labels : Labels} {i : Symbolic}
    (known : ∀ l, i.label? = some l → (labels.address? l).isSome = true) :
    i.resolve labels = .ok (i.assembled labels.address?) := by
  obtain ⟨op, operand⟩ := i
  cases operand with
  | none => rfl
  | value w => rfl
  | label l =>
    obtain ⟨address, found⟩ := Option.isSome_iff_exists.mp (known l rfl)
    simp [Symbolic.resolve, assembled, found]

theorem Symbolic.resolve_of_unknown {labels : Labels} {i : Symbolic} {l : Label}
    (names : i.label? = some l) (unknown : labels.address? l = none) :
    i.resolve labels = .error (.unboundLabel l) := by
  obtain ⟨op, operand⟩ := i
  cases operand with
  | none => cases names
  | value w => cases names
  | label other =>
    cases names
    simp [Symbolic.resolve, unknown]

namespace Code

def entries (c : Code) : List (Symbolic × Line) := c.filterMap Item.entry?

@[simp] theorem entries_nil : entries [] = [] := rfl

@[simp] theorem entries_mark (l : Label) (c : Code) : entries (.mark l :: c) = entries c := rfl

@[simp] theorem entries_instr (i : Symbolic) (line : Line) (c : Code) :
    entries (.instr i line :: c) = (i, line) :: entries c := rfl

def addresses (address : Nat) (c : Code) : List Nat :=
  Opcode.addresses address (c.entries.map (·.1.op))

/-- The address of the first instruction after the first mark of a label, or the end of the code if
no instruction follows the mark. -/
def target? (c : Code) (l : Label) : Option Nat :=
  if l ∈ c.marks then (addresses 0 c)[(entries (c.takeWhile (· ≠ .mark l))).length]? else none

theorem getElem?_addresses (address : Nat) (c d : Code) :
    (addresses address (c ++ d))[(entries c).length]? = some (address + width c) := by
  unfold addresses
  induction c generalizing address with
  | nil =>
    rw [List.nil_append]
    cases entries d <;> simp
  | cons item c ih =>
    cases item with
    | mark l => simpa using ih address
    | instr i line => simpa [Nat.add_assoc] using ih (address + i.op.width)

theorem exists_first_mark {c : Code} {l : Label} (marked : l ∈ marks c) :
    ∃ after, c = c.takeWhile (· ≠ .mark l) ++ .mark l :: after ∧
      l ∉ marks (c.takeWhile (· ≠ .mark l)) := by
  induction c with
  | nil => simp at marked
  | cons item c ih =>
    by_cases here : item = .mark l
    · subst here
      exact ⟨c, by simp, by simp⟩
    · have later : l ∈ marks c := by
        cases item with
        | instr i line => exact marked
        | mark other =>
          rw [marks_mark, List.mem_cons] at marked
          rcases marked with same | later
          · exact absurd (congrArg Item.mark same.symm) here
          · exact later
      obtain ⟨after, split, first⟩ := ih later
      rw [List.takeWhile_cons_of_pos (by simpa using here)]
      refine ⟨after, by rw [List.cons_append, ← split], ?_⟩
      cases item with
      | instr i line => exact first
      | mark other =>
        rw [marks_mark, List.mem_cons, not_or]
        exact ⟨fun same => here (congrArg Item.mark same.symm), first⟩

theorem place_unmarked {labels : Labels} {address : Nat} {c : Code} {l : Label}
    (unmarked : l ∉ marks c) : (place labels address c).address? l = labels.address? l := by
  induction c generalizing labels address with
  | nil => rfl
  | cons item c ih =>
    cases item with
    | instr i line => exact ih unmarked
    | mark other =>
      rw [marks_mark, List.mem_cons, not_or] at unmarked
      rw [place, ih unmarked.2, labels.address?_bind_of_ne address unmarked.1]

theorem target?_eq_width {c : Code} {l : Label} (marked : l ∈ marks c) :
    c.target? l = some (width (c.takeWhile (· ≠ .mark l))) := by
  obtain ⟨after, split, _⟩ := exists_first_mark marked
  have found := getElem?_addresses 0 (c.takeWhile (· ≠ .mark l)) (.mark l :: after)
  rw [← split, Nat.zero_add] at found
  rw [target?, if_pos marked, found]

theorem address?_place (c : Code) : (place {} 0 c).address? = c.target? := by
  funext l
  by_cases marked : l ∈ marks c
  · obtain ⟨after, split, first⟩ := exists_first_mark marked
    have placed : (place {} 0 (c.takeWhile (· ≠ .mark l) ++ .mark l :: after)).address? l =
        some (0 + width (c.takeWhile (· ≠ .mark l))) := place_mark rfl first
    rw [← split, Nat.zero_add] at placed
    rw [placed, target?_eq_width marked]
  · rw [place_unmarked marked, target?, if_neg marked]
    rfl

theorem isNone_target? (c : Code) (l : Label) : (c.target? l).isNone = decide (l ∉ marks c) := by
  by_cases marked : l ∈ marks c
  · simp [target?_eq_width marked, marked]
  · simp [target?, marked]

theorem target?_lt {c : Code} {l : Label} {limit : Nat} (marked : l ∈ marks c)
    (small : width c < limit) : ∃ address, c.target? l = some address ∧ address < limit := by
  obtain ⟨after, split, _⟩ := exists_first_mark marked
  refine ⟨_, target?_eq_width marked, ?_⟩
  have total : width c = width (c.takeWhile (· ≠ .mark l)) + width (.mark l :: after) := by
    rw [← width_append, ← split]
  omega

theorem resolve_eq (labels : Labels) (c : Code) :
    resolve labels c =
      match c.refs.find? fun l => (labels.address? l).isNone with
      | some l => .error (.unboundLabel l)
      | none => .ok (c.entries.map fun entry => (entry.1.assembled labels.address?, entry.2)) := by
  induction c with
  | nil => rfl
  | cons item c ih =>
    cases item with
    | mark l => exact ih
    | instr i line =>
      rw [resolve, ih]
      cases names : i.label? with
      | none =>
        have same : refs (.instr i line :: c) = refs c := List.filterMap_cons_none names
        rw [same, Symbolic.resolve_of_known (by simp [names])]
        cases (refs c).find? fun l => (labels.address? l).isNone <;> rfl
      | some l =>
        have first : refs (.instr i line :: c) = l :: refs c := List.filterMap_cons_some names
        cases known : labels.address? l with
        | none =>
          rw [first, List.find?_cons_of_pos (by simp [known]),
            Symbolic.resolve_of_unknown names known]
          rfl
        | some address =>
          rw [first, List.find?_cons_of_neg (by simp [known]),
            Symbolic.resolve_of_known (by simp [names, known])]
          cases (refs c).find? fun l => (labels.address? l).isNone <;> rfl

/-- Layout fails at the first label that is never marked, and else writes every instruction with the
target of its label. -/
theorem layout_eq (c : Code) :
    layout c =
      match c.refs.find? fun l => l ∉ c.marks with
      | some l => .error (.unboundLabel l)
      | none =>
        .ok (Image.ofInstrs (c.entries.map fun entry => (entry.1.assembled c.target?, entry.2))) := by
  unfold layout
  rw [resolve_eq, address?_place]
  simp only [isNone_target?]
  cases c.refs.find? fun l => decide (l ∉ c.marks) <;> rfl

theorem mem_refs {c : Code} {l : Label} :
    l ∈ c.refs ↔ ∃ entry ∈ c.entries, entry.1.label? = some l := by
  unfold refs entries
  simp only [List.mem_filterMap]
  constructor
  · rintro ⟨item, listed, names⟩
    cases item with
    | mark other => cases names
    | instr i line => exact ⟨(i, line), ⟨_, listed, rfl⟩, names⟩
  · rintro ⟨entry, ⟨item, listed, same⟩, names⟩
    cases item with
    | mark other => cases same
    | instr i line =>
      cases same
      exact ⟨_, listed, names⟩

variable {c : Code} {image : Image} {e : CodeError}

theorem layout_eq_error :
    layout c = .error e ↔ ∃ l, c.refs.find? (fun l => l ∉ c.marks) = some l ∧ e = .unboundLabel l := by
  rw [layout_eq]
  cases c.refs.find? fun l => decide (l ∉ c.marks) with
  | none => simp
  | some l => simp [eq_comm]

theorem layout_eq_ok :
    layout c = .ok image ↔ (∀ l ∈ c.refs, l ∈ c.marks) ∧
      image = .ofInstrs (c.entries.map fun entry => (entry.1.assembled c.target?, entry.2)) := by
  rw [layout_eq]
  cases missing : c.refs.find? fun l => decide (l ∉ c.marks) with
  | none =>
    have marked : ∀ l ∈ c.refs, l ∈ c.marks := by simpa using missing
    simp only [Except.ok.injEq]
    rw [and_iff_right marked, eq_comm]
  | some l =>
    have unmarked : l ∉ c.marks := by simpa using List.find?_some missing
    have listed : l ∈ c.refs := List.mem_of_find?_eq_some missing
    simp only [reduceCtorEq, false_iff, not_and]
    intro marked
    exact absurd (marked l listed) unmarked

theorem exists_layout_eq_error : (∃ e, layout c = .error e) ↔ ∃ l ∈ c.refs, l ∉ c.marks := by
  have found : (c.refs.find? fun l => l ∉ c.marks).isSome = true ↔
      ∃ l ∈ c.refs, l ∉ c.marks := by
    simp
  rw [← found, Option.isSome_iff_exists]
  constructor
  · rintro ⟨e, failed⟩
    obtain ⟨l, first, _⟩ := layout_eq_error.mp failed
    exact ⟨l, first⟩
  · rintro ⟨l, first⟩
    exact ⟨_, layout_eq_error.mpr ⟨l, first, rfl⟩⟩

theorem listing_eq_numbered (labels : Labels) (address : Nat) (c : Code) :
    listing labels address c =
      Instr.numbered address (c.entries.map fun entry => entry.1.assembled labels.address?) := by
  induction c generalizing address with
  | nil => simp
  | cons item c ih =>
    cases item with
    | mark l => exact ih address
    | instr i line =>
      rw [listing_instr, ih, entries_instr, List.map_cons, Instr.numbered_cons]
      rfl

theorem instructions_of_layout_eq_ok (formed : ∀ item ∈ c, item.formed = true)
    (done : layout c = .ok image) :
    image.instructions =
      .ok (Instr.numbered 0 (c.entries.map fun entry => entry.1.assembled c.target?)) := by
  rw [instructions_of_layout formed done, listing_eq_numbered, address?_place]

theorem whole_of_mem_entries (formed : ∀ item ∈ c, item.formed = true)
    (marked : ∀ l ∈ c.refs, l ∈ c.marks) {entry : Symbolic × Line} (listed : entry ∈ c.entries) :
    (entry.1.assembled c.target?).Whole := by
  have present : entry.1.formed = true := by
    obtain ⟨item, mem, same⟩ := List.mem_filterMap.mp listed
    cases item <;> cases same
    exact formed _ mem
  apply whole_assembled present
  intro l names
  have found := target?_eq_width (marked l (mem_refs.mpr ⟨entry, listed, names⟩))
  simp [found]

theorem lines_of_layout_eq_ok (formed : ∀ item ∈ c, item.formed = true)
    (done : layout c = .ok image) :
    image.lines = c.entries.flatMap fun entry => List.replicate entry.1.op.width entry.2 := by
  obtain ⟨marked, rfl⟩ := layout_eq_ok.mp done
  have same : ∀ entry ∈ c.entries,
      List.replicate (entry.1.assembled c.target?).words.length entry.2 =
        List.replicate entry.1.op.width entry.2 := by
    intro entry listed
    rw [(whole_of_mem_entries formed marked listed).length]
    rfl
  simp only [Image.ofInstrs, List.flatMap_map]
  exact List.flatMap_congr same

end Code

end ObjectLang
