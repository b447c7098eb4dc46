import ObjectLang.Code.Image
import ObjectLang.Proofs.Word

/-!
Machine words as a code for instructions. Instructions that are written one after the other are read
back as they were, each at the sum of the widths before it. Conversely, words that can be read are
what writing gives, and any other words are such a code up to a place where no instruction starts:
a word that is no opcode, or an opcode at the end without the operand it takes.
-/
namespace ObjectLang

namespace Opcode

theorem ofWord?_toWord (op : Opcode) : ofWord? op.toWord = some op := by
  have small : op.code < Word.limit := by cases op <;> decide
  rw [ofWord?, toWord, Word.index?_ofNat small, Option.bind_some, ofCode?_code]

theorem ofCode?_eq_some {n : Nat} {op : Opcode} : ofCode? n = some op ↔ n = op.code := by
  constructor
  · intro found
    unfold ofCode? at found
    split at found <;> cases found <;> rfl
  · rintro rfl
    exact ofCode?_code op

theorem ofCode?_eq_none {n : Nat} : ofCode? n = none ↔ 22 < n := by
  constructor
  · intro missing
    apply Decidable.byContradiction
    intro small
    have known : ∀ code < 23, ofCode? code ≠ none := by decide
    exact known n (by omega) missing
  · intro large
    cases found : ofCode? n with
    | none => rfl
    | some op =>
      have bound : op.code ≤ 22 := by cases op <;> decide
      have same := ofCode?_eq_some.mp found
      omega

theorem ofWord?_eq_some {w : Word} {op : Opcode} : ofWord? w = some op ↔ w = op.toWord := by
  constructor
  · intro found
    obtain ⟨n, named, code⟩ := Option.bind_eq_some_iff.mp found
    have value := Word.index?_eq_some.mp named
    rw [ofCode?_eq_some.mp code] at value
    have small : op.code < Word.limit := by cases op <;> decide
    rw [← Int32.toInt_inj, value, toWord, Int32.toInt_ofNat_of_lt small]
  · rintro rfl
    exact ofWord?_toWord op

theorem ofWord?_eq_none {w : Word} : ofWord? w = none ↔ w.toInt < 0 ∨ 22 < w.toInt := by
  unfold ofWord?
  cases named : Word.index? w with
  | none =>
    have negative : ¬ 0 ≤ w.toInt := by
      intro positive
      have value := Word.index?_eq_some.mpr (Int.toNat_of_nonneg positive).symm
      rw [named] at value
      cases value
    simp only [Option.bind_none, true_iff]
    omega
  | some n =>
    have value := Word.index?_eq_some.mp named
    rw [Option.bind_some, ofCode?_eq_none]
    omega

def addresses (address : Nat) (ops : List Opcode) : List Nat :=
  ops.scanl (fun address op => address + op.width) address

@[simp] theorem addresses_nil (address : Nat) : addresses address [] = [address] := by
  simp [addresses]

@[simp] theorem addresses_cons (address : Nat) (op : Opcode) (ops : List Opcode) :
    addresses address (op :: ops) = address :: addresses (address + op.width) ops := by
  simp [addresses]

end Opcode

namespace Instr

def Whole (i : Instr) : Prop := i.operand.isSome = i.op.hasOperand

instance (i : Instr) : Decidable i.Whole := inferInstanceAs (Decidable (_ = _))

theorem Whole.length {i : Instr} (whole : i.Whole) : i.words.length = i.op.width := by
  unfold Whole at whole
  unfold words Opcode.width
  rw [← whole]
  cases i.operand <;> rfl

def numbered (address : Nat) (code : List Instr) : List (Nat × Instr) :=
  (Opcode.addresses address (code.map op)).zip code

@[simp] theorem numbered_nil (address : Nat) : numbered address [] = [] := by simp [numbered]

@[simp] theorem numbered_cons (address : Nat) (i : Instr) (code : List Instr) :
    numbered address (i :: code) = (address, i) :: numbered (address + i.op.width) code := by
  simp [numbered]

theorem map_snd_numbered (address : Nat) (code : List Instr) :
    (numbered address code).map Prod.snd = code := by
  induction code generalizing address with
  | nil => simp
  | cons i code ih => simp [ih]

def encode (code : List Instr) : List Word := code.flatMap words

@[simp] theorem encode_nil : encode [] = [] := rfl

@[simp] theorem encode_cons (i : Instr) (code : List Instr) :
    encode (i :: code) = i.words ++ encode code := rfl

theorem numbered_lt {code : List Instr} {address : Nat} {entry : Nat × Instr}
    (whole : ∀ i ∈ code, i.Whole) (mem : entry ∈ numbered address code) :
    entry.1 < address + (encode code).length := by
  induction code generalizing address with
  | nil => simp at mem
  | cons i code ih =>
    rw [List.forall_mem_cons] at whole
    have wide := i.op.width_pos
    rw [encode_cons, List.length_append, whole.1.length]
    rw [numbered_cons, List.mem_cons] at mem
    rcases mem with rfl | later
    · exact Nat.lt_add_of_pos_right (by omega)
    · have inside := ih whole.2 later
      omega

end Instr

inductive Undecodable (address : Nat) : List Word → DecodeError → Prop
  | opcode {w rest} (none : w.toInt < 0 ∨ 22 < w.toInt) :
      Undecodable address (w :: rest) (.invalidOpcode w address)
  | operand {op : Opcode} (takes : op.hasOperand = true) :
      Undecodable address [op.toWord] (.missingOperand op address)

namespace Image

open Instr

theorem decodeFrom_undecodable {address : Nat} {rest : List Word} {e : DecodeError}
    (bad : Undecodable address rest e) : decodeFrom address rest = .error e := by
  cases bad with
  | opcode none => simp [decodeFrom, Opcode.ofWord?_eq_none.mpr none]
  | operand takes => simp [decodeFrom, Opcode.ofWord?_toWord, takes]

theorem decodeAt_undecodable {before rest : List Word} {lines : List Line} {e : DecodeError}
    (bad : Undecodable before.length rest e) :
    decodeAt ⟨before ++ rest, lines⟩ before.length = .error e := by
  cases bad with
  | opcode none => simp [decodeAt, Opcode.ofWord?_eq_none.mpr none]
  | operand takes => simp [decodeAt, Opcode.ofWord?_toWord, takes]

theorem decodeAt_words {i : Instr} (whole : i.Whole) (before rest : List Word)
    (lines : List Line) :
    decodeAt ⟨before ++ i.words ++ rest, lines⟩ before.length = .ok i := by
  obtain ⟨op, operand⟩ := i
  cases operand with
  | none =>
    have bare : op.hasOperand = false := whole.symm
    simp [decodeAt, Instr.words, Opcode.ofWord?_toWord, bare]
  | some w =>
    have takes : op.hasOperand = true := whole.symm
    simp [decodeAt, Instr.words, Opcode.ofWord?_toWord, takes]

theorem decodeAt_encode {code : List Instr} (whole : ∀ i ∈ code, i.Whole)
    (before rest : List Word) (lines : List Line) {address : Nat} {i : Instr}
    (listed : (address, i) ∈ numbered before.length code) :
    decodeAt ⟨before ++ encode code ++ rest, lines⟩ address = .ok i := by
  induction code generalizing before with
  | nil => simp at listed
  | cons first code ih =>
    have head := whole first List.mem_cons_self
    rw [numbered_cons, List.mem_cons] at listed
    rcases listed with here | later
    · cases here
      rw [encode_cons, ← List.append_assoc, List.append_assoc _ (encode code)]
      exact decodeAt_words head before _ lines
    · rw [← head.length, ← List.length_append] at later
      have found := ih (fun i mem => whole i (List.mem_cons_of_mem _ mem)) _ later
      rwa [List.append_assoc before] at found

theorem decodeFrom_step {i : Instr} (whole : i.Whole) (address : Nat) (rest : List Word) :
    decodeFrom address (i.words ++ rest) =
      (decodeFrom (address + i.op.width) rest).map ((address, i) :: ·) := by
  obtain ⟨op, operand⟩ := i
  unfold Opcode.width
  cases operand with
  | none =>
    have bare : op.hasOperand = false := whole.symm
    simp only [Instr.words, Option.toList_none, List.singleton_append, decodeFrom,
      Opcode.ofWord?_toWord, bare, Bool.false_eq_true, if_false]
    rfl
  | some w =>
    have takes : op.hasOperand = true := whole.symm
    simp only [Instr.words, Option.toList_some, List.cons_append, List.nil_append, decodeFrom,
      Opcode.ofWord?_toWord, takes, if_true]
    rfl

theorem decodeFrom_encode {code : List Instr} (whole : ∀ i ∈ code, i.Whole) (address : Nat)
    (rest : List Word) :
    decodeFrom address (encode code ++ rest) =
      (decodeFrom (address + (encode code).length) rest).map (numbered address code ++ ·) := by
  induction code generalizing address with
  | nil =>
    simp only [encode_nil, List.nil_append, List.length_nil, Nat.add_zero, numbered_nil]
    cases decodeFrom address rest <;> rfl
  | cons i code ih =>
    have head := whole i List.mem_cons_self
    have tail := ih (fun i mem => whole i (List.mem_cons_of_mem _ mem)) (address + i.op.width)
    have total : address + (encode (i :: code)).length =
        address + i.op.width + (encode code).length := by
      simp [head.length, Nat.add_assoc]
    rw [total, encode_cons, List.append_assoc, decodeFrom_step head, tail, numbered_cons]
    cases decodeFrom (address + i.op.width + (encode code).length) rest <;> rfl

/-- Any words are those of instructions, followed by nothing or by words that no instruction
starts. -/
theorem exists_encode (address : Nat) (words : List Word) :
    ∃ code rest, (∀ i ∈ code, i.Whole) ∧ words = encode code ++ rest ∧
      (rest = [] ∨ ∃ e, Undecodable (address + (encode code).length) rest e) := by
  -- An instruction in front takes one word or two, so the induction is on the length.
  induction count : words.length using Nat.strongRecOn generalizing address words with
  | ind size ih =>
    cases words with
    | nil => exact ⟨[], [], by simp, rfl, .inl rfl⟩
    | cons w rest =>
      cases known : Opcode.ofWord? w with
      | none =>
        refine ⟨[], w :: rest, by simp, rfl, .inr ⟨_, .opcode ?_⟩⟩
        exact Opcode.ofWord?_eq_none.mp known
      | some op =>
        obtain rfl := Opcode.ofWord?_eq_some.mp known
        -- What follows the first instruction splits in the same way.
        have more (i : Instr) (whole : i.Whole) (tail : List Word)
            (same : op.toWord :: rest = i.words ++ tail) (shorter : tail.length < size) :
            ∃ code rest', (∀ i ∈ code, i.Whole) ∧ op.toWord :: rest = encode code ++ rest' ∧
              (rest' = [] ∨ ∃ e, Undecodable (address + (encode code).length) rest' e) := by
          obtain ⟨code, rest', wholes, split, ends⟩ :=
            ih tail.length shorter (address + i.words.length) tail rfl
          refine ⟨i :: code, rest', by simpa using ⟨whole, wholes⟩, ?_, ?_⟩
          · rw [same, split, encode_cons, List.append_assoc]
          · rwa [encode_cons, List.length_append, ← Nat.add_assoc]
        rw [List.length_cons] at count
        cases takes : op.hasOperand with
        | false => exact more ⟨op, none⟩ takes.symm rest rfl (by omega)
        | true =>
          cases rest with
          | nil => exact ⟨[], [op.toWord], by simp, rfl, .inr ⟨_, .operand takes⟩⟩
          | cons operand rest =>
            rw [List.length_cons] at count
            exact more ⟨op, some operand⟩ takes.symm rest rfl (by omega)

variable {p : Image} {decoded : List (Nat × Instr)} {e : DecodeError}

theorem instructions_eq_ok : p.instructions = .ok decoded ↔
    ∃ code, (∀ i ∈ code, i.Whole) ∧ p.words = encode code ∧ decoded = numbered 0 code := by
  unfold instructions
  constructor
  · intro done
    obtain ⟨code, rest, whole, split, ends⟩ := exists_encode 0 p.words
    rw [split, decodeFrom_encode whole] at done
    rcases ends with rfl | ⟨e, bad⟩
    · refine ⟨code, whole, by rw [split, List.append_nil], ?_⟩
      cases done
      exact List.append_nil _
    · rw [decodeFrom_undecodable bad] at done
      cases done
  · rintro ⟨code, whole, words, rfl⟩
    have done := decodeFrom_encode whole 0 []
    rw [List.append_nil] at done
    rw [words, done]
    simp [decodeFrom, Except.map]

theorem address_lt_size (done : p.instructions = .ok decoded) :
    ∀ entry ∈ decoded, entry.1 < p.size := by
  obtain ⟨code, whole, words, rfl⟩ := instructions_eq_ok.mp done
  intro entry mem
  have inside := numbered_lt whole mem
  rwa [Nat.zero_add, ← words] at inside

theorem instructions_eq_error : p.instructions = .error e ↔
    ∃ before rest, (∀ i ∈ before, i.Whole) ∧ p.words = encode before ++ rest ∧
      Undecodable (encode before).length rest e := by
  unfold instructions
  constructor
  · intro failed
    obtain ⟨code, rest, whole, split, ends⟩ := exists_encode 0 p.words
    rw [Nat.zero_add] at ends
    refine ⟨code, rest, whole, split, ?_⟩
    rw [split, decodeFrom_encode whole, Nat.zero_add] at failed
    rcases ends with rfl | ⟨e', bad⟩
    · cases failed
    · rw [decodeFrom_undecodable bad] at failed
      cases failed
      exact bad
  · rintro ⟨before, rest, whole, split, bad⟩
    rw [split, decodeFrom_encode whole, Nat.zero_add, decodeFrom_undecodable bad]
    rfl

/-! Writing instructions with their lines. -/

def writeAll (p : Image) (code : List (Instr × Line)) : Image :=
  code.foldl (fun p entry => p.write entry.1 entry.2) p

theorem writeAll_eq (p : Image) (code : List (Instr × Line)) :
    p.writeAll code = ⟨p.words ++ (ofInstrs code).words, p.lines ++ (ofInstrs code).lines⟩ := by
  induction code generalizing p with
  | nil => simp [writeAll, ofInstrs]
  | cons entry code ih =>
    have step : p.writeAll (entry :: code) = (p.write entry.1 entry.2).writeAll code := rfl
    rw [step, ih]
    simp [write, ofInstrs]

theorem writeAll_empty (code : List (Instr × Line)) : writeAll {} code = ofInstrs code := by
  simp [writeAll_eq]

theorem words_ofInstrs (code : List (Instr × Line)) :
    (ofInstrs code).words = encode (code.map Prod.fst) := by
  simp [ofInstrs, encode, List.flatMap_map]

theorem length_lines_ofInstrs (code : List (Instr × Line)) :
    (ofInstrs code).lines.length = (ofInstrs code).words.length := by
  induction code with
  | nil => rfl
  | cons entry code ih => simp [ofInstrs]

theorem lines_ofInstrs {code : List (Instr × Line)} (whole : ∀ entry ∈ code, entry.1.Whole)
    (before : List Line) {address : Nat} {i : Instr} {line : Line}
    (listed : (address, i, line) ∈
      (Opcode.addresses before.length (code.map (·.1.op))).zip code)
    {place : Nat} (inside : place < i.op.width) :
    (before ++ (ofInstrs code).lines)[address + place]? = some line := by
  induction code generalizing before with
  | nil => simp at listed
  | cons entry code ih =>
    have head := (whole entry List.mem_cons_self).length
    have split : before ++ (ofInstrs (entry :: code)).lines =
        before ++ List.replicate entry.1.op.width entry.2 ++ (ofInstrs code).lines := by
      simp [ofInstrs, head]
    rw [split]
    simp only [List.map_cons, Opcode.addresses_cons, List.zip_cons_cons, List.mem_cons] at listed
    rcases listed with first | later
    · cases first
      rw [List.getElem?_append_left (by simpa using inside), List.getElem?_append_right (by omega)]
      simp [inside]
    · apply ih fun entry mem => whole entry (List.mem_cons_of_mem _ mem)
      simpa using later

/-- Reading undoes writing: whole instructions are read back from their words, each at the sum of
the widths before it, and each of their words has the line of its instruction. Writing undoes
reading: words that can be read are those of the instructions that were read. Reading fails on all
other words, with the error of the first place at which no instruction starts. -/
theorem encoding_inverse (code : List (Instr × Line)) (p : Image) :
    ((∀ entry ∈ code, entry.1.Whole) →
      (writeAll {} code).words.length = (writeAll {} code).lines.length ∧
      (writeAll {} code).instructions = .ok (numbered 0 (code.map Prod.fst)) ∧
      ∀ address i line, (address, i, line) ∈
          (Opcode.addresses 0 (code.map (·.1.op))).zip code →
        ∀ place < i.op.width, (writeAll {} code).lineAt? (address + place) = some line) ∧
    (∀ decoded, p.instructions = .ok decoded → code.map Prod.fst = decoded.map Prod.snd →
      (writeAll {} code).words = p.words) ∧
    ((∃ e, p.instructions = .error e) ↔
      ¬ ∃ other : List (Instr × Line), (∀ entry ∈ other, entry.1.Whole) ∧
        (writeAll {} other).words = p.words) ∧
    ∀ e, p.instructions = .error e ↔
      ∃ before rest, (∀ i ∈ before, i.Whole) ∧ p.words = encode before ++ rest ∧
        (∀ entry ∈ numbered 0 before, p.decodeAt entry.1 = .ok entry.2) ∧
        Undecodable (encode before).length rest e ∧
        p.decodeAt (encode before).length = .error e := by
  simp only [writeAll_empty]
  refine ⟨fun whole => ⟨(length_lines_ofInstrs code).symm, ?_, ?_⟩, ?_, ?_, ?_⟩
  · rw [instructions_eq_ok]
    exact ⟨code.map Prod.fst, by simpa using whole, words_ofInstrs code, rfl⟩
  · intro address i line listed place inside
    exact lines_ofInstrs whole [] listed inside
  · intro decoded done same
    obtain ⟨instrs, _, words, rfl⟩ := instructions_eq_ok.mp done
    rw [words_ofInstrs, same, map_snd_numbered, words]
  · constructor
    · rintro ⟨e, failed⟩ ⟨other, whole, words⟩
      have done : p.instructions = .ok (numbered 0 (other.map Prod.fst)) :=
        instructions_eq_ok.mpr ⟨_, by simpa using whole, by rw [← words, words_ofInstrs], rfl⟩
      rw [failed] at done
      cases done
    · intro unwritten
      cases read : p.instructions with
      | error e => exact ⟨e, rfl⟩
      | ok decoded =>
        obtain ⟨instrs, whole, words, _⟩ := instructions_eq_ok.mp read
        refine absurd ⟨instrs.map fun i => (i, 0), by simpa using whole, ?_⟩ unwritten
        rw [words_ofInstrs, words, List.map_map]
        simp [Function.comp_def]
  · intro e
    rw [instructions_eq_error]
    constructor
    · rintro ⟨before, rest, whole, split, bad⟩
      obtain ⟨_, lines⟩ := p
      subst split
      exact ⟨before, rest, whole, rfl, fun entry listed => decodeAt_encode whole [] rest lines listed,
        bad, decodeAt_undecodable bad⟩
    · rintro ⟨before, rest, whole, split, _, bad, _⟩
      exact ⟨before, rest, whole, split, bad⟩

def lookalikes : List (Instr × Line) :=
  [(⟨.push, some 8⟩, 1), (⟨.branch, some 0⟩, 1), (⟨.halt, none⟩, 2)]

theorem encoding_inverse_lookalikes :
    (∀ entry ∈ lookalikes, entry.1.Whole) ∧
      (writeAll {} lookalikes).words = [0, 8, 8, 0, 22] ∧
      (writeAll {} lookalikes).instructions =
        .ok [(0, ⟨.push, some 8⟩), (2, ⟨.branch, some 0⟩), (4, ⟨.halt, none⟩)] ∧
      (writeAll {} lookalikes).lineAt? 3 = some 1 ∧
      instructions ⟨[0, 8, 8], []⟩ = .error (.missingOperand .branch 2) := by
  have whole : ∀ entry ∈ lookalikes, entry.1.Whole := by decide
  obtain ⟨read, _, _, fails⟩ := encoding_inverse lookalikes ⟨[0, 8, 8], []⟩
  obtain ⟨_, done, lines⟩ := read whole
  refine ⟨whole, by decide, done, lines 2 ⟨.branch, some 0⟩ 1 (by decide) 1 (by decide), ?_⟩
  have bad : Undecodable 2 [Opcode.branch.toWord] (.missingOperand .branch 2) := .operand rfl
  have found : ∀ entry ∈ numbered 0 [⟨.push, some 8⟩],
      decodeAt ⟨[0, 8, 8], []⟩ entry.1 = .ok entry.2 := by
    intro entry listed
    rw [List.mem_singleton.mp listed]
    rfl
  exact (fails _).mpr ⟨[⟨.push, some 8⟩], [8], by decide, rfl, found, bad, rfl⟩

end Image

end ObjectLang
