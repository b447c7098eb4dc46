import ObjectLang.Proofs.Machine.Outcomes

/-!
Stack effects of opcodes. Every opcode raises or lowers the stack by a fixed number of words, which
is what the machine does to its stack pointer whenever the instruction succeeds.
-/
namespace ObjectLang

/-- By how many words an opcode raises the stack. A `js` takes its target. -/
def Opcode.effect : Opcode → Int
  | .push | .loadRa | .loadTm | .loadFp | .loadHp => 1
  | .loadW | .branch | .copyFp | .print | .halt => 0
  | .pop | .add | .sub | .mult | .div | .js | .storeRa | .storeTm | .storeFp | .storeHp => -1
  | .storeW | .branchEq | .branchLessEq => -2

theorem Opcode.effect_eq (op : Opcode) : op.effect = op.given - op.taken := by cases op <;> rfl

namespace Machine

def Raises {α : Type} (x : Action α) (words : Int) : Prop :=
  ∀ s a s', x s = .ok a s' → s'.sp = s.sp - Int32.ofInt words

variable {m : Machine} {s s' : State} {act : Act} {start : Nat} {op : Opcode} {words : List Word}

theorem Acts.sp (acts : Acts m s act (.ok () s')) (fits : act.Fits start op words) :
    s'.sp = s.sp - Int32.ofNat op.given := by
  have still (none : op.given = 0) : s.sp = s.sp - Int32.ofNat op.given := by
    rw [none]
    exact (Int32.sub_zero _).symm
  cases acts with
  | pushed gives place inside clear =>
    have one : op.given = 1 := by cases gives <;> exact fits
    rw [one]
    rfl
  | nothing => exact still (by rcases fits with rfl | rfl | rfl <;> rfl)
  | jumped => exact still (by cases op <;> first | rfl | cases fits)
  | stored => exact still (by rw [fits.1]; rfl)
  | fp => exact still (by rcases fits with rfl | rfl <;> rfl)
  | called | ra | tm | hp | printed | halted => exact still (by cases fits; rfl)

theorem raises_exec (m : Machine) (start : Nat) (op : Opcode) :
    Raises (m.exec start op) op.effect := by
  intro s a s' done
  obtain ⟨operand, ip, performed⟩ := exec_performs m start op s
  rw [done] at performed
  cases performed with
  | acted read _ _ taken acts =>
    rw [acts.sp (fits_act start read taken), op.effect_eq, Int32.ofInt_sub, Int32.ofInt_eq_ofNat,
      Int32.ofInt_eq_ofNat]
    simp only [State.drop]
    grind

end Machine

end ObjectLang
