import ObjectLang.Ty.Basic

/-!
Natural numbers as words. Below 2 ^ 31 nothing is lost: positions and offsets can be read back.
-/
namespace ObjectLang

namespace Word

/-- The first natural number that no word stands for, 2 ^ 31. -/
def limit : Nat := 2147483648

theorem index?_eq_some {w : Word} {i : Nat} : index? w = some i ↔ w.toInt = i := by
  unfold index?
  cases w.toInt with
  | ofNat n =>
    simp only [Int.toNat?, Option.some.injEq, Int.ofNat_eq_natCast]
    omega
  | negSucc n =>
    simp only [Int.toNat?, reduceCtorEq]

theorem index?_ofNat {n : Nat} (small : n < limit) : index? (Int32.ofNat n) = some n := by
  rw [index?_eq_some, Int32.toInt_ofNat_of_lt small]

theorem ofNat_le {m n : Nat} (left : m < limit) (right : n < limit) :
    Int32.ofNat m ≤ Int32.ofNat n ↔ m ≤ n := by
  rw [Int32.le_iff_toInt_le, Int32.toInt_ofNat_of_lt left, Int32.toInt_ofNat_of_lt right]
  omega

theorem ofNat_succ_sub_one (n : Nat) : Int32.ofNat (n + 1) - 1 = Int32.ofNat n := by
  have one : Int32.ofNat 1 = 1 := rfl
  rw [Int32.ofNat_add, one]
  grind

theorem ofSize_eq {size : Nat} (small : size < limit) : ofSize size = Int32.ofNat size := by
  unfold limit at small
  rw [ofSize, Nat.min_eq_left (by omega)]

end Word

namespace Layout

theorem neg_fieldOffset (i : Nat) : -fieldOffset i - 1 = Int32.ofNat i := by
  unfold fieldOffset
  grind

theorem fieldIndex_fieldOffset {i : Nat} (small : i < Word.limit) :
    fieldIndex (fieldOffset i) = i := by
  rw [fieldIndex, neg_fieldOffset, Int32.toInt_ofNat_of_lt small]
  unfold Word.limit at small
  omega

theorem toInt_fieldOffset {i : Nat} (small : i < Word.limit) :
    (fieldOffset i).toInt = -i - 1 := by
  have value : fieldOffset i = Int32.ofInt (-i - 1) := by
    rw [fieldOffset, Int32.ofInt_sub, Int32.ofInt_neg]
    rfl
  unfold Word.limit at small
  rw [value, Int32.toInt_ofInt_of_le (by omega) (by omega)]

theorem fieldAt?_fieldOffset (l : Layout) {i : Nat} (small : i < Word.limit) :
    l.fieldAt? (fieldOffset i) = l.fields[i]? := by
  have negative : ¬ (0 : Word) ≤ fieldOffset i := by
    rw [Int32.le_iff_toInt_le, toInt_fieldOffset small]
    have zero : (0 : Word).toInt = 0 := rfl
    omega
  rw [fieldAt?, if_neg negative, fieldIndex_fieldOffset small]

theorem methodAt?_ofNat (l : Layout) {i : Nat} (small : i < Word.limit) :
    l.methodAt? (Int32.ofNat i) = l.methods[i]? := by
  rw [methodAt?, Word.index?_ofNat small]
  rfl

end Layout

end ObjectLang
