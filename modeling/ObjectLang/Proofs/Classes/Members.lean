import ObjectLang.Proofs.Subtyping
import ObjectLang.Proofs.Word
import ObjectLang.Scope.Members

/-!
Members and their slots. A slot is an offset together with the kind of member it is for. One
relation says everything that declaring a member can do to the slots and to the names of a class;
that every name keeps its own slot, with its type in it, follows from that relation alone.
-/
namespace ObjectLang

theorem Word.index?_inj {a b : Word} {i : Nat} (left : index? a = some i) (right : index? b = some i) :
    a = b := by
  rw [index?_eq_some] at left right
  rw [← Int32.toInt_inj, left, right]

namespace Layout

structure Fits (l : Layout) : Prop where
  fields : l.fields.length ≤ Word.limit
  methods : l.methods.length ≤ Word.limit

instance (l : Layout) : Decidable l.Fits :=
  decidable_of_iff (l.fields.length ≤ Word.limit ∧ l.methods.length ≤ Word.limit)
    ⟨fun both => ⟨both.1, both.2⟩, fun fits => ⟨fits.fields, fits.methods⟩⟩

/-- The type in a slot: `true` is for methods, `false` for fields. -/
def typeAt? (l : Layout) : Bool → Word → Option Ty
  | true, offset => (l.methodAt? offset).map .method
  | false, offset => l.fieldAt? offset

def slots (l : Layout) : Bool → Nat
  | true => l.methods.length
  | false => l.fields.length

def slotOffset : Bool → Nat → Word
  | true, i => Int32.ofNat i
  | false, i => fieldOffset i

/-- The layout has `ty` in one slot and keeps what the other layout has in all others. -/
structure Sets (l : Layout) (kind : Bool) (offset : Word) (ty : Ty) (l' : Layout) : Prop where
  here : l'.typeAt? kind offset = some ty
  elsewhere : ∀ kind' offset' t, ¬ (kind' = kind ∧ offset' = offset) →
    l.typeAt? kind' offset' = some t → l'.typeAt? kind' offset' = some t

theorem fieldIndex_of_neg {offset : Word} (negative : ¬ 0 ≤ offset) :
    (fieldIndex offset : Int) = -offset.toInt - 1 := by
  have zero : (0 : Word).toInt = 0 := rfl
  have one : (1 : Word).toInt = 1 := rfl
  rw [Int32.le_iff_toInt_le, zero] at negative
  have low := offset.le_toInt
  have value : (-offset - 1).toInt = -offset.toInt - 1 := by
    rw [Int32.toInt_sub, Int32.toInt_neg, one, Int.bmod_sub_bmod]
    exact Int.bmod_eq_of_le (by omega) (by omega)
  rw [fieldIndex, value]
  omega

theorem fieldAt?_eq_some {l : Layout} {offset : Word} {ty : Ty} :
    l.fieldAt? offset = some ty ↔ ¬ 0 ≤ offset ∧ l.fields[fieldIndex offset]? = some ty := by
  unfold fieldAt?
  split <;> simp_all

theorem fieldIndex_inj {a b : Word} (left : ¬ 0 ≤ a) (right : ¬ 0 ≤ b)
    (same : fieldIndex a = fieldIndex b) : a = b := by
  have first := fieldIndex_of_neg left
  have second := fieldIndex_of_neg right
  rw [← Int32.toInt_inj]
  omega

theorem typeAt?_appendField {l : Layout} (ty : Ty) {kind : Bool} {offset : Word} {t : Ty}
    (found : l.typeAt? kind offset = some t) :
    Layout.typeAt? { l with fields := l.fields ++ [ty] } kind offset = some t := by
  cases kind with
  | true => exact found
  | false =>
    obtain ⟨negative, found⟩ := fieldAt?_eq_some.mp found
    obtain ⟨bound, _⟩ := List.getElem?_eq_some_iff.mp found
    exact fieldAt?_eq_some.mpr ⟨negative, by rw [List.getElem?_append_left bound, found]⟩

theorem sets_appendField {l : Layout} (ty : Ty) (room : l.fields.length < Word.limit) :
    l.Sets false (fieldOffset l.fields.length) ty { l with fields := l.fields ++ [ty] } where
  here := by simp [typeAt?, fieldAt?_fieldOffset _ room]
  elsewhere := fun _ _ _ _ found => typeAt?_appendField ty found

theorem sets_replaceField {l : Layout} {offset : Word} {old : Ty} (ty : Ty)
    (used : l.typeAt? false offset = some old) :
    l.Sets false offset ty { l with fields := l.fields.set (fieldIndex offset) ty } where
  here := by
    obtain ⟨negative, found⟩ := fieldAt?_eq_some.mp used
    obtain ⟨bound, _⟩ := List.getElem?_eq_some_iff.mp found
    exact fieldAt?_eq_some.mpr ⟨negative, by simp [bound]⟩
  elsewhere := by
    intro kind offset' t other found
    cases kind with
    | true => exact found
    | false =>
      obtain ⟨negative, _⟩ := fieldAt?_eq_some.mp used
      obtain ⟨negative', found⟩ := fieldAt?_eq_some.mp found
      have apart : fieldIndex offset ≠ fieldIndex offset' :=
        fun same => other ⟨rfl, (fieldIndex_inj negative negative' same).symm⟩
      exact fieldAt?_eq_some.mpr ⟨negative', by rw [List.getElem?_set_ne apart, found]⟩

theorem methodAt?_eq_some {l : Layout} {offset : Word} {sig : Signature} :
    l.methodAt? offset = some sig ↔
      ∃ i, Word.index? offset = some i ∧ l.methods[i]? = some sig := by
  rw [methodAt?, Option.bind_eq_some_iff]

theorem typeAt?_appendMethod {l : Layout} (sig : Signature) {kind : Bool} {offset : Word} {t : Ty}
    (found : l.typeAt? kind offset = some t) :
    Layout.typeAt? { l with methods := l.methods ++ [sig] } kind offset = some t := by
  cases kind with
  | false => exact found
  | true =>
    obtain ⟨other, entry, rfl⟩ := Option.map_eq_some_iff.mp found
    obtain ⟨i, named, found⟩ := methodAt?_eq_some.mp entry
    obtain ⟨bound, _⟩ := List.getElem?_eq_some_iff.mp found
    refine Option.map_eq_some_iff.mpr ⟨other, methodAt?_eq_some.mpr ⟨i, named, ?_⟩, rfl⟩
    rw [List.getElem?_append_left bound, found]

theorem sets_appendMethod {l : Layout} (sig : Signature) (room : l.methods.length < Word.limit) :
    l.Sets true (Int32.ofNat l.methods.length) (.method sig)
      { l with methods := l.methods ++ [sig] } where
  here := by simp [typeAt?, methodAt?_ofNat _ room]
  elsewhere := fun _ _ _ _ found => typeAt?_appendMethod sig found

theorem sets_replaceMethod {l : Layout} {offset : Word} {i : Nat} {old : Signature} (sig : Signature)
    (named : Word.index? offset = some i) (used : l.methods[i]? = some old) :
    l.Sets true offset (.method sig) { l with methods := l.methods.set i sig } where
  here := by
    obtain ⟨bound, _⟩ := List.getElem?_eq_some_iff.mp used
    exact Option.map_eq_some_iff.mpr ⟨sig, methodAt?_eq_some.mpr ⟨i, named, by simp [bound]⟩, rfl⟩
  elsewhere := by
    intro kind offset' t other found
    cases kind with
    | false => exact found
    | true =>
      obtain ⟨there, entry, rfl⟩ := Option.map_eq_some_iff.mp found
      obtain ⟨j, named', found⟩ := methodAt?_eq_some.mp entry
      have apart : i ≠ j := by
        rintro rfl
        exact other ⟨rfl, Word.index?_inj named' named⟩
      refine Option.map_eq_some_iff.mpr ⟨there, methodAt?_eq_some.mpr ⟨j, named', ?_⟩, rfl⟩
      rw [List.getElem?_set_ne apart, found]

end Layout

namespace Members

/-- Everything that declaring a member can do. The offset is the one its declaration is given. -/
inductive Adds (name : String) (ty : Ty) (offset : Word) (m m' : Members) : Prop
  /-- The name keeps its meaning; at most a slot is appended. -/
  | unnamed (table : m'.table = m.table)
      (kept : ∀ kind offset t, m.layout.typeAt? kind offset = some t →
        m'.layout.typeAt? kind offset = some t)
  /-- The member takes over the slot of an inherited one of its kind. -/
  | replaced {inherited : Binding} (found : m.table.find? name = some inherited)
      (kind : inherited.ty.isMethod = ty.isMethod) (slot : inherited.offset = offset)
      (sets : m.layout.Sets ty.isMethod offset ty m'.layout)
      (table : m'.table = m.table.insert name ⟨level, ty, offset⟩)
  | added (new : m.table.find? name = none) (unused : m.layout.typeAt? ty.isMethod offset = none)
      (sets : m.layout.Sets ty.isMethod offset ty m'.layout)
      (table : m'.table = m.table.insert name ⟨level, ty, offset⟩)

/-- Every name has a slot of its own, and its type is in it. -/
structure Coherent (m : Members) : Prop where
  slot : ∀ name b, m.table.find? name = some b →
    m.layout.typeAt? b.ty.isMethod b.offset = some b.ty
  apart : ∀ name other b c, m.table.find? name = some b → m.table.find? other = some c →
    b.ty.isMethod = c.ty.isMethod → b.offset = c.offset → name = other

theorem addField_adds {m : Members} {f : Field} (coherent : m.Coherent)
    (plain : f.ty.isMethod = false) (fits : (m.addField f).layout.Fits) :
    Adds f.name f.ty (m.fieldPlacement f.name).offset m (m.addField f) := by
  unfold addField at fits ⊢
  unfold fieldPlacement at fits ⊢
  by_cases own : m.own.contains f.name = true
  · rw [if_pos own]
    exact .unnamed rfl fun _ _ _ found => found
  rw [if_neg own] at fits ⊢
  cases known : m.table.find? f.name with
  | none =>
    simp only [known] at fits ⊢
    have room : m.layout.fields.length < Word.limit := by
      have := fits.fields
      simp only [appendField, List.length_append, List.length_singleton] at this
      omega
    refine .added known ?_ ?_ rfl
    · rw [plain, Layout.typeAt?, Placement.offset, Layout.fieldAt?_fieldOffset _ room]
      simp
    · rw [plain]
      exact Layout.sets_appendField f.ty room
  | some inherited =>
    simp only [known] at fits ⊢
    have used := coherent.slot f.name inherited known
    cases kind : inherited.ty.isMethod with
    | true =>
      simp only [if_true]
      exact .unnamed rfl fun _ _ _ found => Layout.typeAt?_appendField f.ty found
    | false =>
      simp only [kind, Bool.false_eq_true, if_false] at fits ⊢
      rw [kind] at used
      refine .replaced known (by rw [kind, plain]) rfl ?_ rfl
      rw [plain]
      exact Layout.sets_replaceField f.ty used

theorem addMethod_adds {m : Members} {name : String} {sig : Signature} (coherent : m.Coherent)
    (fits : (m.addMethod name sig).layout.Fits) :
    Adds name (.method sig) (m.methodPlacement name).offset m (m.addMethod name sig) := by
  unfold addMethod at fits ⊢
  unfold methodPlacement at fits ⊢
  by_cases own : m.own.contains name = true
  · rw [if_pos own]
    exact .unnamed rfl fun _ _ _ found => found
  rw [if_neg own] at fits ⊢
  cases known : m.table.find? name with
  | none =>
    simp only [known] at fits ⊢
    have room : m.layout.methods.length < Word.limit := by
      have := fits.methods
      simp only [appendMethod, List.length_append, List.length_singleton] at this
      omega
    refine .added known ?_ (Layout.sets_appendMethod sig room) rfl
    show m.layout.typeAt? true _ = none
    rw [Layout.typeAt?, Placement.offset, Layout.methodAt?_ofNat _ room]
    simp
  | some inherited =>
    simp only [known] at fits ⊢
    have used := coherent.slot name inherited known
    cases kind : inherited.ty.isMethod with
    | false =>
      simp only [Bool.false_eq_true, if_false]
      exact .unnamed rfl fun _ _ _ found => Layout.typeAt?_appendMethod sig found
    | true =>
      simp only [kind, if_true] at fits ⊢
      rw [kind] at used
      obtain ⟨old, entry, _⟩ := Option.map_eq_some_iff.mp used
      obtain ⟨i, named, entry⟩ := Layout.methodAt?_eq_some.mp entry
      refine .replaced known (by rw [kind]; rfl) rfl ?_ rfl
      simp only [replaceMethod, Placement.offset, named]
      exact Layout.sets_replaceMethod sig named entry

theorem coherent_empty : Coherent {} where
  slot := by
    intro name b found
    cases found
  apart := by
    intro name other b c found
    cases found

theorem Coherent.adds {m m' : Members} {name : String} {ty : Ty} {offset : Word}
    (coherent : m.Coherent) (adds : Adds name ty offset m m') : m'.Coherent := by
  -- A name that is given a slot gets one that no other name of its kind has.
  have given (sets : m.layout.Sets ty.isMethod offset ty m'.layout)
      (table : m'.table = m.table.insert name ⟨level, ty, offset⟩)
      (free : ∀ other c, m.table.find? other = some c → c.ty.isMethod = ty.isMethod →
        c.offset = offset → other = name) : m'.Coherent := by
    constructor
    · intro other b found
      rw [table, Table.find?_insert_eq_some] at found
      rcases found with ⟨_, rfl⟩ | ⟨ne, old⟩
      · exact sets.here
      · refine sets.elsewhere _ _ _ ?_ (coherent.slot other b old)
        exact fun clash => ne (free other b old clash.1 clash.2)
    · intro first second b c left right kind place
      rw [table, Table.find?_insert_eq_some] at left right
      rcases left with ⟨rfl, rfl⟩ | ⟨_, left⟩ <;> rcases right with ⟨same, rfl⟩ | ⟨_, right⟩
      · exact same.symm
      · exact (free second c right kind.symm place.symm).symm
      · rw [same]
        exact free first b left kind place
      · exact coherent.apart first second b c left right kind place
  cases adds with
  | unnamed table kept =>
    constructor
    · intro other b found
      rw [table] at found
      exact kept _ _ _ (coherent.slot other b found)
    · intro first second b c left right
      rw [table] at left right
      exact coherent.apart first second b c left right
  | @replaced inherited found kind slot sets table =>
    refine given sets table ?_
    intro other c known sameKind samePlace
    exact coherent.apart other name c inherited known found (by rw [sameKind, kind])
      (by rw [samePlace, slot])
  | added new unused sets table =>
    refine given sets table ?_
    intro other c known sameKind samePlace
    have used := coherent.slot other c known
    rw [sameKind, samePlace, unused] at used
    cases used

/-- Members that can stand for others: each slot and each name is still there, in the same place
and with a subtype. -/
structure Refines (h : Inheritance) (base m : Members) : Prop where
  slots : ∀ kind offset t, base.layout.typeAt? kind offset = some t →
    ∃ t', m.layout.typeAt? kind offset = some t' ∧ t'.subtype h t = true
  names : ∀ name b, base.table.find? name = some b →
    ∃ b', m.table.find? name = some b' ∧ b'.offset = b.offset ∧
      b'.ty.isMethod = b.ty.isMethod ∧ b'.ty.subtype h b.ty = true

theorem Refines.adds {h : Inheritance} {base m m' : Members} {name : String} {ty : Ty}
    {offset : Word} (coherent : base.Coherent) (refines : Refines h base m)
    (below : ∀ t, base.layout.typeAt? ty.isMethod offset = some t → ty.subtype h t = true)
    (adds : Adds name ty offset m m') : Refines h base m' := by
  cases adds with
  | unnamed table kept =>
    constructor
    · intro kind place t found
      obtain ⟨t', found', sub⟩ := refines.slots kind place t found
      exact ⟨t', kept _ _ _ found', sub⟩
    · rw [table]
      exact refines.names
  | @replaced inherited found kind slot sets table =>
    constructor
    · intro kind place t used
      by_cases here : kind = ty.isMethod ∧ place = offset
      · obtain ⟨rfl, rfl⟩ := here
        exact ⟨ty, sets.here, below t used⟩
      · obtain ⟨t', used', sub⟩ := refines.slots kind place t used
        exact ⟨t', sets.elsewhere _ _ _ here used', sub⟩
    · intro other b known
      obtain ⟨b', known', place, sameKind, sub⟩ := refines.names other b known
      rw [table]
      by_cases same : other = name
      · subst same
        rw [found, Option.some.injEq] at known'
        subst known'
        rw [Table.find?_insert_self]
        have used := coherent.slot other b known
        rw [← sameKind, ← place, kind, slot] at used
        exact ⟨_, rfl, by rw [← place, slot], by rw [← sameKind, kind], below _ used⟩
      · rw [Table.find?_insert_of_ne _ same]
        exact ⟨b', known', place, sameKind, sub⟩
  | added new unused sets table =>
    constructor
    · intro kind place t used
      obtain ⟨t', used', sub⟩ := refines.slots kind place t used
      refine ⟨t', sets.elsewhere _ _ _ ?_ used', sub⟩
      rintro ⟨rfl, rfl⟩
      rw [unused] at used'
      cases used'
    · intro other b known
      obtain ⟨b', known', rest⟩ := refines.names other b known
      rw [table]
      by_cases same : other = name
      · subst same
        rw [new] at known'
        cases known'
      · rw [Table.find?_insert_of_ne _ same]
        exact ⟨b', known', rest⟩

end Members

end ObjectLang
