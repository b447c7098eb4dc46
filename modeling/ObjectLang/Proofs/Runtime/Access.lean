import ObjectLang.Proofs.Runtime.Invariant

/-!
How names and members are reached: the code that resolution chose for a name finds its frame, and
in an object of whatever class below the declared one a member is at the declared offset.
-/
namespace ObjectLang

namespace Layout

theorem fieldOffset_fieldIndex {offset : Word} (negative : ¬ 0 ≤ offset) :
    fieldOffset (fieldIndex offset) = offset := by
  have index := fieldIndex_of_neg negative
  have low := offset.le_toInt
  have small : fieldIndex offset < Word.limit := by
    unfold Word.limit
    omega
  rw [← Int32.toInt_inj, toInt_fieldOffset small, index]
  omega

end Layout

open Machine

variable {L : Loaded} {G H : History} {W : World} {stack : List Word}

theorem Place.effects {c : Snapshot} {b : Binding} {frame : Word}
    (place : Place L c.stack H b frame) (inside : c.fp = H.frame L.base) :
    Effects L.machine L.labels (Use.frame L.base ⟨b, H.context.scopes.level⟩) c
      { c with stack := frame :: c.stack } := by
  unfold Use.frame
  by_cases global : b.level = 0
  · rw [if_pos global, place.fixed global]
    exact .cons (effect_push L.linked L.base) .nil
  · rw [if_neg global]
    have links := place.links global
    rw [← inside] at links
    exact effects_frameWalk L.linked links

namespace World

variable {cls name : String} {layout : Layout} {table : Table Binding} {b : Binding} {w : Word}

theorem coherent_of_class (known : L.final.HasClass cls layout table) :
    Members.Coherent ⟨layout, table, []⟩ := by
  obtain ⟨layout', known', _, coherent⟩ := L.sound.classes cls table known.1
  obtain ⟨rfl, _⟩ := known.unique known'
  exact coherent (L.sized known)

/-- A field of `null` would be below address 0. -/
theorem null_field (known : L.final.HasClass cls layout table) (found : table.find? name = some b)
    (isField : b.ty.isMethod = false) : (-1 + b.offset).toInt < 0 := by
  have slot := (coherent_of_class known).slot name b found
  rw [isField] at slot
  obtain ⟨negative, entry⟩ := Layout.fieldAt?_eq_some.mp slot
  have bound : Layout.fieldIndex b.offset < layout.fields.length :=
    (List.getElem?_eq_some_iff.mp entry).1
  have index := Layout.fieldIndex_of_neg negative
  have small := L.narrow known
  unfold Word.limit at small
  have minusOne : (-1 : Word).toInt = -1 := rfl
  rw [Int32.toInt_add, minusOne, Int.bmod_eq_of_le (by omega) (by omega)]
  omega

theorem Refers.member (refers : W.Refers L cls w) (sound : W.Sound L G)
    (globals : Holds L G W stack G) (known : L.final.HasClass cls layout table)
    (found : table.find? name = some b) :
    ∃ (i : Nat) (c : ClassDecl) (t : Word) (H : History) (b' : Binding),
      w = Int32.ofNat i ∧ W.objects i = some (.cls c t :: H) ∧ (.cls c t :: H) <:+ G ∧
      L.final.HasClass c.name (H.context.members c).layout (H.context.members c).table ∧
      (H.context.members c).table.find? name = some b' ∧ b'.offset = b.offset ∧
      b'.ty.isMethod = b.ty.isMethod ∧ b'.ty.subtype L.inheritance b.ty = true := by
  obtain ⟨i, c, t, H, rfl, object, above⟩ := refers
  obtain ⟨_, _, _, same, part, _⟩ := sound i _ object
  cases same
  have low := globals.known part
  obtain ⟨_, _, high, _, refines⟩ := L.sound.refines_above low (L.sized low)
    ((L.inheritance.isAncestor_iff cls c.name).mp above)
  obtain ⟨rfl, rfl⟩ := known.unique high
  obtain ⟨b', found', rest⟩ := refines.names name b found
  exact ⟨i, c, t, H, b', rfl, object, part, low, found', rest⟩

theorem Refers.field (refers : W.Refers L cls w) (sound : W.Sound L G)
    (globals : Holds L G W stack G) (known : L.final.HasClass cls layout table)
    (found : table.find? name = some b) (isField : b.ty.isMethod = false) :
    ∃ k value, w + b.offset = Int32.ofNat k ∧ W.heap[k]? = some value ∧ W.HasTy L b.ty value := by
  obtain ⟨i, c, t, H, b', rfl, object, part, low, found', place, kind, sub⟩ :=
    refers.member sound globals known found
  obtain ⟨_, _, _, same, _, _, fields⟩ := sound i _ object
  cases same
  have slot := (coherent_of_class low).slot name b' found'
  rw [kind, isField, place] at slot
  obtain ⟨negative, entry⟩ := Layout.fieldAt?_eq_some.mp slot
  obtain ⟨k, value, address, stored, typed⟩ := fields _ _ entry
  refine ⟨k, value, ?_, stored, typed.sub sub⟩
  rw [← Layout.fieldOffset_fieldIndex negative, address, Int32.ofNat_add, Int32.ofNat_add,
    Layout.fieldOffset]
  have one : Int32.ofNat 1 = 1 := rfl
  grind

theorem Refers.method {sig : Signature} (refers : W.Refers L cls w) (sound : W.Sound L G)
    (globals : Holds L G W stack G) (known : L.final.HasClass cls layout table)
    (found : table.find? name = some b) (shape : b.ty = .method sig) :
    ∃ (i : Nat) (t : Word) (k : Nat) (entry : Word) (d : ClassDecl) (u : Word) (K : History)
      (r : Routine), w = Int32.ofNat i ∧ W.heap[i]? = some t ∧ t + b.offset = Int32.ofNat k ∧
      W.heap[k]? = some entry ∧ (.cls d u :: K) <:+ G ∧ W.Refers L d.name w ∧
      r.signature.subtype L.inheritance sig = true ∧ L.Ready (K.context.inClass d) r entry := by
  obtain ⟨i, c, t, H, b', rfl, object, part, low, found', place, kind, sub⟩ :=
    refers.member sound globals known found
  obtain ⟨_, _, _, same, _, header, _⟩ := sound i _ object
  cases same
  rw [shape] at kind sub
  cases shape' : b'.ty with
  | method sig' =>
    cases globals.suffix part with
    | cls _ _ _ _ _ _ dispatches =>
      obtain ⟨start, rfl, entries⟩ := dispatches
      obtain ⟨j, entry, named, stored, label, address, implements, placed, isEntry⟩ :=
        entries name b' sig' found' shape'
      obtain ⟨d, u, K, r, inner, above, rfl, ready⟩ := implements
      have offset : b.offset = Int32.ofNat j := by
        rw [← place, ← Int32.toInt_inj, Word.index?_eq_some.mp named, Int32.toInt_ofNat_of_lt]
        have := b'.offset.toInt_lt
        have := Word.index?_eq_some.mp named
        omega
      rw [shape', Ty.subtype_method] at sub
      exact ⟨i, _, start + j, entry, d, u, K, r, rfl, header, by rw [offset, Int32.ofNat_add],
        stored, inner.trans part, ⟨i, c, _, H, rfl, object, above⟩, sub,
        label, address, ready, placed, isEntry⟩
  | _ => simp [shape', Ty.isMethod] at kind

/-- The world with a new object: its fields, the last one first, and then its table. -/
def allocate (W : World) (values : List Word) (t : Word) (K : History) : World where
  heap := W.heap ++ values.reverse ++ [t]
  objects := fun i => if i = W.heap.length + values.length then some K else W.objects i

theorem Sound.extends_allocate (sound : W.Sound L G) (values : List Word) (t : Word) (K : History) :
    W.Extends (W.allocate values t K) where
  heap := by
    rw [allocate, List.append_assoc]
    exact List.prefix_append _ _
  objects := by
    intro i J found
    obtain ⟨c, u, H, _, _, stored, _⟩ := sound i J found
    obtain ⟨bound, _⟩ := List.getElem?_eq_some_iff.mp stored
    simp only [allocate]
    rw [if_neg (by omega), found]

theorem Sound.allocate (sound : W.Sound L G) {c : ClassDecl} {t : Word} {H : History}
    {values : List Word} (part : (.cls c t :: H) <:+ G)
    (typed : List.Forall₂ (W.HasTy L) (H.context.members c).layout.fields values) :
    (W.allocate values t (.cls c t :: H)).Sound L G := by
  have grows := sound.extends_allocate values t (.cls c t :: H)
  intro i K found
  by_cases new : i = W.heap.length + values.length
  · simp only [World.allocate, if_pos new, Option.some.injEq] at found
    subst found
    refine ⟨c, t, H, rfl, part, by simp [World.allocate, new], ?_⟩
    intro j ty field
    obtain ⟨bound, rfl⟩ := List.getElem?_eq_some_iff.mp field
    have count := typed.length_eq
    have inside : j < values.length := by omega
    refine ⟨W.heap.length + (values.length - 1 - j), values[j], by omega, ?_, ?_⟩
    · simp only [World.allocate, List.append_assoc]
      rw [List.getElem?_append_right (by omega), Nat.add_sub_cancel_left,
        List.getElem?_append_left (by rw [List.length_reverse]; omega),
        List.getElem?_reverse (by omega), show values.length - 1 - (values.length - 1 - j) = j by
          omega, List.getElem?_eq_getElem inside]
    · exact (typed.get bound inside).extend grows
  · simp only [World.allocate, if_neg new] at found
    obtain ⟨d, u, J, same, listed, stored, fields⟩ := sound i K found
    refine ⟨d, u, J, same, listed, grows.read stored, ?_⟩
    intro j ty field
    obtain ⟨k, w, place, stored, typed⟩ := fields j ty field
    exact ⟨k, w, place, grows.read stored, typed.extend grows⟩

end World

end ObjectLang
