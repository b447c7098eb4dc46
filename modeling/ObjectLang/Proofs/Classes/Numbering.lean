import ObjectLang.Proofs.Classes.Slots

/-!
Offsets of methods. The methods of a class that is declared without a fault get offsets of slots in
use or the next free one, and no two of them get the same. This needs no bound on the number of
fields, and methods only have to be as few as there are offsets for them.
-/
namespace ObjectLang

theorem Word.ofNat_inj {i j : Nat} (left : i < limit) (right : j < limit)
    (same : Int32.ofNat i = Int32.ofNat j) : i = j := by
  have index := index?_ofNat left
  rw [same, index?_ofNat right] at index
  exact (Option.some.inj index).symm

/-- Offsets for methods that are added to `count` slots: each is that of a slot in use or of the
next one, no two are the same, and there are `total` slots in the end. -/
inductive Method.Numbered : Nat → List Method → Nat → Prop
  | nil {count} : Numbered count [] count
  | cons {count total k m methods} (offset : m.offset = Int32.ofNat k) (bound : k ≤ count)
      (apart : ∀ later ∈ methods, later.offset ≠ m.offset)
      (tail : Numbered (max count (k + 1)) methods total) : Numbered count (m :: methods) total

theorem Method.Numbered.le {count total : Nat} {methods : List Method}
    (numbered : Numbered count methods total) : count ≤ total := by
  induction numbered with
  | nil => exact Nat.le_refl _
  | cons offset bound apart tail ih => omega

namespace Members

variable {clean : Prop} {name : String} {ty : Ty} {m m' : Members}

structure Placed (m : Members) : Prop where
  slot : ∀ name b, m.table.find? name = some b → b.ty.isMethod = true →
    ∃ k < m.layout.slots true, b.offset = Int32.ofNat k
  apart : ∀ name other b c, m.table.find? name = some b → m.table.find? other = some c →
    b.ty.isMethod = true → c.ty.isMethod = true → b.offset = c.offset → name = other

theorem slots_addMethods_le (m : Members) (methods : List Method) :
    (m.addMethods methods).layout.slots true ≤ m.layout.slots true + methods.length := by
  induction methods generalizing m with
  | nil => exact Nat.le_refl _
  | cons method methods ih =>
    have one : (m.addMethod method.name method.routine.signature).layout.slots true ≤
        m.layout.slots true + 1 := by
      unfold addMethod appendMethod replaceMethod
      split
      · exact Nat.le_succ _
      · simp [Layout.slots]
      · split <;> simp [Layout.slots]
      · simp [Layout.slots]
    have more := ih (m.addMethod method.name method.routine.signature)
    rw [List.length_cons]
    exact Nat.le_trans more (by omega)

theorem placed_empty : Placed {} where
  slot := by
    intro name b found
    cases found
  apart := by
    intro name other b c found
    cases found

/-- A name that a declaration leaves was there before with the same offset and kind, or it is new
and has the next offset. -/
theorem Declares.origin (declares : Declares clean name ty m m') (holds : clean) {other : String}
    {b : Binding} (found : m'.table.find? other = some b) :
    (∃ b₀, m.table.find? other = some b₀ ∧ b.offset = b₀.offset ∧
      b.ty.isMethod = b₀.ty.isMethod) ∨
    other = name ∧ m.table.find? name = none ∧ b.ty = ty ∧
      b.offset = Layout.slotOffset ty.isMethod (m.layout.slots ty.isMethod) := by
  cases declares with
  | unnamed faulty => exact absurd holds faulty
  | @override inherited known kind table slots =>
    left
    rw [table, Table.find?_insert_eq_some] at found
    rcases found with ⟨rfl, rfl⟩ | ⟨_, old⟩
    · exact ⟨inherited, known, rfl, kind.symm⟩
    · exact ⟨b, old, rfl, rfl⟩
  | fresh free table slots =>
    rw [table, Table.find?_insert_eq_some] at found
    rcases found with ⟨rfl, rfl⟩ | ⟨_, old⟩
    · exact .inr ⟨rfl, free, rfl, rfl⟩
    · exact .inl ⟨b, old, rfl, rfl⟩

theorem Declares.room_of_fresh (declares : Declares clean name ty m m') (holds : clean)
    (free : m.table.find? name = none) (isMethod : ty.isMethod = true) :
    m'.layout.slots true = m.layout.slots true + 1 := by
  cases declares with
  | unnamed faulty => exact absurd holds faulty
  | override known =>
    rw [free] at known
    cases known
  | fresh _ _ slots => rw [slots true, if_pos isMethod.symm]

theorem Declares.placed (declares : Declares clean name ty m m') (holds : clean)
    (small : m'.layout.slots true ≤ Word.limit) (placed : m.Placed) : m'.Placed := by
  have grows := declares.keeps.slots true
  -- An old method and a new one have different offsets: the new slot is behind all others.
  have differ : ∀ {other : String} {b₀ b : Binding}, m.table.find? other = some b₀ →
      b₀.ty.isMethod = true → m.table.find? name = none → b.ty = ty → b.ty.isMethod = true →
      b.offset = Layout.slotOffset ty.isMethod (m.layout.slots ty.isMethod) →
      b₀.offset ≠ b.offset := by
    intro other b₀ b known kind free isTy isMethod next same
    obtain ⟨k, bound, offset⟩ := placed.slot other b₀ known kind
    rw [isTy] at isMethod
    have room := declares.room_of_fresh holds free isMethod
    rw [isMethod] at next
    rw [offset, next] at same
    have equal := Word.ofNat_inj (by omega) (by omega) same
    omega
  constructor
  · intro other b found isMethod
    rcases declares.origin holds found with ⟨b₀, known, offset, kind⟩ | ⟨_, free, isTy, offset⟩
    · obtain ⟨k, bound, place⟩ := placed.slot other b₀ known (kind ▸ isMethod)
      exact ⟨k, by omega, offset.trans place⟩
    · rw [isTy] at isMethod
      rw [isMethod] at offset
      exact ⟨m.layout.slots true, by rw [declares.room_of_fresh holds free isMethod]; omega, offset⟩
  · intro one other b c foundOne foundOther isMethod isMethod' same
    rcases declares.origin holds foundOne with ⟨b₀, known, offset, kind⟩ | ⟨new, free, isTy, offset⟩
    · rcases declares.origin holds foundOther with
        ⟨c₀, known', offset', kind'⟩ | ⟨_, free, isTy, offset'⟩
      · exact placed.apart one other b₀ c₀ known known' (kind ▸ isMethod) (kind' ▸ isMethod')
          (offset.symm.trans (same.trans offset'))
      · exact absurd (offset.symm.trans same)
          (differ known (kind ▸ isMethod) free isTy isMethod' offset')
    · rcases declares.origin holds foundOther with
        ⟨c₀, known', offset', kind'⟩ | ⟨new', _⟩
      · exact absurd (offset'.symm.trans same.symm)
          (differ known' (kind' ▸ isMethod') free isTy isMethod offset)
      · exact new.trans new'.symm

variable {h : Inheritance} {cls : String}

theorem placed_addFields {fields : List Field} (plain : ∀ f ∈ fields, f.ty.isMethod = false)
    (silent : m.fieldsErrors h cls fields = [])
    (small : (m.addFields fields).layout.slots true ≤ Word.limit) (placed : m.Placed) :
    (m.addFields fields).Placed := by
  induction fields generalizing m with
  | nil => exact placed
  | cons f fields ih =>
    obtain ⟨one, others⟩ := List.append_eq_nil_iff.mp silent
    have declares := addField_declares (m := m) h cls (plain f List.mem_cons_self)
    have plainRest : ∀ g ∈ fields, g.ty.isMethod = false :=
      fun g mem => plain g (List.mem_cons_of_mem _ mem)
    have later := (keeps_addFields (m := m.addField f) plainRest).slots true
    exact ih plainRest others small (declares.placed one (Nat.le_trans later small) placed)

theorem entered_addMethod {method : Method} (silent : m.methodErrors h cls method = []) :
    (m.addMethod method.name method.routine.signature).own = method.name :: m.own ∧
      (m.addMethod method.name method.routine.signature).table.find? method.name =
        some ⟨level, .method method.routine.signature, (m.methodPlacement method.name).offset⟩ := by
  have placement := (List.append_eq_nil_iff.mp silent).2
  unfold addMethod
  cases placed : m.methodPlacement method.name with
  | duplicate _ | clash _ =>
    rw [placed] at placement
    cases placement
  | override _ | fresh _ => exact ⟨rfl, Table.find?_insert_self _ _ _⟩

theorem offset_addMethod {method : Method} (silent : m.methodErrors h cls method = [])
    (placed : m.Placed) :
    ∃ k ≤ m.layout.slots true, (m.methodPlacement method.name).offset = Int32.ofNat k ∧
      (m.addMethod method.name method.routine.signature).layout.slots true =
        max (m.layout.slots true) (k + 1) := by
  have declares : Declares (m.methodErrors h cls method = []) method.name _ m _ :=
    addMethod_declares h cls
  have room := declares.room_of_fresh silent
  obtain ⟨_, entered⟩ := entered_addMethod silent
  cases declares with
  | unnamed faulty => exact absurd silent faulty
  | @override inherited known kind table slots =>
    rw [table, Table.find?_insert_self, Option.some.injEq, Binding.mk.injEq] at entered
    obtain ⟨k, bound, offset⟩ := placed.slot _ inherited known kind
    refine ⟨k, Nat.le_of_lt bound, entered.2.2.symm.trans offset, ?_⟩
    rw [slots true]
    omega
  | fresh free table slots =>
    rw [table, Table.find?_insert_self, Option.some.injEq, Binding.mk.injEq] at entered
    refine ⟨m.layout.slots true, Nat.le_refl _, entered.2.2.symm, ?_⟩
    rw [room free rfl]
    omega

theorem placed_addMethod {method : Method} (silent : m.methodErrors h cls method = [])
    {methods : List Method}
    (small : ((m.addMethod method.name method.routine.signature).addMethods methods).layout.slots
      true ≤ Word.limit) (placed : m.Placed) :
    (m.addMethod method.name method.routine.signature).Placed := by
  have later := (keeps_addMethods (m := m.addMethod method.name method.routine.signature)
    methods).slots true
  exact (addMethod_declares h cls).placed silent (Nat.le_trans later small) placed

theorem offset_ne_of_own {ctx : Context} {methods : List Method}
    (silent : m.methodsErrors h cls methods = [])
    (small : (m.addMethods methods).layout.slots true ≤ Word.limit) (placed : m.Placed)
    {b : Binding} (own : name ∈ m.own) (found : m.table.find? name = some b)
    (isMethod : b.ty.isMethod = true) :
    ∀ later ∈ Decl.resolveMethods ctx m methods, later.offset ≠ b.offset := by
  induction methods generalizing m b with
  | nil => exact fun later listed => absurd listed List.not_mem_nil
  | cons method methods ih =>
    obtain ⟨one, others⟩ := List.append_eq_nil_iff.mp silent
    obtain ⟨owns, entered⟩ := entered_addMethod one
    have placed' := placed_addMethod one small placed
    have declares : Declares (m.methodErrors h cls method = []) method.name _ m _ :=
      addMethod_declares h cls
    obtain ⟨b', found', offset', kind'⟩ := declares.keeps.names name b found
    rw [isMethod] at kind'
    obtain ⟨routine, offset⟩ := method
    intro later listed
    rcases List.mem_cons.mp listed with rfl | listed
    · intro same
      have equal := placed'.apart _ _ _ _ entered found' rfl kind' (same.trans offset'.symm)
      have new := own_of_methodErrors one
      rw [equal, List.contains_iff_mem.mpr own] at new
      cases new
    · rw [← offset']
      exact ih others small placed' (owns ▸ List.mem_cons_of_mem _ own) found' kind' later listed

theorem numbered_addMethods {ctx : Context} {methods : List Method}
    (silent : m.methodsErrors h cls methods = [])
    (small : (m.addMethods methods).layout.slots true ≤ Word.limit) (placed : m.Placed) :
    (m.addMethods methods).Placed ∧
      Method.Numbered (m.layout.slots true) (Decl.resolveMethods ctx m methods)
        ((m.addMethods methods).layout.slots true) := by
  induction methods generalizing m with
  | nil => exact ⟨placed, .nil⟩
  | cons method methods ih =>
    obtain ⟨one, others⟩ := List.append_eq_nil_iff.mp silent
    obtain ⟨owns, entered⟩ := entered_addMethod one
    obtain ⟨k, bound, offset, total⟩ := offset_addMethod one placed
    have placed' := placed_addMethod one small placed
    obtain ⟨placedAll, tail⟩ := ih others small placed'
    rw [total] at tail
    obtain ⟨routine, old⟩ := method
    refine ⟨placedAll, .cons offset bound ?_ tail⟩
    exact offset_ne_of_own others small placed' (owns ▸ List.mem_cons_self) entered rfl

end Members

theorem Context.numbered_members {ctx : Context} {c : ClassDecl}
    (plain : ∀ f ∈ c.fields, f.ty.isMethod = false) (header : c.headerErrors ctx = [])
    (small : (ctx.members c).layout.slots true ≤ Word.limit) (placed : (ctx.inherited c).Placed) :
    (ctx.members c).Placed ∧
      Method.Numbered ((ctx.inherited c).layout.slots true) (c.resolve ctx).methods
        ((ctx.members c).layout.slots true) := by
  simp only [ClassDecl.headerErrors, List.append_eq_nil_iff] at header
  obtain ⟨⟨⟨_, fieldsClean⟩, methodsClean⟩, _⟩ := header
  have room := Nat.le_trans ((Members.keeps_addMethods c.methods).slots true) small
  have count : ((ctx.inherited c).addFields c.fields).layout.slots true =
      (ctx.inherited c).layout.slots true :=
    congrArg List.length (Members.methods_addFields _ _)
  rw [← count]
  exact Members.numbered_addMethods methodsClean small
    (Members.placed_addFields plain fieldsClean room placed)

end ObjectLang
