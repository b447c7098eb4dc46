import ObjectLang.Proofs.Runtime.Invariant

/-!
The dispatch tables of lowering. The table of a class has one label for each method of its layout,
and at that label is a method with the signature of the slot, from the class itself or from one
above it. Only classes have tables, and only the program itself declares classes.
-/
namespace ObjectLang

open Lower

namespace Decl

variable {h : Inheritance} {g : Word}

mutual

theorem dispatch_code : (d : Decl) → ∀ {ctx : Context} {s t : Supply} {f : Fragment},
    0 < ctx.scopes.level → d.Typed h ctx → Yields ((d.resolve ctx).code g) s f t →
      t.dispatch = s.dispatch
  | .var ⟨line, name, ty, init⟩ => by
    intro inner typed lowered
    obtain ⟨c, value, rfl⟩ := yields_var.mp lowered
    exact (Expr.enclosed _ value).dispatch
  | .fn routine => by
    intro inner typed lowered
    obtain ⟨bodies, body, rfl⟩ := yields_fn.mp lowered
    cases typed with
    | fn free typed =>
      refine (dispatch_routineCode routine ?_ typed body).trans rfl
      rw [Scopes.level] at inner
      rw [← List.length_pos_iff, Context.after, Context.declare, Scopes.length_declare]
      omega
  | .cls c => by
    intro inner typed lowered
    cases typed with
    | cls global =>
      rw [Context.isGlobal, beq_iff_eq] at global
      omega

theorem dispatch_routineCode : (r : Routine) → ∀ {ctx : Context} {entry : Label} {s t : Supply}
    {bodies : List Code}, ctx.scopes.tables ≠ [] → RoutineTyped h ctx r →
      Yields (routineCode g entry (resolveRoutine ctx r)) s bodies t → t.dispatch = s.dispatch
  | ⟨line, name, ret, params, locals, body⟩ => by
    intro opened typed lowered
    obtain ⟨inner, result, u, first, second, rfl⟩ := yields_routineCode.mp lowered
    cases typed with
    | intro _ typed =>
      rw [(Expr.enclosed _ second).dispatch]
      refine dispatch_allCode locals ?_ typed first
      rw [Context.level_inRoutine]
      exact List.length_pos_iff.mpr opened

theorem dispatch_allCode : (ds : List Decl) → ∀ {ctx : Context} {s t : Supply} {f : Fragment},
    0 < ctx.scopes.level → AllTyped h ctx ds → Yields (allCode g (resolveAll ctx ds)) s f t →
      t.dispatch = s.dispatch
  | [] => by
    intro inner typed lowered
    obtain ⟨rfl, rfl⟩ := yields_allCode_nil.mp lowered
    rfl
  | d :: ds => by
    intro inner typed lowered
    obtain ⟨head, tail, u, one, others, rfl⟩ := yields_allCode_cons.mp lowered
    cases typed with
    | cons first rest =>
      rw [← dispatch_code d inner first one]
      refine dispatch_allCode ds ?_ rest others
      cases d with
      | var | fn => exact Nat.lt_of_lt_of_eq inner Scopes.level_declare.symm
      | cls =>
        cases first with
        | cls global =>
          rw [Context.isGlobal, beq_iff_eq] at global
          omega

end

theorem dispatch_methodsCode {methods : List Method} {ctx : Context} {m : Members} {first : Nat}
    {s t : Supply} {bodies : List Code} (opened : ctx.scopes.tables ≠ [])
    (typed : MethodsTyped h ctx methods)
    (lowered : Yields (methodsCode g first (resolveMethods ctx m methods)) s bodies t) :
    t.dispatch = s.dispatch := by
  induction methods generalizing m first s bodies with
  | nil =>
    obtain ⟨rfl, rfl⟩ := yields_methodsCode_nil.mp lowered
    rfl
  | cons method methods ih =>
    obtain ⟨routine, offset⟩ := method
    obtain ⟨head, tail, u, one, others, rfl⟩ := yields_methodsCode_cons.mp lowered
    cases typed with
    | cons first rest => rw [ih rest others, dispatch_routineCode routine opened first one]

end Decl

theorem forall₂_set {α β : Type} {R : α → β → Prop} {as : List α} {bs : List β} {a : α} {b : β}
    (each : List.Forall₂ R as bs) (i : Nat) (here : R a b) :
    List.Forall₂ R (as.set i a) (bs.set i b) := by
  induction each generalizing i with
  | nil => exact .nil
  | cons head tail ih =>
    cases i with
    | zero => exact .cons here tail
    | succ i => exact .cons head (ih i)

theorem forall₂_getElem? {α β : Type} {R : α → β → Prop} {as : List α} {bs : List β}
    (each : List.Forall₂ R as bs) {i : Nat} {a : α} (found : as[i]? = some a) :
    ∃ b, bs[i]? = some b ∧ R a b := by
  obtain ⟨bound, rfl⟩ := List.getElem?_eq_some_iff.mp found
  have inside : i < bs.length := by rw [← each.length_eq]; exact bound
  exact ⟨bs[i], List.getElem?_eq_getElem inside, each.get bound inside⟩

namespace Members

variable {R : Signature → Label → Prop} {m : Members} {labels : List Label}

theorem filled_addMethod {name : String} {sig : Signature} {entry : Label} (coherent : m.Coherent)
    (filled : List.Forall₂ R m.layout.methods labels) (fits : (m.addMethod name sig).layout.Fits)
    (new : m.own.contains name = false) (own : R sig entry) :
    List.Forall₂ R (m.addMethod name sig).layout.methods
      (fillSlot labels (m.methodPlacement name).offset entry) := by
  have count := filled.length_eq
  have appended (room : m.layout.methods.length < Word.limit) : List.Forall₂ R
      (m.layout.methods ++ [sig]) (fillSlot labels (Int32.ofNat m.layout.methods.length) entry) := by
    simp only [fillSlot, Word.index?_ofNat room]
    rw [if_neg (by omega)]
    exact List.rel_append filled (.cons own .nil)
  unfold addMethod at fits ⊢
  unfold methodPlacement at fits ⊢
  simp only [new, Bool.false_eq_true, if_false] at fits ⊢
  cases known : m.table.find? name with
  | none =>
    simp only [known] at fits ⊢
    refine appended ?_
    have := fits.methods
    simp only [appendMethod, List.length_append, List.length_singleton] at this
    omega
  | some inherited =>
    simp only [known] at fits ⊢
    cases kind : inherited.ty.isMethod with
    | false =>
      simp only [kind, Bool.false_eq_true, if_false] at fits ⊢
      refine appended ?_
      have := fits.methods
      simp only [appendMethod, List.length_append, List.length_singleton] at this
      omega
    | true =>
      simp only [if_true]
      have used := coherent.slot name inherited known
      rw [kind] at used
      obtain ⟨old, found, _⟩ := Option.map_eq_some_iff.mp used
      obtain ⟨i, named, found⟩ := Layout.methodAt?_eq_some.mp found
      obtain ⟨bound, _⟩ := List.getElem?_eq_some_iff.mp found
      simp only [replaceMethod, fillSlot, Placement.offset, named]
      rw [if_pos (by omega)]
      exact forall₂_set filled i own

theorem filled_addMethods {h : Inheritance} {cls : String} {ctx : Context} {first : Nat}
    {methods : List Method} (coherent : m.Coherent)
    (filled : List.Forall₂ R m.layout.methods labels)
    (fits : (m.addMethods methods).layout.Fits) (clean : m.methodsErrors h cls methods = [])
    (own : ∀ k method, methods[k]? = some method → R method.routine.signature ⟨first + k⟩) :
    List.Forall₂ R (m.addMethods methods).layout.methods
      (fillTable labels first (Decl.resolveMethods ctx m methods)) := by
  induction methods generalizing m labels first with
  | nil => exact filled
  | cons method methods ih =>
    obtain ⟨routine, offset⟩ := method
    rw [methodsErrors, List.append_eq_nil_iff] at clean
    have smaller : (m.addMethod routine.name routine.signature).layout.Fits :=
      fits_of_addMethods fits
    refine ih (coherent.adds (addMethod_adds coherent smaller))
      (filled_addMethod coherent filled smaller (own_of_methodErrors clean.1) (own 0 _ rfl))
      fits clean.2 ?_
    intro k method found
    have entry := own (k + 1) method found
    rwa [Nat.add_comm k 1, ← Nat.add_assoc] at entry

end Members

namespace Loaded

variable {L : Loaded} {H : History} {s t : Supply}

theorem ImplementsAt.extend {K : History} {cls : String} {sig : Signature} {label : Label}
    (implements : L.ImplementsAt K cls sig label) (part : K <:+ H) :
    L.ImplementsAt H cls sig label := by
  obtain ⟨d, u, J, r, inner, rest⟩ := implements
  exact ⟨d, u, J, r, inner.trans part, rest⟩

theorem ImplementsAt.inherit {cls parent : String} {sig : Signature} {label : Label}
    (implements : L.ImplementsAt H parent sig label) (up : L.inheritance.Parent cls parent) :
    L.ImplementsAt H cls sig label := by
  obtain ⟨d, u, J, r, inner, above, rest⟩ := implements
  have parent := (L.inheritance.isAncestor_iff _ _).mpr (Relation.ReflTransGen.single up)
  exact ⟨d, u, J, r, inner, Inheritance.isAncestor_trans above parent, rest⟩

theorem ReadyAt.placed {ctx : Context} {r : Routine} {label : Label} (ready : L.ReadyAt ctx r label) :
    ∃ address inner result s u t, L.labels.address? label = some address ∧
      Yields (Decl.allCode L.base (Decl.resolveAll (ctx.inRoutine r.params) r.locals)) s inner u ∧
      Yields ((r.body.resolve (r.locals.foldl Context.after (ctx.inRoutine r.params))).code L.base)
        u result t ∧
      L.Hosts inner.bodies ∧ Code.At L.machine.code L.labels address
        (Decl.routineItems label (Decl.resolveRoutine ctx r) inner.inline result) := by
  obtain ⟨s, bodies, t, lowered, hosts⟩ := ready.code
  obtain ⟨inner, result, u, first, second, rfl⟩ := Decl.yields_routineCode.mp lowered
  rw [Decl.resolveRoutine_eq] at first second
  obtain ⟨address, stands⟩ := hosts _ (List.mem_append_right _ List.mem_cons_self)
  have marked : L.labels.address? label = some address := by
    simp only [Decl.routineItems, List.append_assoc, List.cons_append] at stands
    exact (Code.at_mark.mp stands).1
  exact ⟨address, inner, result, s, u, t, marked, first, second,
    fun c mem => hosts c (List.mem_append_left _ mem), stands⟩

theorem targets_of_implemented {cls : String} {sigs : List Signature} {labels : List Label}
    (each : List.Forall₂ (L.ImplementsAt H cls) sigs labels) :
    ∃ targets, List.Forall₂ (fun l target => L.labels.address? l = some target) labels targets := by
  induction each with
  | nil => exact ⟨[], .nil⟩
  | cons head _ ih =>
    obtain ⟨_, _, _, _, _, _, _, ready⟩ := head
    obtain ⟨target, _, _, _, _, _, placed, _⟩ := ready.placed
    obtain ⟨targets, others⟩ := ih
    exact ⟨target :: targets, .cons placed others⟩

def Tables (L : Loaded) (H : History) (s : Supply) : Prop :=
  ∀ name layout table, H.context.HasClass name layout table →
    ∃ labels, s.dispatch.find? name = some labels ∧
      List.Forall₂ (L.ImplementsAt H name) layout.methods labels

theorem tables_nil (L : Loaded) (s : Supply) : L.Tables [] s := by
  rintro name layout table ⟨listed, _⟩
  cases listed

theorem Tables.declare {h : Inheritance} {event : Event} {name : String} {ty : Ty}
    (tables : L.Tables H s) (sound : H.context.Hierarchical h)
    (declares : event.after H.context = H.context.declare name ty)
    (same : t.dispatch = s.dispatch) : L.Tables (event :: H) t := by
  intro cls layout table known
  rw [History.context, declares] at known
  obtain ⟨layout', before, _⟩ := sound.classes cls table known.1
  obtain ⟨rfl, _⟩ := known.unique (before.declare name ty)
  obtain ⟨labels, found, each⟩ := tables cls layout table before
  exact ⟨labels, same ▸ found, each.imp fun _ _ implements =>
    implements.extend (List.suffix_cons _ _)⟩

theorem readyAt_methods {ctx : Context} {m : Members} {first : Nat} {methods : List Method}
    {bodies : List Code}
    (lowered : Yields (Decl.methodsCode L.base first (Decl.resolveMethods ctx m methods)) s bodies t)
    (hosts : L.Hosts bodies) (typed : Decl.MethodsTyped L.inheritance ctx methods)
    (plain : ∀ method ∈ methods, Decl.Plain (Decl.routineDeclaredTypes method.routine)) {k : Nat}
    {method : Method} (found : methods[k]? = some method) :
    L.ReadyAt ctx method.routine ⟨first + k⟩ := by
  induction methods generalizing m first s bodies k with
  | nil => simp at found
  | cons head methods ih =>
    obtain ⟨routine, offset⟩ := head
    obtain ⟨own, others, u, one, more, rfl⟩ := Decl.yields_methodsCode_cons.mp lowered
    cases typed with
    | cons headTyped restTyped =>
      cases k with
      | zero =>
        cases found
        exact {
          code := ⟨_, _, _, one, fun c mem => hosts c (List.mem_append_left _ mem)⟩
          typed := headTyped
          plain := plain _ List.mem_cons_self }
      | succ k =>
        have ready := ih more (fun c mem => hosts c (List.mem_append_right _ mem)) restTyped
          (fun other mem => plain other (List.mem_cons_of_mem _ mem)) found
        rwa [Nat.add_assoc, Nat.add_comm 1] at ready

section

variable {c : ClassDecl} {bodies : List Code} (table : Word) (tables : L.Tables H s)
  (sound : H.context.Hierarchical L.inheritance)
  (typed : (Decl.cls c).Typed L.inheritance H.context)
  (plain : Decl.Plain (Decl.cls c).declaredTypes)
  (fits : (H.context.members c).layout.Fits)
  (up : ∀ parent, H.context.parent? c = some parent →
    L.inheritance.Parent c.name parent.name)
  (lowered : Yields (Decl.methodsCode L.base s.next (c.resolve H.context).methods)
    (Decl.methodSupply s (c.resolve H.context)) bodies t)
  (hosts : L.Hosts bodies)

include tables up typed in
theorem Tables.inherited :
    List.Forall₂ (L.ImplementsAt (.cls c table :: H) c.name) (H.context.inherited c).layout.methods
      ((c.parent.bind s.dispatch.find?).getD []) := by
  cases above : H.context.parent? c with
  | none =>
    cases typed with
    | cls global header =>
      simp only [ClassDecl.headerErrors, List.append_eq_nil_iff] at header
      have alone : c.parent = none := by
        cases named : c.parent with
        | none => rfl
        | some name => simp [named, above] at header
      simp [Context.inherited, above, alone, Layout.empty]
  | some parent =>
    obtain ⟨named, _, known⟩ := Context.parent?_eq_some above
    obtain ⟨labels, found, each⟩ := tables _ _ _ known
    simp only [Context.inherited, above, named, Option.bind_some, found, Option.getD_some]
    exact each.imp fun _ _ implements =>
      (implements.extend (List.suffix_cons _ _)).inherit (up parent above)

include tables sound typed plain fits up lowered hosts in
theorem Tables.tableOf_cls :
    List.Forall₂ (L.ImplementsAt (.cls c table :: H) c.name) (H.context.members c).layout.methods
      (Decl.tableOf s (c.resolve H.context)) := by
  have start := tables.inherited table typed up
  cases typed with
  | cls global header overrides methods =>
    have fitsFields : ((H.context.inherited c).addFields c.fields).layout.Fits :=
      Members.fits_of_addMethods fits
    have coherent := (sound.fields plain overrides fitsFields).1
    rw [← Members.methods_addFields _ c.fields] at start
    simp only [ClassDecl.headerErrors, List.append_eq_nil_iff] at header
    refine Members.filled_addMethods coherent start fits header.1.2 ?_
    intro k method found
    exact ⟨c, table, H, method.routine, List.suffix_refl _, L.inheritance.isAncestor_self _, rfl,
      readyAt_methods lowered hosts methods (Decl.types_cls plain).2 found⟩

include tables sound typed plain fits up lowered hosts in
theorem Tables.cls : L.Tables (.cls c table :: H) t := by
  have own := tables.tableOf_cls table sound typed plain fits up lowered hosts
  cases typed with
  | cls global header overrides methods =>
    have free := ClassDecl.free_of_header header
    have kept : t.dispatch = s.dispatch.insert c.name (Decl.tableOf s (c.resolve H.context)) :=
      Decl.dispatch_methodsCode (by simp [Context.inClass]) methods lowered
    intro name layout members known
    rw [kept]
    rcases Context.find?_declareClass known.1 with old | ⟨rfl, _⟩
    · obtain ⟨layout', before, _⟩ := sound.classes name members old
      obtain ⟨rfl, _⟩ := known.unique (sound.keeps_class before)
      obtain ⟨labels, found, each⟩ := tables name layout members before
      rw [Table.find?_insert_of_ne _ (sound.ne_of_free free before)]
      exact ⟨labels, found, each.imp fun _ _ implements =>
        implements.extend (List.suffix_cons _ _)⟩
    · obtain ⟨rfl, _⟩ := known.unique (sound.new_class free)
      exact ⟨_, Table.find?_insert_self .., own⟩

end

end Loaded

theorem World.dispatches_of_entries {L : Loaded} {V W : World} {H : History} {c : ClassDecl}
    {labels : List Label} {targets : List Nat} (coherent : (H.context.members c).Coherent)
    (implemented : List.Forall₂ (L.ImplementsAt (.cls c (Int32.ofNat V.heap.length) :: H) c.name)
      (H.context.members c).layout.methods labels)
    (placed : List.Forall₂ (fun l target => L.labels.address? l = some target) labels targets)
    (heap : W.heap = V.heap ++ targets.map Int32.ofNat) :
    W.Dispatches L c (Int32.ofNat V.heap.length) H := by
  refine ⟨V.heap.length, rfl, ?_⟩
  intro name b sig found shape
  have slot := coherent.slot name b found
  rw [shape] at slot
  obtain ⟨_, entry, same⟩ := Option.map_eq_some_iff.mp slot
  cases same
  obtain ⟨i, named, entry⟩ := Layout.methodAt?_eq_some.mp entry
  obtain ⟨label, listed, implements⟩ := forall₂_getElem? implemented entry
  obtain ⟨target, word, place⟩ := forall₂_getElem? placed listed
  refine ⟨i, Int32.ofNat target, named, ?_, label, target, implements, place, rfl⟩
  rw [heap, List.getElem?_append_right (by omega), Nat.add_sub_cancel_left, List.getElem?_map, word]
  rfl

end ObjectLang
