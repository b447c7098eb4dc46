import ObjectLang.Proofs.Scope.Mirror

/-!
Headers of classes and the scope rules. The members of a class are checked one after another against
those before them and those it inherits. A header is accepted exactly if it keeps the rules, and
then the member table of the class holds its own members and, behind them, the inherited ones.
-/
namespace ObjectLang

variable {name : String}

theorem Ty.role_eq_method {ty : Ty} : ty.role = .method ↔ ty.isMethod = true := by
  cases ty <;> simp [role, isMethod]

def Roles.Agrees (inherited : Roles) (member : String × Role) : Prop :=
  ∀ role, inherited.lookup member.1 = some role → (member.2 = .method ↔ role = .method)

def Placement.entered? : Placement → Option Word
  | .override offset | .fresh offset => some offset
  | .duplicate _ | .clash _ => none

namespace Members

variable {m m' : Members} {own inherited : Roles} {h : Inheritance} {ds : List Decl}

theorem fieldPlacement_entered : (∃ offset, (m.fieldPlacement name).entered? = some offset) ↔
    m.own.contains name = false ∧ ∀ b, m.table.find? name = some b → b.ty.isMethod = false := by
  unfold fieldPlacement
  cases m.own.contains name with
  | true => simp [Placement.entered?]
  | false =>
    cases m.table.find? name with
    | none => simp [Placement.entered?]
    | some b => cases kind : b.ty.isMethod <;> simp [kind, Placement.entered?]

theorem methodPlacement_entered : (∃ offset, (m.methodPlacement name).entered? = some offset) ↔
    m.own.contains name = false ∧ ∀ b, m.table.find? name = some b → b.ty.isMethod = true := by
  unfold methodPlacement
  cases m.own.contains name with
  | true => simp [Placement.entered?]
  | false =>
    cases m.table.find? name with
    | none => simp [Placement.entered?]
    | some b => cases kind : b.ty.isMethod <;> simp [kind, Placement.entered?]

structure Checks (m m' : Members) (name : String) (ty : Ty) (known : Prop)
    (errors : List ScopeError) : Prop where
  clean : errors = [] ↔ known ∧ m.own.contains name = false ∧
    ∀ b, m.table.find? name = some b → b.ty.isMethod = ty.isMethod
  adds : errors = [] → m'.own = name :: m.own ∧
    ∃ offset, m'.table = m.table.insert name ⟨level, ty, offset⟩

theorem checks_field (cls : String)
    (recorded : ∀ name, h.contains name = true ↔ Decl.HasClass name ds) (f : Field)
    (isField : f.ty.isMethod = false) :
    Checks m (m.addField f) f.name f.ty (∀ name ∈ f.ty.classNames, Decl.HasClass name ds)
      (m.fieldErrors h cls f) := by
  have errors : m.fieldErrors h cls f = [] ↔ (∀ name ∈ f.ty.classNames, Decl.HasClass name ds) ∧
      ∃ offset, (m.fieldPlacement f.name).entered? = some offset := by
    rw [fieldErrors, List.append_eq_nil_iff, Ty.scopeErrors_eq_nil recorded]
    cases m.fieldPlacement f.name <;> simp [Placement.entered?]
  constructor
  · rw [errors, fieldPlacement_entered, isField]
  · rw [errors]
    rintro ⟨_, offset, entered⟩
    unfold addField
    cases placed : m.fieldPlacement f.name with
    | duplicate _ | clash _ => rw [placed] at entered; cases entered
    | override _ | fresh _ => exact ⟨rfl, _, rfl⟩

theorem checks_method (cls : String)
    (recorded : ∀ name, h.contains name = true ↔ Decl.HasClass name ds) (method : Method) :
    Checks m (m.addMethod method.name method.routine.signature) method.name
      (.method method.routine.signature)
      (∀ ty ∈ method.routine.ret :: method.routine.params.map Param.ty, ∀ name ∈ ty.classNames,
        Decl.HasClass name ds)
      (m.methodErrors h cls method) := by
  have errors : m.methodErrors h cls method = [] ↔
      (∀ ty ∈ method.routine.ret :: method.routine.params.map Param.ty, ∀ name ∈ ty.classNames,
        Decl.HasClass name ds) ∧
      ∃ offset, (m.methodPlacement method.name).entered? = some offset := by
    rw [methodErrors, List.append_eq_nil_iff, Ty.signature_scopeErrors_eq_nil recorded]
    cases m.methodPlacement method.name <;> simp [Placement.entered?]
  constructor
  · rw [errors, methodPlacement_entered]
    rfl
  · rw [errors]
    rintro ⟨_, offset, entered⟩
    unfold addMethod
    cases placed : m.methodPlacement method.name with
    | duplicate _ | clash _ => rw [placed] at entered; cases entered
    | override _ | fresh _ => exact ⟨rfl, _, rfl⟩

structure Lists (m : Members) (own inherited : Roles) : Prop where
  names : ∀ name, m.own.contains name = true ↔ name ∈ own.map Prod.fst
  table : m.table.Shows (own ++ inherited)

theorem Lists.free_iff (lists : m.Lists own inherited) :
    m.own.contains name = false ↔ name ∉ own.map Prod.fst := by
  rw [← lists.names, Bool.not_eq_true]

theorem Lists.agrees_iff (lists : m.Lists own inherited) {ty : Ty}
    (free : name ∉ own.map Prod.fst) :
    inherited.Agrees (name, ty.role) ↔
      ∀ b, m.table.find? name = some b → b.ty.isMethod = ty.isMethod := by
  have shown := lists.table name
  rw [List.lookup_append, Roles.lookup_eq_none.mpr free, Option.none_or] at shown
  unfold Roles.Agrees
  rw [← shown]
  cases m.table.find? name with
  | none => simp
  | some b => cases kind : b.ty.isMethod <;> simp [Ty.role_eq_method, kind]

theorem Checks.step {ty : Ty} {known : Prop} {errors : List ScopeError}
    (checks : Checks m m' name ty known errors) (lists : m.Lists own inherited) :
    (errors = [] ↔ known ∧ name ∉ own.map Prod.fst ∧ inherited.Agrees (name, ty.role)) ∧
      (errors = [] → m'.Lists (own ++ [(name, ty.role)]) inherited) := by
  have accepts : errors = [] ↔ known ∧ name ∉ own.map Prod.fst ∧
      inherited.Agrees (name, ty.role) := by
    rw [checks.clean, lists.free_iff]
    exact and_congr_right fun _ => and_congr_right fun free => (lists.agrees_iff free).symm
  refine ⟨accepts, fun clean => ⟨fun other => ?_, ?_⟩⟩
  · rw [(checks.adds clean).1, List.map_append, List.mem_append, ← lists.names other]
    simp [or_comm]
  · obtain ⟨_, free, _⟩ := accepts.mp clean
    obtain ⟨_, offset, table⟩ := checks.adds clean
    rw [table, List.append_assoc]
    exact lists.table.insert free _

theorem Lists.declareAll {α : Type} {add : Members → α → Members}
    {errors : Members → α → List ScopeError} {all : Members → List α → List ScopeError}
    {named : α → String × Role} {known : α → Prop} (empty : ∀ m, all m [] = [])
    (cons : ∀ m a as, all m (a :: as) = errors m a ++ all (add m a) as) {as : List α}
    (step : ∀ a ∈ as, ∀ m own, Lists m own inherited →
      (errors m a = [] ↔ known a ∧ (named a).1 ∉ own.map Prod.fst ∧ inherited.Agrees (named a)) ∧
        (errors m a = [] → (add m a).Lists (own ++ [named a]) inherited))
    (lists : m.Lists own inherited) :
    (all m as = [] ↔ (∀ a ∈ as, known a) ∧ Roles.Fresh (as.map named) (own.map Prod.fst) ∧
        ∀ member ∈ as.map named, inherited.Agrees member) ∧
      (all m as = [] → (as.foldl add m).Lists (own ++ as.map named) inherited) := by
  induction as generalizing m own with
  | nil =>
    rw [empty]
    refine ⟨iff_of_true rfl ⟨?_, Roles.fresh_nil _, ?_⟩, fun _ => ?_⟩
    · exact fun _ listed => nomatch listed
    · exact fun _ listed => nomatch listed
    · rwa [List.map_nil, List.append_nil]
  | cons a as ih =>
    obtain ⟨accepts, adds⟩ := step a List.mem_cons_self m own lists
    have rest (clean : errors m a = []) :=
      ih (fun b listed => step b (List.mem_cons_of_mem _ listed)) (adds clean)
    have grows (other : String) : other ∈ (own ++ [named a]).map Prod.fst ↔
        other = (named a).1 ∨ other ∈ own.map Prod.fst := by
      simp [or_comm]
    rw [cons, List.append_eq_nil_iff, List.map_cons, Roles.fresh_cons grows, List.forall_mem_cons,
      List.forall_mem_cons]
    constructor
    · constructor
      · rintro ⟨head, tail⟩
        obtain ⟨knownHead, free, agrees⟩ := accepts.mp head
        obtain ⟨knownTail, fresh, agreeTail⟩ := (rest head).1.mp tail
        exact ⟨⟨knownHead, knownTail⟩, ⟨free, fresh⟩, agrees, agreeTail⟩
      · rintro ⟨⟨knownHead, knownTail⟩, ⟨free, fresh⟩, agrees, agreeTail⟩
        have head := accepts.mpr ⟨knownHead, free, agrees⟩
        exact ⟨head, (rest head).1.mpr ⟨knownTail, fresh, agreeTail⟩⟩
    · rintro ⟨head, tail⟩
      have lists := (rest head).2 tail
      rwa [List.append_assoc] at lists

theorem Lists.fields (lists : m.Lists own inherited) (cls : String)
    (recorded : ∀ name, h.contains name = true ↔ Decl.HasClass name ds) {fields : List Field}
    (plain : ∀ f ∈ fields, f.ty.isMethod = false) :
    (m.fieldsErrors h cls fields = [] ↔
        (∀ f ∈ fields, ∀ name ∈ f.ty.classNames, Decl.HasClass name ds) ∧
          Roles.Fresh (fields.map Field.named) (own.map Prod.fst) ∧
            ∀ member ∈ fields.map Field.named, inherited.Agrees member) ∧
      (m.fieldsErrors h cls fields = [] →
        (m.addFields fields).Lists (own ++ fields.map Field.named) inherited) :=
  Lists.declareAll (fun _ => rfl) (fun _ _ _ => rfl)
    (fun f listed _ _ lists => (checks_field cls recorded f (plain f listed)).step lists) lists

theorem Lists.methods (lists : m.Lists own inherited) (cls : String)
    (recorded : ∀ name, h.contains name = true ↔ Decl.HasClass name ds) (methods : List Method) :
    (m.methodsErrors h cls methods = [] ↔
        (∀ method ∈ methods, ∀ ty ∈ method.routine.ret :: method.routine.params.map Param.ty,
          ∀ name ∈ ty.classNames, Decl.HasClass name ds) ∧
          Roles.Fresh (methods.map Method.named) (own.map Prod.fst) ∧
            ∀ member ∈ methods.map Method.named, inherited.Agrees member) ∧
      (m.methodsErrors h cls methods = [] →
        (m.addMethods methods).Lists (own ++ methods.map Method.named) inherited) :=
  Lists.declareAll (fun _ => rfl) (fun _ _ _ => rfl)
    (fun method _ _ _ lists => (checks_method cls recorded method).step lists) lists

end Members

theorem Decl.hasClass_cls {c : ClassDecl} {ds : List Decl} :
    HasClass name (.cls c :: ds) ↔ name = c.name ∨ HasClass name ds := by
  constructor
  · rintro ⟨d, listed, called⟩
    rcases List.mem_cons.mp listed with same | earlier
    · cases same
      exact .inl called.symm
    · exact .inr ⟨d, earlier, called⟩
  · rintro (rfl | ⟨d, listed, called⟩)
    · exact ⟨c, List.mem_cons_self, rfl⟩
    · exact ⟨d, List.mem_cons_of_mem _ listed, called⟩

namespace Context.Mirrors

variable {ctx : Context} {earlier : List Decl} {c : ClassDecl}

theorem recorded_with (mirrors : ctx.Mirrors ⟨earlier, []⟩) (c : ClassDecl) (name : String) :
    (ctx.inheritanceWith c).contains name = true ↔ Decl.HasClass name (.cls c :: earlier) := by
  rw [inheritanceWith, Inheritance.contains_declare, mirrors.recorded, Decl.hasClass_cls]

theorem parent_isSome (mirrors : ctx.Mirrors ⟨earlier, []⟩) (names : c.parent = some name) :
    (∃ parent, ctx.parent? c = some parent) ↔ Decl.HasClass name earlier := by
  constructor
  · rintro ⟨parent, found⟩
    obtain ⟨named, _, listed, _⟩ := parent?_eq_some found
    rw [names, Option.some.injEq] at named
    subst named
    exact mirrors.tabled _ _ listed
  · intro declared
    obtain ⟨layout, table, ⟨listed, b, bound, shape⟩, _⟩ := mirrors.classes name declared
    exact ⟨⟨name, b, layout, table⟩, by simp [parent?, names, listed, bound, shape]⟩

theorem parent_errors (mirrors : ctx.Mirrors ⟨earlier, []⟩) (c : ClassDecl) :
    (match c.parent, ctx.parent? c with
      | some name, none => [ScopeError.undeclaredClass name c.line]
      | _, _ => []) = [] ↔ ∀ name, c.parent = some name → Decl.HasClass name earlier := by
  cases names : c.parent with
  | none => simp
  | some name =>
    have found := mirrors.parent_isSome names
    simp only [Option.some.injEq, forall_eq', ← found]
    cases ctx.parent? c <;> simp

theorem inherited_lists (mirrors : ctx.Mirrors ⟨earlier, []⟩)
    (known : ∀ name, c.parent = some name → Decl.HasClass name earlier) :
    (ctx.inherited c).Lists [] (c.inherited earlier) := by
  unfold Context.inherited ClassDecl.inherited
  cases names : c.parent with
  | none =>
    have orphan : ctx.parent? c = none := by simp [parent?, names]
    rw [orphan]
    exact ⟨fun name => by simp, Table.shows_empty⟩
  | some name =>
    obtain ⟨parent, found⟩ := (mirrors.parent_isSome names).mpr (known name names)
    obtain ⟨named, _, isClass⟩ := parent?_eq_some found
    rw [names, Option.some.injEq] at named
    subst named
    obtain ⟨layout, table, isClass', shows⟩ := mirrors.classes _ (known _ names)
    obtain ⟨_, rfl⟩ := isClass.unique isClass'
    rw [found]
    exact ⟨fun name => by simp, shows⟩

end Context.Mirrors

namespace ClassDecl

variable {ctx : Context} {earlier : List Decl} {c : ClassDecl}

theorem wellScoped_iff : c.WellScoped earlier ↔
    (∀ name, c.parent = some name → Decl.HasClass name earlier) ∧
      (Roles.Fresh (c.fields.map Field.named) [] ∧
        ∀ member ∈ c.fields.map Field.named, (c.inherited earlier).Agrees member) ∧
      Roles.Fresh (c.methods.map Method.named) ((c.fields.map Field.named).map Prod.fst) ∧
        ∀ member ∈ c.methods.map Method.named, (c.inherited earlier).Agrees member := by
  constructor
  · rintro ⟨distinct, parent, kinds⟩
    obtain ⟨fields, methods⟩ := Roles.distinct_append.mp distinct
    have agrees := List.forall_mem_append.mp kinds
    exact ⟨parent, ⟨fields, agrees.1⟩, methods, agrees.2⟩
  · rintro ⟨parent, ⟨fields, fieldsAgree⟩, methods, methodsAgree⟩
    exact ⟨Roles.distinct_append.mpr ⟨fields, methods⟩, parent,
      List.forall_mem_append.mpr ⟨fieldsAgree, methodsAgree⟩⟩

def HeaderKnown (ds : List Decl) (c : ClassDecl) : Prop :=
  (∀ f ∈ c.fields, ∀ name ∈ f.ty.classNames, Decl.HasClass name ds) ∧
    ∀ method ∈ c.methods, ∀ ty ∈ method.routine.ret :: method.routine.params.map Param.ty,
      ∀ name ∈ ty.classNames, Decl.HasClass name ds

/-- The header of a class is accepted exactly if it keeps the rules and the name of the class is
new, and then the class has its own and its inherited members. -/
theorem headerErrors_eq_nil (mirrors : ctx.Mirrors ⟨earlier, []⟩)
    (plain : ∀ f ∈ c.fields, f.ty.isMethod = false) :
    (c.headerErrors ctx = [] ↔
        c.name ∉ Surroundings.here ⟨earlier, []⟩ ∧ c.WellScoped earlier ∧
          c.HeaderKnown (.cls c :: earlier)) ∧
      (c.headerErrors ctx = [] →
        (ctx.members c).table.Shows (Decl.membersOf c.name (.cls c :: earlier))) := by
  have recorded := mirrors.recorded_with c
  have fields (known : ∀ name, c.parent = some name → Decl.HasClass name earlier) :=
    (mirrors.inherited_lists known).fields c.name recorded plain
  have methods (known : ∀ name, c.parent = some name → Decl.HasClass name earlier)
      (clean : (ctx.inherited c).fieldsErrors (ctx.inheritanceWith c) c.name c.fields = []) :=
    ((fields known).2 clean).methods c.name recorded c.methods
  have shape : c.headerErrors ctx = [] ↔
      (∀ name, c.parent = some name → Decl.HasClass name earlier) ∧
      (ctx.inherited c).fieldsErrors (ctx.inheritanceWith c) c.name c.fields = [] ∧
      ((ctx.inherited c).addFields c.fields).methodsErrors (ctx.inheritanceWith c) c.name
        c.methods = [] ∧ c.name ∉ Surroundings.here ⟨earlier, []⟩ := by
    rw [headerErrors, List.append_eq_nil_iff, List.append_eq_nil_iff, List.append_eq_nil_iff,
      Scopes.duplicate_eq_nil, mirrors.declaresHere, and_assoc, and_assoc]
    exact and_congr_left' (mirrors.parent_errors c)
  rw [shape, wellScoped_iff]
  constructor
  · constructor
    · rintro ⟨parent, cleanFields, cleanMethods, free⟩
      obtain ⟨fieldTypes, freshFields, fieldsAgree⟩ := (fields parent).1.mp cleanFields
      obtain ⟨methodTypes, freshMethods, methodsAgree⟩ :=
        (methods parent cleanFields).1.mp cleanMethods
      exact ⟨free, ⟨parent, ⟨freshFields, fieldsAgree⟩, freshMethods, methodsAgree⟩, fieldTypes,
        methodTypes⟩
    · rintro ⟨free, ⟨parent, ⟨freshFields, fieldsAgree⟩, freshMethods, methodsAgree⟩, fieldTypes,
        methodTypes⟩
      have cleanFields := (fields parent).1.mpr ⟨fieldTypes, freshFields, fieldsAgree⟩
      have cleanMethods :=
        (methods parent cleanFields).1.mpr ⟨methodTypes, freshMethods, methodsAgree⟩
      exact ⟨parent, cleanFields, cleanMethods, free⟩
  · rintro ⟨parent, cleanFields, cleanMethods, _⟩
    rw [Decl.membersOf, if_pos rfl]
    exact ((methods parent cleanFields).2 cleanMethods).table

end ClassDecl

end ObjectLang
