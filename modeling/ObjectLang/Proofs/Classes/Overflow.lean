import ObjectLang.Proofs.Classes.Members
import ObjectLang.Proofs.Scope.Stack
import ObjectLang.Proofs.Typing.Declarations

/-!
Classes with more members than there are offsets. Members with new names take the offsets of their
positions, but position 2 ^ 31 has none that leads back to it: as a field it would need an offset
below all words, and as a method one above. A class that redeclares the member there finds it by
its name; its slot is found neither by the layout nor by the check of overrides.
-/
namespace ObjectLang

namespace Layout

/-- The offset that position 2 ^ 31 gets is that of no slot. -/
theorem typeAt?_limit (l : Layout) (kind : Bool) :
    l.typeAt? kind (slotOffset kind Word.limit) = none := by
  cases kind with
  | true =>
    have above : Word.index? (Int32.ofNat Word.limit) = none := by decide
    rw [typeAt?, slotOffset, methodAt?, above]
    rfl
  | false =>
    have above : (0 : Word) ≤ fieldOffset Word.limit := by decide
    rw [typeAt?, slotOffset, fieldAt?, if_pos above]

def push (l : Layout) : Ty → Layout
  | .method sig => { l with methods := l.methods ++ [sig] }
  | ty => { l with fields := l.fields ++ [ty] }

theorem push_of_field (l : Layout) {ty : Ty} (isField : ty.isMethod = false) :
    l.push ty = { l with fields := l.fields ++ [ty] } := by
  cases ty with
  | method => cases isField
  | _ => rfl

theorem slots_push (l : Layout) (ty : Ty) :
    (l.push ty).slots ty.isMethod = l.slots ty.isMethod + 1 := by
  cases kind : ty.isMethod with
  | false => simp [push_of_field l kind, slots]
  | true =>
    cases ty with
    | method => simp [push, slots]
    | _ => cases kind

end Layout

namespace Members

variable {m : Members} {name other : String} {ty : Ty} {kind : Bool}
  {members : List (String × Ty)}

def push (m : Members) (name : String) (ty : Ty) : Members :=
  ⟨m.layout.push ty,
    m.named name ty (Layout.slotOffset ty.isMethod (m.layout.slots ty.isMethod)), name :: m.own⟩

def pushAll (m : Members) (members : List (String × Ty)) : Members :=
  members.foldl (fun m member => m.push member.1 member.2) m

def Unknown (m : Members) (name : String) : Prop :=
  m.own.contains name = false ∧ m.table.find? name = none

theorem addField_new {f : Field} (isField : f.ty.isMethod = false) (unknown : m.Unknown f.name) :
    m.addField f = m.push f.name f.ty := by
  simp only [addField, fieldPlacement, unknown.1, unknown.2, Bool.false_eq_true, if_false, push,
    isField, Layout.push_of_field m.layout isField]
  rfl

theorem addMethod_new {sig : Signature} (unknown : m.Unknown name) :
    m.addMethod name sig = m.push name (.method sig) := by
  simp only [addMethod, methodPlacement, unknown.1, unknown.2, Bool.false_eq_true, if_false]
  rfl

theorem Unknown.push (unknown : m.Unknown other) (ne : other ≠ name) (ty : Ty) :
    (m.push name ty).Unknown other := by
  constructor
  · rw [Members.push, List.contains_cons, unknown.1, Bool.or_false]
    exact beq_false_of_ne ne
  · exact (Table.find?_insert_of_ne _ ne _).trans unknown.2

structure New (m : Members) (members : List (String × Ty)) : Prop where
  distinct : (members.map Prod.fst).Nodup
  unknown : ∀ member ∈ members, m.Unknown member.1

theorem New.tail (new : m.New ((name, ty) :: members)) : (m.push name ty).New members := by
  obtain ⟨first, rest⟩ := List.nodup_cons.mp new.distinct
  refine ⟨rest, fun member mem => ?_⟩
  have ne : member.1 ≠ name := fun same => first (List.mem_map.mpr ⟨member, mem, same⟩)
  exact (new.unknown member (List.mem_cons_of_mem _ mem)).push ne ty

theorem find?_pushAll_of_ne (absent : name ∉ members.map Prod.fst) :
    (m.pushAll members).table.find? name = m.table.find? name := by
  induction members generalizing m with
  | nil => rfl
  | cons member members ih =>
    rw [List.map_cons, List.mem_cons, not_or] at absent
    rw [pushAll, List.foldl_cons, ← pushAll, ih absent.2]
    exact Table.find?_insert_of_ne _ absent.1 _

theorem find?_pushAll (new : m.New members) (kinds : ∀ member ∈ members, member.2.isMethod = kind)
    {i : Nat} (listed : members[i]? = some (name, ty)) :
    (m.pushAll members).table.find? name =
      some ⟨level, ty, Layout.slotOffset kind (m.layout.slots kind + i)⟩ := by
  induction members generalizing m i with
  | nil => cases listed
  | cons member members ih =>
    obtain ⟨here, rest⟩ := List.forall_mem_cons.mp kinds
    rw [pushAll, List.foldl_cons, ← pushAll]
    cases i with
    | zero =>
      cases listed
      rw [find?_pushAll_of_ne (List.nodup_cons.mp new.distinct).1, ← here]
      exact Table.find?_insert_self _ _ _
    | succ i =>
      have one : (m.push member.1 member.2).layout.slots kind = m.layout.slots kind + 1 :=
        here ▸ m.layout.slots_push member.2
      rw [ih new.tail rest listed, one, Nat.add_right_comm, Nat.add_assoc]

def fieldMember (f : Field) : String × Ty := (f.name, f.ty)

def methodMember (m : Method) : String × Ty := (m.name, .method m.routine.signature)

theorem addFields_new {fields : List Field} (isField : ∀ f ∈ fields, f.ty.isMethod = false)
    (new : m.New (fields.map fieldMember)) :
    m.addFields fields = m.pushAll (fields.map fieldMember) ∧
      ∀ h cls, m.fieldsErrors h cls fields = fields.flatMap fun f => f.ty.scopeErrors h f.line := by
  induction fields generalizing m with
  | nil => exact ⟨rfl, fun _ _ => rfl⟩
  | cons f fields ih =>
    obtain ⟨here, rest⟩ := List.forall_mem_cons.mp isField
    have unknown : m.Unknown f.name := new.unknown _ List.mem_cons_self
    have one := addField_new here unknown
    obtain ⟨added, errors⟩ := ih rest new.tail
    refine ⟨?_, fun h cls => ?_⟩
    · rw [addFields, List.foldl_cons, one]
      exact added
    · have silent : m.fieldErrors h cls f = f.ty.scopeErrors h f.line := by
        simp only [fieldErrors, fieldPlacement, unknown.1, unknown.2, Bool.false_eq_true, if_false,
          List.append_nil]
      rw [fieldsErrors, silent, one, List.flatMap_cons]
      exact congrArg _ (errors h cls)

theorem addMethods_new {methods : List Method} (new : m.New (methods.map methodMember)) :
    m.addMethods methods = m.pushAll (methods.map methodMember) ∧
      ∀ h cls, m.methodsErrors h cls methods = methods.flatMap fun method =>
        (Ty.arrow method.routine.signature).scopeErrors h method.routine.line := by
  induction methods generalizing m with
  | nil => exact ⟨rfl, fun _ _ => rfl⟩
  | cons method methods ih =>
    have unknown : m.Unknown method.name := new.unknown _ List.mem_cons_self
    have one : m.addMethod method.name method.routine.signature = _ := addMethod_new unknown
    obtain ⟨added, errors⟩ := ih new.tail
    refine ⟨?_, fun h cls => ?_⟩
    · rw [addMethods, List.foldl_cons, one]
      exact added
    · have silent : m.methodErrors h cls method =
          (Ty.arrow method.routine.signature).scopeErrors h method.routine.line := by
        simp only [methodErrors, methodPlacement, unknown.1, unknown.2, Bool.false_eq_true, if_false,
          List.append_nil]
      rw [methodsErrors, silent, one, List.flatMap_cons]
      exact congrArg _ (errors h cls)

theorem new_of_nodup (distinct : (members.map Prod.fst).Nodup) : New {} members :=
  ⟨distinct, fun _ _ => ⟨rfl, rfl⟩⟩

end Members

def seriesName (i : Nat) : String := String.ofList (List.replicate (i + 1) 'x')

def series (n : Nat) : List String := (List.range n).map seriesName

theorem seriesName_injective : Function.Injective seriesName := by
  intro i j same
  have long := congrArg (fun name : String => name.toList.length) same
  simpa [seriesName] using long

theorem nodup_series (n : Nat) : (series n).Nodup := List.nodup_range.map seriesName_injective

theorem getElem?_series {i n : Nat} (bound : i < n) : (series n)[i]? = some (seriesName i) := by
  rw [series, List.getElem?_map, List.getElem?_range bound, Option.map_some]

namespace Program

def memberTy (ty : Ty) : Bool → Ty
  | true => .method ⟨[], ty⟩
  | false => ty

def constant (line : Line) (name : String) : Bool → Method
  | true => ⟨⟨line, name, .bool, [], [], .bool line true⟩, 0⟩
  | false => ⟨⟨line, name, .int, [], [], .int line 0⟩, 0⟩

def booleans (names : List String) : Bool → ClassDecl
  | true => ⟨1, "A", none, [], names.map (constant 1 · true), none, none⟩
  | false => ⟨1, "A", none, names.map fun name => ⟨1, name, .bool, 0⟩, [], none, none⟩

def widening (name : String) : Bool → ClassDecl
  | true => ⟨2, "B", some "A", [], [constant 2 name false], none, none⟩
  | false => ⟨2, "B", some "A", [⟨2, name, .int, 0⟩], [], none, none⟩

def redeclaring (names : List String) (name : String) (kind : Bool) : Program :=
  ⟨[.cls (booleans names kind), .cls (widening name kind)], .null 3⟩

def upperMembers (names : List String) (kind : Bool) : Members :=
  Context.initial.members (booleans names kind)

def below (names : List String) (kind : Bool) : Context :=
  Context.initial.after (.cls (booleans names kind))

def lowerMembers (names : List String) (name : String) (kind : Bool) : Members :=
  (below names kind).members (widening name kind)

section

variable (names : List String) (name : String) (kind : Bool)

def heir : Members := ⟨(upperMembers names kind).layout, (upperMembers names kind).table, []⟩

theorem lowerMembers_true :
    lowerMembers names name true = (heir names true).addMethod name ⟨[], .int⟩ := rfl

theorem lowerMembers_false :
    lowerMembers names name false = (heir names false).addField ⟨2, name, .int, 0⟩ := rfl

theorem classes_redeclaring :
    (redeclaring names name kind).resolve.classes.find? "A" =
        some (upperMembers names kind).table ∧
      (redeclaring names name kind).resolve.classes.find? "B" =
        some (lowerMembers names name kind).table := by
  cases kind <;> exact ⟨rfl, rfl⟩

theorem isAncestor_redeclaring :
    (redeclaring names name kind).resolve.inheritance.isAncestor "A" "B" = true := by
  cases kind <;> rfl

end

theorem routineFindings_constant (h : Inheritance) (ctx : Context) (line : Line) (name : String)
    (which : Bool) :
    Decl.routineFindings h (Decl.resolveRoutine ctx (constant line name which).routine) = [] := by
  cases which <;>
    simp [constant, Decl.resolveRoutine, Decl.resolveAll, Decl.routineFindings, Decl.allFindings,
      Routine.checkResult, Expr.resolve, Expr.typeOf, Ty.subtype, Finding.ofCheck, bind,
      Except.bind]

theorem constants_clean (names : List String) (kind : Bool) (ctx : Context) (m : Members)
    (h : Inheritance) :
    Decl.methodsScopeErrors ctx (booleans names kind).methods = [] ∧
      Decl.methodsFindings h (Decl.resolveMethods ctx m (booleans names kind).methods) = [] := by
  cases kind with
  | false => exact ⟨rfl, rfl⟩
  | true =>
    show Decl.methodsScopeErrors ctx (names.map (constant 1 · true)) = [] ∧
      Decl.methodsFindings h (Decl.resolveMethods ctx m (names.map (constant 1 · true))) = []
    induction names generalizing m with
    | nil => exact ⟨rfl, rfl⟩
    | cons name names ih =>
      refine ⟨(ih {}).1, ?_⟩
      rw [List.map_cons, constant, Decl.resolveMethods, Decl.methodsFindings, (ih _).2]
      exact (List.append_nil _).trans (routineFindings_constant h ctx 1 name true)

section

variable {names : List String} {name : String} {i : Nat} (kind : Bool) (distinct : names.Nodup)

include distinct in
theorem upperMembers_eq :
    upperMembers names kind =
        Members.pushAll {} (names.map fun name => (name, memberTy .bool kind)) ∧
      (booleans names kind).headerErrors .initial = [] := by
  have new : Members.New {} (names.map fun name => (name, memberTy .bool kind)) :=
    Members.new_of_nodup (by simpa [List.map_map, Function.comp_def] using distinct)
  cases kind with
  | true =>
    have members : (names.map (constant 1 · true)).map Members.methodMember =
        names.map fun name => (name, memberTy .bool true) := List.map_map
    obtain ⟨added, errors⟩ := Members.addMethods_new (members ▸ new)
    refine ⟨added.trans (congrArg _ members), ?_⟩
    show [] ++ [] ++ Members.methodsErrors _ "A" {} (names.map (constant 1 · true)) ++ [] = []
    rw [errors]
    simp [constant, Ty.scopeErrors, Routine.signature, Ty.undeclaredClasses, Ty.undeclaredInAll]
  | false =>
    have members : (names.map fun name => (⟨1, name, .bool, 0⟩ : Field)).map Members.fieldMember =
        names.map fun name => (name, memberTy .bool false) := List.map_map
    obtain ⟨added, errors⟩ := Members.addFields_new (by simp [Ty.isMethod]) (members ▸ new)
    refine ⟨added.trans (congrArg _ members), ?_⟩
    show [] ++ Members.fieldsErrors _ "A" {} (names.map fun name => (⟨1, name, .bool, 0⟩ : Field)) ++
      [] ++ [] = []
    rw [errors]
    simp [Ty.scopeErrors, Ty.undeclaredClasses]

include distinct in
theorem scopeErrors_booleans : (Decl.cls (booleans names kind)).scopeErrors .initial = [] := by
  rw [Decl.scopeErrors_cls rfl, (upperMembers_eq kind distinct).2,
    (constants_clean names kind _ {} {}).1]
  rfl

theorem isMethod_booleans :
    ∀ member ∈ names.map fun name => (name, memberTy .bool kind), member.2.isMethod = kind := by
  intro member mem
  obtain ⟨_, _, rfl⟩ := List.mem_map.mp mem
  cases kind <;> rfl

include distinct in
theorem find?_upperMembers (listed : names[i]? = some name) :
    (upperMembers names kind).table.find? name =
      some ⟨Members.level, memberTy .bool kind, Layout.slotOffset kind i⟩ := by
  have new : Members.New {} (names.map fun name => (name, memberTy .bool kind)) :=
    Members.new_of_nodup (by simpa [List.map_map, Function.comp_def] using distinct)
  have here : (names.map fun name => (name, memberTy .bool kind))[i]? =
      some (name, memberTy .bool kind) := by
    rw [List.getElem?_map, listed, Option.map_some]
  rw [(upperMembers_eq kind distinct).1, Members.find?_pushAll new (isMethod_booleans kind) here]
  cases kind <;> simp [Layout.slots, Layout.empty]

variable (listed : names[Word.limit]? = some name)

include distinct listed

theorem fieldPlacement_heir :
    (heir names false).fieldPlacement name = .override (Layout.slotOffset false Word.limit) := by
  have known : (heir names false).table.find? name = _ := find?_upperMembers false distinct listed
  simp only [Members.fieldPlacement, known]
  rfl

theorem methodPlacement_heir :
    (heir names true).methodPlacement name = .override (Layout.slotOffset true Word.limit) := by
  have known : (heir names true).table.find? name = _ := find?_upperMembers true distinct listed
  simp only [Members.methodPlacement, known]
  rfl

theorem find?_lowerMembers : (lowerMembers names name kind).table.find? name =
    some ⟨Members.level, memberTy .int kind, Layout.slotOffset kind Word.limit⟩ := by
  cases kind with
  | true =>
    rw [lowerMembers_true, Members.addMethod, methodPlacement_heir distinct listed]
    exact Table.find?_insert_self _ _ _
  | false =>
    rw [lowerMembers_false, Members.addField, fieldPlacement_heir distinct listed]
    exact Table.find?_insert_self _ _ _

theorem headerErrors_widening : (widening name kind).headerErrors
    (below names kind) = [] := by
  cases kind with
  | true =>
    show [] ++ [] ++ Members.methodsErrors _ "B" (heir names true) [constant 2 name false] ++ [] = []
    simp only [Members.methodsErrors, Members.methodErrors, Method.name, constant,
      methodPlacement_heir distinct listed]
    rfl
  | false =>
    show [] ++ Members.fieldsErrors _ "B" (heir names false) [⟨2, name, .int, 0⟩] ++ [] ++ [] = []
    simp only [Members.fieldsErrors, Members.fieldErrors, fieldPlacement_heir distinct listed]
    rfl

theorem methods_widening : ((widening name true).resolve (below names true)).methods =
    [⟨Decl.resolveRoutine ((below names true).inClass (widening name true))
      (constant 2 name false).routine, Layout.slotOffset true Word.limit⟩] :=
  congrArg (fun place => [Method.mk _ (Placement.offset place)])
    (methodPlacement_heir distinct listed)

theorem fields_widening : ((widening name false).resolve (below names false)).fields =
    [⟨2, name, .int, Layout.slotOffset false Word.limit⟩] :=
  congrArg (fun place => [Field.mk 2 name .int (Placement.offset place)])
    (fieldPlacement_heir distinct listed)

theorem accepted_redeclaring : (redeclaring names name kind).resolve.errors = [] := by
  have upper := scopeErrors_booleans kind distinct
  have lower : (Decl.cls (widening name kind)).scopeErrors
      (below names kind) = [] := by
    rw [Decl.scopeErrors_cls (by cases kind <;> rfl), headerErrors_widening kind distinct listed]
    cases kind <;> rfl
  show (Decl.cls (booleans names kind)).scopeErrors .initial ++
    ((Decl.cls (widening name kind)).scopeErrors (below names kind) ++ []) ++ [] = []
  rw [upper, lower]
  rfl

/-- The check compares the wider member with nothing. -/
theorem findings_redeclaring : ((redeclaring names name kind).resolve.program.check
    (redeclaring names name kind).resolve.inheritance).findings = [] := by
  generalize (redeclaring names name kind).resolve.inheritance = h
  have upper : ((Decl.cls (booleans names kind)).resolve .initial).findings h = [] := by
    rw [Decl.resolve_cls rfl, Decl.findings_cls]
    have methods := (constants_clean names kind (Context.initial.inClass (booleans names kind))
      ((Context.initial.inherited (booleans names kind)).addFields (booleans names kind).fields) h).2
    exact List.append_eq_nil_iff.mpr ⟨methods, by cases kind <;> rfl⟩
  have lower : ((Decl.cls (widening name kind)).resolve
      (below names kind)).findings h = [] := by
    have unseen := (upperMembers names kind).layout.typeAt?_limit kind
    have layout : ((widening name kind).resolve
        (below names kind)).parentLayout? =
        some (upperMembers names kind).layout := by
      cases kind <;> rfl
    rw [Decl.resolve_cls (by cases kind <;> rfl), Decl.findings_cls, ClassDecl.overrideFindings,
      layout]
    cases kind with
    | true =>
      rw [Layout.typeAt?, Option.map_eq_none_iff] at unseen
      have fields : ((widening name true).resolve (below names true)).fields = [] := rfl
      have own := routineFindings_constant h ((below names true).inClass (widening name true)) 2
        name false
      simp only [methods_widening distinct listed, fields, Decl.methodsFindings, own,
        List.flatMap_nil, List.flatMap_cons, ClassDecl.methodFindings, unseen, List.append_nil]
    | false =>
      rw [Layout.typeAt?] at unseen
      have methods : ((widening name false).resolve (below names false)).methods = [] := rfl
      simp only [fields_widening distinct listed, methods, Decl.methodsFindings,
        ClassDecl.fieldFindings, unseen, List.flatMap_cons, List.flatMap_nil, List.append_nil]
  show ((Decl.cls (booleans names kind)).resolve .initial).findings h ++
    (((Decl.cls (widening name kind)).resolve (below names kind)).findings h ++ []) = []
  rw [upper, lower]
  rfl

theorem silent_redeclaring : (redeclaring names name kind).report.isEmpty = true := by
  refine report_isEmpty.mpr ⟨accepted_redeclaring kind distinct listed, ?_⟩
  rw [Checked.errors, findings_redeclaring kind distinct listed]
  rfl

end

def Widens (p : Program) (sub super member : String) : Prop :=
  ∃ (subTable superTable : Table Binding) (b b' : Binding),
    p.resolve.classes.find? sub = some subTable ∧ p.resolve.classes.find? super = some superTable ∧
      subTable.find? member = some b ∧ superTable.find? member = some b' ∧
      b.ty.subtype p.resolve.inheritance b'.ty = false

theorem plain_redeclaring (names : List String) (name : String) (kind : Bool) :
    ∀ ty ∈ (redeclaring names name kind).declaredTypes, ty.isPlain = true := by
  have methods : ∀ ty ∈ Decl.methodsDeclaredTypes (names.map (constant 1 · true)), ty = .bool := by
    induction names with
    | nil => simp [Decl.methodsDeclaredTypes]
    | cons name names ih =>
      simpa [constant, Decl.methodsDeclaredTypes, Decl.routineDeclaredTypes, Decl.allDeclaredTypes]
        using ih
  intro ty mem
  cases kind with
  | true =>
    have split : ty ∈ Decl.methodsDeclaredTypes (names.map (constant 1 · true)) ++ [.int] := mem
    rcases List.mem_append.mp split with mem | mem
    · rw [methods ty mem]
      rfl
    · rw [List.mem_singleton.mp mem]
      rfl
  | false =>
    have split : ty ∈ (names.map fun name => (⟨1, name, .bool, 0⟩ : Field)).map Field.ty ++ [] ++
      [.int] := mem
    simp only [List.map_map, List.append_nil, List.mem_append, List.mem_map, List.mem_singleton]
      at split
    rcases split with ⟨_, _, rfl⟩ | rfl <;> rfl

/-- A class with one member more than there are offsets, and a class below that redeclares it. -/
def oneTooMany (kind : Bool) : Program :=
  redeclaring (series (Word.limit + 1)) (seriesName Word.limit) kind

section

variable (kind : Bool)

theorem plain_oneTooMany : ∀ ty ∈ (oneTooMany kind).declaredTypes, ty.isPlain = true :=
  plain_redeclaring _ _ kind

theorem accepted_oneTooMany : (oneTooMany kind).resolve.errors = [] :=
  accepted_redeclaring kind (nodup_series _) (getElem?_series (Nat.lt_succ_self _))

theorem silent_oneTooMany : (oneTooMany kind).report.isEmpty = true :=
  silent_redeclaring kind (nodup_series _) (getElem?_series (Nat.lt_succ_self _))

theorem widens_oneTooMany : (oneTooMany kind).Widens "B" "A" (seriesName Word.limit) := by
  obtain ⟨upper, lower⟩ := classes_redeclaring (series (Word.limit + 1)) (seriesName Word.limit) kind
  have listed := getElem?_series (Nat.lt_succ_self Word.limit)
  refine ⟨_, _, _, _, lower, upper, find?_lowerMembers kind (nodup_series _) listed,
    find?_upperMembers kind (nodup_series _) listed, ?_⟩
  cases kind <;> simp [memberTy, Signature.subtype, Ty.subtype]

end

end Program

end ObjectLang
