import ObjectLang.Proofs.Simulation.State

/-!
Expressions: one lemma for each form says that its code does what the form is evaluated to, if this
is so for its parts.
-/
namespace ObjectLang.Expr

open Machine Symbolic

theorem evalWith_logical {call : Call} {env : Env} {line : Line} {op : BinaryOp} {lhs rhs : Expr}
    (logical : op.isLogical = true) :
    evalWith call env (.binary line op lhs rhs) = (do
      if (← evalWith call env lhs) = op.deciding then pure op.deciding
      else if (← evalWith call env rhs) = op.deciding then pure op.deciding
      else pure (1 - op.deciding)) := by
  cases op with
  | and | or =>
    rw [evalWith]
    rfl
  | _ => cases logical

def Simulated (L : Loaded) (budget : Nat) (call : Call) (e : Expr) : Prop :=
  ∀ ⦃G H : History⦄ ⦃W : World⦄ ⦃c : Snapshot⦄ ⦃ty : Ty⦄ ⦃s t : Supply⦄ ⦃code : Code⦄ ⦃ip : Nat⦄,
    e.Typed L.inheritance H.context ty → Agrees L G W H c →
    Lower.Yields ((e.resolve H.context).code L.base) s code t →
    Code.At L.machine.code L.labels ip code →
    L.Meets budget (ip, c) (Gives L G W H c (ip + code.width) ty)
      (e.evalWith call H.env c.printed)

variable {L : Loaded} {budget : Nat} {call : Call} {line : Line}

theorem simulated_int (value : Word) : Simulated L budget call (.int line value) := by
  intro G H W c ty s t code ip typed agrees lowered stands
  cases typed
  obtain ⟨rfl, _⟩ := yields_int.mp lowered
  have typed : W.HasTy L .int value := trivial
  exact .goes ((Effects.cons (effect_push L.linked value) .nil).goes stands)
    (.pure (agrees.gives typed _ c.ra c.tm))

theorem simulated_bool (value : Bool) : Simulated L budget call (.bool line value) := by
  intro G H W c ty s t code ip typed agrees lowered stands
  cases typed
  obtain ⟨rfl, _⟩ := yields_bool.mp lowered
  have typed : W.HasTy L .bool (boolWord value) := trivial
  exact .goes ((Effects.cons (effect_push L.linked (boolWord value)) .nil).goes stands)
    (.pure (agrees.gives typed _ c.ra c.tm))

theorem simulated_null : Simulated L budget call (.null line) := by
  intro G H W c ty s t code ip typed agrees lowered stands
  cases typed
  obtain ⟨rfl, _⟩ := yields_null.mp lowered
  have typed : W.HasTy L .null nullWord := rfl
  exact .goes ((Effects.cons (effect_push L.linked nullWord) .nil).goes stands)
    (.pure (agrees.gives typed _ c.ra c.tm))

theorem simulated_id (ident : Ident) : Simulated L budget call (.id line ident) := by
  intro G H W c ty s t code ip typed agrees lowered stands
  cases typed with
  | id found alone =>
    obtain ⟨use, used, rfl, _⟩ := yields_id.mp lowered
    rw [Ident.resolve_use found, Option.some.injEq] at used
    subst used
    obtain ⟨w, typed, meaning, effects⟩ := agrees.ident found alone
    refine .goes (effects.goes stands) ?_
    rw [evalWith]
    rcases meaning with meaning | ⟨classes, meaning⟩
    · rw [meaning]
      exact .pure (agrees.gives typed _ c.ra c.tm)
    · rw [meaning]
      exact .stuck classes (.here ⟨w, c.printed, agrees.gives typed _ c.ra c.tm⟩)

theorem simulated_print {operand : Expr} (evaluated : Simulated L budget call operand) :
    Simulated L budget call (.print line operand) := by
  intro G H W c ty s t code ip typed agrees lowered stands
  cases typed with
  | print typed =>
    obtain ⟨operandCode, first, rfl⟩ := yields_print.mp lowered
    obtain ⟨stands, prints⟩ := Code.at_append.mp stands
    rw [evalWith]
    refine (evaluated typed agrees first stands).bind ?_
    rintro value printed ⟨ip', d⟩ ⟨W', leaves, typed'⟩
    obtain rfl : ip' = _ := leaves.ip
    obtain rfl : d.printed = _ := leaves.printed
    have shown := (Effects.cons (effect_print L.linked leaves.stack) .nil).goes prints
    rw [Nat.add_assoc, ← Code.width_append, leaves.stack] at shown
    exact ⟨_, shown, W', leaves.replace agrees _ [value] (d.printed ++ [value]) d.ra d.tm, typed'⟩

theorem simulated_not {operand : Expr} (evaluated : Simulated L budget call operand) :
    Simulated L budget call (.not line operand) := by
  intro G H W c ty s t code ip typed agrees lowered stands
  cases typed with
  | not typed bool =>
    obtain ⟨operandCode, u, first, rfl, _⟩ := yields_not.mp lowered
    rw [Code.at_append, Code.at_append, Code.width_append] at stands
    obtain ⟨⟨stands, pushes⟩, selects⟩ := stands
    rw [evalWith]
    refine (evaluated typed agrees first stands).bind ?_
    rintro value printed ⟨ip', d⟩ ⟨W', leaves, typed'⟩
    obtain rfl : ip' = _ := leaves.ip
    obtain rfl : d.printed = _ := leaves.printed
    have one := (Effects.cons (effect_push L.linked 1) .nil).goes (c := d) pushes
    rw [Nat.add_assoc] at one
    have two := @goes_select _ _ _ { d with stack := 1 :: d.stack } c.stack _ L.linked .branchEq 0 1
      _ _ (value = 1) _ rfl selects fun target branches here =>
        advances_branchEq L.linked branches here (by rw [leaves.stack]; rfl)
    refine .goes (one.trans two) ?_
    rw [Nat.add_assoc, ← Code.width_append, ← Code.width_append]
    split
    · exact .pure ⟨W', leaves.replace agrees _ [0] d.printed d.ra d.tm, trivial⟩
    · exact .pure ⟨W', leaves.replace agrees _ [1] d.printed d.ra d.tm, trivial⟩

theorem hasTy_result (W : World) (op : BinaryOp) (value : Word) : W.HasTy L op.result value := by
  cases op <;> trivial

theorem simulated_strict {op : BinaryOp} {lhs rhs : Expr} (strict : op.isLogical = false)
    (left : Simulated L budget call lhs) (right : Simulated L budget call rhs) :
    Simulated L budget call (.binary line op lhs rhs) := by
  intro G H W c ty s t code ip typed agrees lowered stands
  cases typed with
  | binary typedLeft typedRight accepted =>
    obtain ⟨leftCode, rightCode, tail, u, v, first, second, third, rfl⟩ :=
      (yields_binary strict).mp lowered
    simp only [Code.at_append, Code.width_append, ← Nat.add_assoc] at stands ⊢
    obtain ⟨⟨standsLeft, standsRight⟩, standsTail⟩ := stands
    rw [evalWith_strict strict]
    refine (left typedLeft agrees first standsLeft).bind ?_
    rintro a printed ⟨ip', d⟩ ⟨W₁, one, _⟩
    obtain rfl : ip' = _ := one.ip
    obtain rfl : d.printed = _ := one.printed
    refine (right typedRight one.agrees second standsRight).bind ?_
    rintro b printed ⟨ip', e⟩ ⟨W₂, two, _⟩
    obtain rfl : ip' = _ := two.ip
    obtain rfl : e.printed = _ := two.printed
    have both := one.trans two
    cases value : op.apply a b with
    | some value =>
      obtain ⟨ra, tm, goes⟩ := goes_operator L.linked third standsTail both.stack value
      refine .goes goes (.pure ⟨W₂, ?_, hasTy_result W₂ op _⟩)
      exact both.replace agrees _ [_] e.printed ra tm
    | none => exact stops_operator L.linked strict third standsTail both.stack value

theorem simulated_logical {op : BinaryOp} {lhs rhs : Expr} (logical : op.isLogical = true)
    (left : Simulated L budget call lhs) (right : Simulated L budget call rhs) :
    Simulated L budget call (.binary line op lhs rhs) := by
  intro G H W c ty s t code ip typed agrees lowered stands
  cases typed with
  | binary typedLeft typedRight accepted =>
    obtain ⟨leftCode, rightCode, u, first, second, rfl⟩ := (yields_logical logical).mp lowered
    obtain ⟨standsLeft, standsRight⟩ := at_logicalItems stands
    rw [evalWith_logical logical]
    refine (left typedLeft agrees first standsLeft).bind ?_
    rintro a printed ⟨ip', d⟩ ⟨W₁, one, _⟩
    obtain rfl : ip' = _ := one.ip
    obtain rfl : d.printed = _ := one.printed
    have decides := goes_logical_left L.linked stands one.stack
    refine .goes decides ?_
    by_cases settled : a = op.deciding
    · rw [if_pos settled, if_pos settled]
      refine .pure ⟨W₁, ?_, hasTy_result W₁ op _⟩
      exact one.replace agrees _ [op.deciding] d.printed d.ra d.tm
    · rw [if_neg settled, if_neg settled]
      have dropped := one.replace agrees (ip + leftCode.width + 4) [] d.printed d.ra d.tm
      refine (right typedRight dropped.agrees second standsRight).bind ?_
      rintro b printed ⟨ip', e⟩ ⟨W₂, two, _⟩
      obtain rfl : ip' = _ := two.ip
      obtain rfl : e.printed = _ := two.printed
      have both := dropped.trans two
      refine .goes (goes_logical_right L.linked stands two.stack) ?_
      split
      · refine .pure ⟨W₂, ?_, hasTy_result W₂ op _⟩
        exact both.replace agrees _ [op.deciding] e.printed e.ra e.tm
      · refine .pure ⟨W₂, ?_, hasTy_result W₂ op _⟩
        exact both.replace agrees _ [1 - op.deciding] e.printed e.ra e.tm

theorem simulated_cond {test yes no : Expr} (tested : Simulated L budget call test)
    (first : Simulated L budget call yes) (second : Simulated L budget call no) :
    Simulated L budget call (.cond line test yes no) := by
  intro G H W c ty s t code ip typed agrees lowered stands
  cases typed with
  | cond typedTest bool typedYes typedNo joined =>
    obtain ⟨testCode, noCode, yesCode, u, v, one, two, three, rfl⟩ := yields_cond.mp lowered
    obtain ⟨standsTest, standsNo, standsYes⟩ := at_condItems stands
    rw [evalWith]
    refine (tested typedTest agrees one standsTest).bind ?_
    rintro a printed ⟨ip', d⟩ ⟨W₁, leaves, _⟩
    obtain rfl : ip' = _ := leaves.ip
    obtain rfl : d.printed = _ := leaves.printed
    refine .goes (goes_cond_test L.linked stands leaves.stack) ?_
    by_cases taken : a = 1
    · rw [if_pos taken, if_pos taken, width_cond, ← Nat.add_assoc, ← Nat.add_assoc,
        ← Nat.add_assoc, ← Nat.add_assoc]
      have dropped := leaves.replace agrees (ip + testCode.width + 4 + noCode.width + 2) []
        d.printed d.ra d.tm
      refine (first typedYes dropped.agrees three standsYes).weaken ?_
      rintro value printed q ⟨W₂, more, typed⟩
      exact ⟨W₂, dropped.trans more, World.HasTy.join joined (.inl typed)⟩
    · rw [if_neg taken, if_neg taken]
      have dropped := leaves.replace agrees (ip + testCode.width + 4) [] d.printed d.ra d.tm
      refine (second typedNo dropped.agrees two standsNo).extend ?_
      rintro value printed ⟨ip', e⟩ ⟨W₂, more, typed⟩
      obtain rfl : ip' = _ := more.ip
      exact ⟨_, goes_cond_no L.linked stands, W₂, (dropped.trans more).move _,
        World.HasTy.join joined (.inr typed)⟩

def ArgsSimulated (L : Loaded) (budget : Nat) (call : Call) (args : List Expr) : Prop :=
  ∀ ⦃G H : History⦄ ⦃W : World⦄ ⦃c : Snapshot⦄ ⦃formals : List Ty⦄ ⦃s t : Supply⦄ ⦃code : Code⦄
    ⦃ip : Nat⦄, TypedArgs L.inheritance H.context formals args → Agrees L G W H c →
    Lower.Yields (argsBackward L.base (resolveAll H.context args)) s code t →
    Code.At L.machine.code L.labels ip code →
    L.Meets budget (ip, c) (GivesAll L G W H c (ip + code.width) formals)
      (evalArgs call H.env args c.printed)

theorem argsSimulated {args : List Expr} (all : ∀ arg ∈ args, Simulated L budget call arg) :
    ArgsSimulated L budget call args := by
  induction args with
  | nil =>
    intro G H W c formals s t code ip typed agrees lowered stands
    cases typed
    obtain ⟨rfl, _⟩ := yields_argsBackward_nil.mp lowered
    exact .pure ⟨W, agrees.stay _ [] c.ra c.tm, .nil⟩
  | cons arg args ih =>
    intro G H W c formals s t code ip typed agrees lowered stands
    cases typed with
    | cons typedHead fits typedTail =>
      obtain ⟨headCode, tailCode, u, first, second, rfl⟩ := yields_argsBackward_cons.mp lowered
      simp only [Code.at_append, Code.width_append, ← Nat.add_assoc] at stands ⊢
      obtain ⟨standsTail, standsHead⟩ := stands
      rw [List.forall_mem_cons] at all
      rw [evalArgs]
      refine (ih all.2 typedTail agrees first standsTail).bind ?_
      rintro values printed ⟨ip', d⟩ ⟨W₁, one, typedValues⟩
      obtain rfl : ip' = _ := one.ip
      obtain rfl : d.printed = _ := one.printed
      refine (all.1 typedHead one.agrees second standsHead).bind ?_
      rintro value printed q ⟨W₂, two, typedValue⟩
      refine .pure ⟨W₂, one.trans two, .cons (typedValue.sub fits) ?_⟩
      exact typedValues.imp fun _ _ typed => typed.extend two.grows

/-- The call of a routine: the arguments are on the stack, `before` pushes the access link and
`target` computes the entry from it. -/
theorem meets_call {G H K : History} {V W : World} {c d : Snapshot} {ip : Nat} {r : Routine}
    {link entry : Word} {values printed : List Word} {before target : List Symbolic}
    (calls : CallsMeet L budget call) (agrees : Agrees L G V H c)
    (leaves : Leaves L G V H c ip (values ++ [c.fp]) printed W (ip, d))
    (stands : Code.At L.machine.code L.labels ip
      (onLine line (before ++ Sequence.callThrough target)))
    (pushed : Effects L.machine L.labels before d { d with stack := link :: d.stack })
    (load : Effects L.machine L.labels target
      { d with stack := link :: link :: d.stack, tm := link }
      { d with stack := entry :: link :: d.stack, tm := link })
    (ready : L.Ready K.context r entry) (frame : link = K.frame L.base)
    (inside : Holds L G W c.stack K)
    (typed : List.Forall₂ (W.HasTy L) (r.params.map Param.ty) values) :
    L.Meets budget (ip, d)
      (Gives L G V H c (ip + Code.width (onLine line (before ++ Sequence.callThrough target)))
        r.ret) (call K.env r values d.printed) := by
  rw [at_onLine_append] at stands
  rw [width_onLine_append, ← Nat.add_assoc]
  have stack : d.stack = values ++ c.fp :: c.stack := by
    rw [leaves.stack]
    simp
  have ⟨label, address, _, placed, same⟩ := ready
  subst same
  have named := Word.index?_ofNat (L.linked.labels label address placed)
  have linking := pushed.goes stands.1
  obtain ⟨last, goes, jumps⟩ := calls_through (c := { d with stack := link :: d.stack }) L.linked
    stands.2 rfl load named
  refine .goes (linking.trans (goes.tail jumps)) ?_
  have globals := agrees.globals.extend leaves.grows (List.suffix_refl _) []
  have entered := @calls G K W { d with
      stack := link :: d.stack, tm := link
      ra := Int32.ofNat (ip + Code.width (onLine line before) +
        Code.width (onLine line (Sequence.callThrough target))) }
    r _ address _ values c.stack c.fp ready named (index?_return L.linked stands.2)
    (by rw [frame, stack]) leaves.agrees.heap leaves.agrees.hp inside globals
    leaves.agrees.objects typed
  exact entered.weaken fun value printed q returns => returns.gives agrees leaves.grows

theorem breaks_call {d : Snapshot} {ip : Nat} {link : Word} {before target : List Symbolic}
    (stands : Code.At L.machine.code L.labels ip
      (onLine line (before ++ Sequence.callThrough target)))
    (pushed : Effects L.machine L.labels before d { d with stack := link :: d.stack })
    (load : Effects L.machine L.labels target
      { d with stack := link :: link :: d.stack, tm := link }
      { d with stack := -1 :: link :: d.stack, tm := link }) :
    L.machine.Breaks (ip, d) (Loaded.FaultOf .nullCall) := by
  rw [at_onLine_append] at stands
  exact Breaks.goes (pushed.goes stands.1) (breaks_through L.linked stands.2 rfl load)

theorem reaches_method {G H : History} {V W : World} {c d : Snapshot} {ip : Nat}
    {cls name : String} {layout : Layout} {table : Table Binding} {b : Binding} {sig : Signature}
    {receiver : Word} {values printed : List Word} {before : List Symbolic}
    (calls : CallsMeet L budget call) (agrees : Agrees L G V H c)
    (leaves : Leaves L G V H c ip (values ++ [c.fp]) printed W (ip, d))
    (stands : Code.At L.machine.code L.labels ip (onLine line
      (before ++ Sequence.callThrough (plain .loadW :: Sequence.loadOffset b.offset))))
    (pushed : Effects L.machine L.labels before d { d with stack := receiver :: d.stack })
    (refers : W.Refers L cls receiver) (known : L.final.HasClass cls layout table)
    (found : table.find? name = some b) (shape : b.ty = .method sig)
    (typed : List.Forall₂ (W.HasTy L) sig.params values) :
    L.Reaches budget (ip, d) fun q => ∃ value printed,
      Gives L G V H c (ip + Code.width (onLine line
        (before ++ Sequence.callThrough (plain .loadW :: Sequence.loadOffset b.offset))))
        sig.ret value printed q := by
  have globals := agrees.globals.extend leaves.grows (List.suffix_refl _) []
  obtain ⟨i, t, k, entry, m, u, K, r, rfl, header, place, stored, part, object, sub, ready⟩ :=
    refers.method leaves.agrees.objects globals known found shape
  rw [← leaves.agrees.heap] at header stored
  have load : Effects L.machine L.labels (plain .loadW :: Sequence.loadOffset b.offset)
      { d with stack := Int32.ofNat i :: Int32.ofNat i :: d.stack, tm := Int32.ofNat i }
      { d with stack := entry :: Int32.ofNat i :: d.stack, tm := Int32.ofNat i } :=
    .cons (effect_loadW_heap L.linked rfl header) (@effects_loadOffset_heap _ _
      { d with stack := t :: Int32.ofNat i :: d.stack, tm := Int32.ofNat i } _
      (Int32.ofNat i :: d.stack) L.linked _ _ k rfl place stored)
  have inside : Holds L G W c.stack (.self (K.context.members m).table (Int32.ofNat i) ::
      .cls m u :: K) := .self (globals.suffix part) object
  have called := meets_call (K := .self (K.context.members m).table (Int32.ofNat i) :: .cls m u :: K)
    calls agrees leaves stands pushed load ready rfl inside (World.hasTy_params sub typed)
  refine called.reaches.bind ?_
  rintro q ⟨value, printed, gives⟩
  exact .here ⟨value, printed, gives.weaken (Signature.subtype_ret sub)⟩

theorem simulated_call {callee : Ident} {args : List Expr} (calls : CallsMeet L budget call)
    (all : ∀ arg ∈ args, Simulated L budget call arg) :
    Simulated L budget call (.call line callee args) := by
  intro G H W c ty s t code ip typed agrees lowered stands
  cases typed with
  | @call _ _ _ b sig found callable typedArgs =>
    obtain ⟨use, argCode, used, first, rfl⟩ := yields_call.mp lowered
    rw [Ident.resolve_use found, Option.some.injEq] at used
    subst used
    simp only [Code.at_append, Code.width_append, ← Nat.add_assoc] at stands ⊢
    obtain ⟨⟨loads, standsArgs⟩, standsCall⟩ := stands
    rw [evalWith]
    refine .goes ((Effects.cons (effect_loadFp L.linked) .nil).goes loads) ?_
    have start := agrees.stay (ip + Code.width (onLine line [plain .loadFp])) [c.fp] c.ra c.tm
    refine (argsSimulated all typedArgs start.agrees first standsArgs).bind ?_
    rintro values printed ⟨ip', d⟩ ⟨W₁, given, typedValues⟩
    obtain rfl : ip' = _ := given.ip
    obtain rfl : d.printed = _ := given.printed
    have pending := start.trans given
    cases given.agrees.holds.lookup found with
    | @value frame w place slot plain typed meaning =>
      obtain rfl := typed.null_of_callable callable
      rw [callTarget, if_neg (by simp [Ty.isMethod_of_isPlain plain])] at standsCall
      have breaks := breaks_call standsCall (place.effects given.agrees.fp) (@effects_loadOffset _ _
          { d with stack := frame :: frame :: d.stack, tm := frame } _ (frame :: d.stack) L.linked
          _ _ rfl (slot.append [frame]))
      rcases meaning with meaning | ⟨classes, meaning⟩
      · simp only [meaning]
        exact breaks
      · simp only [meaning]
        exact .stuck classes (Loaded.reaches_of_breaks breaks fun _ => Loaded.allowed_of_failure)
    | @routine r entry K place slot listed shape meaning =>
      rw [shape, Ty.signature?, Option.some.injEq] at callable
      subst callable
      rw [callTarget, if_neg (by simp [shape, Ty.isMethod])] at standsCall ⊢
      have inside := agrees.holds.suffix listed
      have grown := inside.extend given.grows (List.suffix_refl _) []
      cases inside with
      | fn before free _ ready =>
        have load := @effects_loadOffset _ _
          { d with stack := K.frame L.base :: K.frame L.base :: d.stack, tm := K.frame L.base } _
          (K.frame L.base :: d.stack) L.linked _ _ rfl (slot.append [K.frame L.base])
        have called := meets_call (K := .fn r entry :: K) calls agrees pending standsCall
          (place.effects given.agrees.fp) load ready rfl grown typedValues
        rcases meaning with meaning | ⟨classes, meaning⟩
        · simp only [meaning]
          exact called
        · simp only [meaning]
          exact .stuck classes called.reaches
    | cls shape =>
      rw [shape] at callable
      cases callable
    | @member m u a K place listed own meaning =>
      have inside := given.agrees.holds.suffix listed
      have known := inside.known (List.suffix_cons _ _)
      simp only [meaning]
      refine .stuck ⟨_, _, _, known⟩ ?_
      cases kind : b.ty.isMethod with
      | true =>
        rw [callTarget, if_pos kind] at standsCall ⊢
        exact reaches_method calls agrees pending standsCall (place.effects given.agrees.fp)
          inside.receiver known own (Ty.eq_method kind callable) typedValues
      | false =>
        rw [callTarget, if_neg (by simp [kind])] at standsCall
        obtain ⟨k, w, address, stored, typed⟩ := inside.receiver.field given.agrees.objects
          given.agrees.globals known own kind
        obtain rfl := typed.null_of_callable callable
        rw [← given.agrees.heap] at stored
        exact Loaded.reaches_of_breaks (breaks_call standsCall (place.effects given.agrees.fp)
          (@effects_loadOffset_heap _ _ { d with stack := a :: a :: d.stack, tm := a } _
            (a :: d.stack) L.linked _ _ k rfl address stored)) fun _ => Loaded.allowed_of_failure

/-- A negative address is asked for only where `null` is used as an object. -/
theorem allowed_access {address : Word} (negative : address.toInt < 0) (fault : Fault)
    (access : ∃ ip, fault = .memoryOutOfBounds address ip) : Loaded.AllowedFault fault := by
  obtain ⟨ip, rfl⟩ := access
  exact negative

theorem simulated_send {object : Ident} {method : String} {args : List Expr}
    {binding : Option Binding} (calls : CallsMeet L budget call)
    (all : ∀ arg ∈ args, Simulated L budget call arg) :
    Simulated L budget call (.send line object method args binding) := by
  intro G H W c ty s t code ip typed agrees lowered stands
  cases typed with
  | @send _ _ _ _ _ b sig found shape typedArgs =>
    rw [resolve, Context.member_of_memberOf found] at lowered
    obtain ⟨receiver, cls, table, lookup, isRef, listed, entry⟩ := found
    obtain ⟨b', use, argCode, same, used, first, rfl⟩ := yields_send.mp lowered
    cases same
    rw [Ident.resolve_use lookup, Option.some.injEq] at used
    subst used
    simp only [Code.at_append, Code.width_append, ← Nat.add_assoc] at stands ⊢
    obtain ⟨⟨loads, standsArgs⟩, standsCall⟩ := stands
    obtain ⟨layout, known⟩ := agrees.holds.class_of_find listed
    rw [evalWith]
    refine .stuck ⟨_, _, _, known⟩ ?_
    refine .goes ((Effects.cons (effect_loadFp L.linked) .nil).goes loads) ?_
    have start := agrees.stay (ip + Code.width (onLine line [plain .loadFp])) [c.fp] c.ra c.tm
    refine (argsSimulated all typedArgs start.agrees first standsArgs).reaches.bind ?_
    rintro ⟨ip', d⟩ ⟨values, printed, W₁, given, typedValues⟩
    obtain rfl : ip' = _ := given.ip
    obtain ⟨w, typed, _, effects⟩ := given.agrees.ident lookup (by rw [isRef]; rfl)
    rw [isRef] at typed
    rcases typed with rfl | refers
    · rw [at_onLine_append] at standsCall
      exact Loaded.reaches_of_breaks (Breaks.goes (effects.goes standsCall.1)
        (breaks_dispatch L.linked standsCall.2 rfl)) (allowed_access (by decide))
    · exact reaches_method calls agrees (start.trans given) standsCall effects refers known entry
        shape typedValues

theorem simulated_get {object : Ident} {field : String} {binding : Option Binding} :
    Simulated L budget call (.get line object field binding) := by
  intro G H W c ty s t code ip typed agrees lowered stands
  cases typed with
  | @get _ _ _ _ b found isField =>
    rw [resolve, Context.member_of_memberOf found] at lowered
    obtain ⟨receiver, cls, table, lookup, isRef, listed, entry⟩ := found
    obtain ⟨b', use, same, used, rfl, _⟩ := yields_get.mp lowered
    cases same
    rw [Ident.resolve_use lookup, Option.some.injEq] at used
    subst used
    obtain ⟨layout, known⟩ := agrees.holds.class_of_find listed
    obtain ⟨w, typed, _, effects⟩ := agrees.ident lookup (by rw [isRef]; rfl)
    rw [isRef] at typed
    rw [evalWith]
    refine .stuck ⟨_, _, _, known⟩ ?_
    rcases typed with rfl | refers
    · rw [at_onLine_append] at stands
      have negative := World.null_field known entry isField
      exact Loaded.reaches_of_breaks (Breaks.goes (effects.goes stands.1)
        (breaks_loadOffset L.linked stands.2 rfl negative)) (allowed_access negative)
    · obtain ⟨k, value, address, stored, typed⟩ :=
        refers.field agrees.objects agrees.globals known entry isField
      rw [← agrees.heap] at stored
      have all := effects.append (@effects_loadOffset_heap _ _ { c with stack := w :: c.stack } value
        c.stack L.linked _ _ k rfl address stored)
      exact .goes (all.goes stands) (.here ⟨value, c.printed, agrees.gives typed _ c.ra c.tm⟩)

/-- The arguments of `new` are evaluated from the first to the last, so the last is on top. -/
theorem reaches_forward {args : List Expr} (all : ∀ arg ∈ args, Simulated L budget call arg)
    {G H : History} {W : World} {c : Snapshot} {formals : List Ty} {s t : Supply} {code : Code}
    {ip : Nat} (typed : TypedArgs L.inheritance H.context formals args) (agrees : Agrees L G W H c)
    (lowered : Lower.Yields (argsForward L.base (resolveAll H.context args)) s code t)
    (stands : Code.At L.machine.code L.labels ip code) :
    L.Reaches budget (ip, c) fun q => ∃ values printed W',
      Leaves L G W H c (ip + code.width) values.reverse printed W' q ∧
        List.Forall₂ (W'.HasTy L) formals values := by
  induction args generalizing W c formals s code ip with
  | nil =>
    cases typed
    obtain ⟨rfl, _⟩ := yields_argsForward_nil.mp lowered
    exact .here ⟨[], c.printed, W, agrees.stay _ [] c.ra c.tm, .nil⟩
  | cons arg args ih =>
    cases typed with
    | cons typedHead fits typedTail =>
      obtain ⟨headCode, tailCode, u, first, second, rfl⟩ := yields_argsForward_cons.mp lowered
      simp only [Code.at_append, Code.width_append, ← Nat.add_assoc] at stands ⊢
      obtain ⟨standsHead, standsTail⟩ := stands
      have head := all arg List.mem_cons_self
      refine (head typedHead agrees first standsHead).reaches.bind ?_
      rintro ⟨ip', d⟩ ⟨value, printed, W₁, one, typedValue⟩
      obtain rfl : ip' = _ := one.ip
      refine (ih (fun arg mem => all arg (List.mem_cons_of_mem _ mem)) typedTail one.agrees second
        standsTail).bind ?_
      rintro q ⟨values, printed, W₂, two, typedValues⟩
      refine .here ⟨value :: values, printed, W₂, ?_,
        .cons ((typedValue.sub fits).extend two.grows) typedValues⟩
      rw [List.reverse_cons]
      exact one.trans two

theorem TypedArgs.length_eq {h : Inheritance} {ctx : Context} {formals : List Ty}
    {args : List Expr} (typed : TypedArgs h ctx formals args) :
    (resolveAll ctx args).length = formals.length := by
  induction args generalizing formals with
  | nil =>
    cases typed
    rfl
  | cons arg args ih =>
    cases typed with
    | cons _ _ rest => simp [resolveAll, ih rest]

theorem simulated_new {cls : String} {args : List Expr} {binding : Option Binding}
    (all : ∀ arg ∈ args, Simulated L budget call arg) :
    Simulated L budget call (.new line cls args binding) := by
  intro G H W c ty s t code ip typed agrees lowered stands
  cases typed with
  | @new _ _ _ _ b layout found isClass typedArgs =>
    rw [resolve, found, Option.some_or] at lowered
    obtain ⟨b', _, argCode, same, _, first, rfl⟩ := yields_new.mp lowered
    cases same
    simp only [Code.at_append, Code.width_append, ← Nat.add_assoc] at stands ⊢
    obtain ⟨standsArgs, standsTail⟩ := stands
    obtain ⟨m, table, K, part, rfl, rfl⟩ := agrees.holds.class_of_lookup found isClass
    cases isClass
    cases agrees.holds.suffix part with
    | cls before free sound known listed slot dispatches =>
      rw [evalWith]
      refine .stuck ⟨_, _, _, known⟩ ?_
      refine (reaches_forward all typedArgs agrees first standsArgs).bind ?_
      rintro ⟨ip', d⟩ ⟨values, printed, W₁, leaves, typedValues⟩
      obtain rfl : ip' = _ := leaves.ip
      have count : (resolveAll H.context args).length = values.reverse.length := by
        rw [typedArgs.length_eq, typedValues.length_eq, List.length_reverse]
      rw [count] at standsTail ⊢
      have level : d.heap.length = d.hp := by rw [leaves.agrees.heap, leaves.agrees.hp]
      have made := effects_newTail (g := L.base) (b := K.context.classBinding m) L.linked
        (L.checked known) leaves.stack slot level
      refine .goes (made.goes standsTail) (.here ?_)
      have objects := leaves.agrees.objects
      have grows := objects.extends_allocate values table (.cls m table :: K)
      have heap : d.heap = W₁.heap := leaves.agrees.heap
      have hp : d.hp = W₁.heap.length := leaves.agrees.hp
      have object : (W₁.allocate values table (.cls m table :: K)).Refers L m.name
          (Int32.ofNat (d.hp + values.reverse.length)) := by
        refine ⟨_, m, table, K, rfl, ?_, Inheritance.isAncestor_self _ _⟩
        rw [List.length_reverse, hp]
        exact if_pos rfl
      refine ⟨_, d.printed, _, agrees.leaves (d := { d with
          stack := [Int32.ofNat (d.hp + values.reverse.length)] ++ c.stack
          heap := d.heap ++ values.reverse ++ [table], hp := d.hp + values.reverse.length + 1 })
        (leaves.grows.trans grows) (objects.allocate listed typedValues) ?_ ?_
        (leaves.agrees.fp.trans agrees.fp.symm) rfl, .inr object⟩
      · rw [World.allocate, ← heap]
      · simp only [World.allocate, hp, List.length_append, List.length_singleton]

mutual

/-- Expressions do what they are evaluated to, if calls do. -/
theorem simulated (calls : CallsMeet L budget call) : (e : Expr) → Simulated L budget call e
  | .int _ value => simulated_int value
  | .bool _ value => simulated_bool value
  | .null _ => simulated_null
  | .id _ ident => simulated_id ident
  | .call _ _ args => simulated_call calls (eachSimulated calls args)
  | .binary _ op lhs rhs => by
    cases kind : op.isLogical with
    | true => exact simulated_logical kind (simulated calls lhs) (simulated calls rhs)
    | false => exact simulated_strict kind (simulated calls lhs) (simulated calls rhs)
  | .not _ operand => simulated_not (simulated calls operand)
  | .cond _ test yes no =>
    simulated_cond (simulated calls test) (simulated calls yes) (simulated calls no)
  | .print _ operand => simulated_print (simulated calls operand)
  | .new _ _ args _ => simulated_new (eachSimulated calls args)
  | .send _ _ _ args _ => simulated_send calls (eachSimulated calls args)
  | .get _ _ _ _ => simulated_get

theorem eachSimulated (calls : CallsMeet L budget call) :
    (args : List Expr) → ∀ arg ∈ args, Simulated L budget call arg
  | [] => by simp
  | arg :: args => List.forall_mem_cons.mpr ⟨simulated calls arg, eachSimulated calls args⟩

end

end ObjectLang.Expr
