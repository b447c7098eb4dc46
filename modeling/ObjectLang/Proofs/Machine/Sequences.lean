import ObjectLang.Proofs.Code.Lowering
import ObjectLang.Proofs.Machine.Instructions

/-!
The instruction sequences of the calling and object conventions on snapshots.
-/
namespace ObjectLang.Machine

open Symbolic

variable {m : Machine} {labels : Labels} {ip : Nat} {c : Snapshot} {u v w : Word}
  {rest : List Word}

inductive Links (m : Machine) (stack : List Word) : Nat → Word → Word → Prop
  | here {frame} : Links m stack 0 frame frame
  | out {hops frame next last} (link : m.Slot stack frame next)
      (more : Links m stack hops next last) : Links m stack (hops + 1) frame last

section

variable (linked : m.Linked labels)

include linked

theorem effects_loadOffset {address offset : Word} (top : c.stack = address :: rest)
    (slot : m.Slot rest (address + offset) w) :
    Effects m labels (Sequence.loadOffset offset) c { c with stack := w :: rest } := by
  refine .cons (effect_push linked offset) (.cons (effect_add linked (by rw [top]))
    (.cons (effect_loadW linked rfl slot) .nil))

theorem effects_loadOffset_heap {address offset : Word} {i : Nat} (top : c.stack = address :: rest)
    (place : address + offset = Int32.ofNat i) (found : c.heap[i]? = some w) :
    Effects m labels (Sequence.loadOffset offset) c { c with stack := w :: rest } := by
  refine .cons (effect_push linked offset) (.cons (effect_add linked (by rw [top])) (.cons ?_ .nil))
  rw [place]
  exact @effect_loadW_heap m labels { c with stack := Int32.ofNat i :: rest } w rest linked i rfl found

theorem effects_loads {hops : Nat} {first last : Word} (links : Links m rest hops first last)
    (top : c.stack = first :: rest) :
    Effects m labels (List.replicate hops (plain .loadW)) c { c with stack := last :: rest } := by
  induction links generalizing c with
  | here =>
    rw [← top]
    exact .nil
  | out link _ ih =>
    rw [List.replicate_succ]
    exact .cons (effect_loadW linked top link)
      (@ih { c with stack := _ :: rest } rfl)

theorem effects_frameWalk {hops : Nat} {frame : Word} (links : Links m c.stack hops c.fp frame) :
    Effects m labels (Sequence.frameWalk hops) c { c with stack := frame :: c.stack } :=
  .cons (effect_loadFp linked) (@effects_loads m labels { c with stack := c.fp :: c.stack } c.stack
    linked hops c.fp frame links rfl)

theorem effects_swap (top : c.stack = u :: v :: rest) :
    Effects m labels Sequence.swap c { c with stack := v :: u :: rest, tm := u, ra := v } :=
  .cons (effect_storeTm linked top) (.cons (effect_storeRa linked rfl)
    (.cons (effect_loadTm linked) (.cons (effect_loadRa linked) .nil)))

theorem effects_heapBump (checks : m.config.flags.checkCollision = true)
    (ahead : c.heap.length = c.hp + 1) :
    Effects m labels Sequence.heapBump c { c with hp := c.hp + 1 } := by
  refine .cons (effect_loadHp linked) (.cons (effect_push linked 1)
    (.cons (effect_add linked rfl) (.cons ?_ .nil)))
  have next : Int32.ofNat c.hp + 1 = Int32.ofNat (c.hp + 1) := by
    rw [Int32.ofNat_add]
    rfl
  rw [next]
  exact @effect_storeHp m labels { c with stack := Int32.ofNat (c.hp + 1) :: c.stack } c.stack
    linked checks rfl ahead

theorem effects_heapStore (checks : m.config.flags.checkCollision = true)
    (top : c.stack = w :: rest) (used : rest ≠ []) (level : c.heap.length = c.hp) :
    Effects m labels Sequence.heapStore c
      { c with stack := rest, heap := c.heap ++ [w], hp := c.hp + 1 } := by
  have store := @effect_storeW m labels { c with stack := Int32.ofNat c.hp :: c.stack } w rest linked
    checks (by simp only [top]) level used
  have bump := @effects_heapBump m labels { c with stack := rest, heap := c.heap ++ [w] } linked
    checks (by simp [level])
  exact .cons (effect_loadHp linked) (.cons store bump)

theorem effects_heapStores (checks : m.config.flags.checkCollision = true) {words : List Word}
    (top : c.stack = words ++ rest) (used : rest ≠ []) (level : c.heap.length = c.hp) :
    Effects m labels (List.replicate words.length Sequence.heapStore).flatten c
      { c with stack := rest, heap := c.heap ++ words, hp := c.hp + words.length } := by
  induction words generalizing c with
  | nil =>
    simp only [List.nil_append] at top
    simp only [List.length_nil, List.replicate_zero, List.flatten_nil, List.append_nil, ← top]
    exact .nil
  | cons w words ih =>
    rw [List.length_cons, List.replicate_succ, List.flatten_cons]
    have first := effects_heapStore linked checks top (by simp [used]) level
    have others := @ih { c with stack := words ++ rest, heap := c.heap ++ [w], hp := c.hp + 1 } rfl
      (by simp [level])
    simp only [List.append_assoc, List.singleton_append] at others
    rw [Nat.add_assoc, Nat.add_comm 1] at others
    exact first.append others

/-- The fields are moved from the stack to the heap and the table of the class, which is loaded from
its slot, is put above them. -/
theorem effects_newTail (checks : m.config.flags.checkCollision = true) {g : Word} {b : Binding}
    {words : List Word} (top : c.stack = words ++ rest) (slot : m.Slot rest (g + b.offset) w)
    (level : c.heap.length = c.hp) :
    Effects m labels (Expr.newTail g words.length b) c
      { c with
        stack := Int32.ofNat (c.hp + words.length) :: rest
        heap := c.heap ++ words ++ [w]
        hp := c.hp + words.length + 1 } := by
  have used : rest ≠ [] := by
    rintro rfl
    obtain ⟨position, found, _⟩ := slot
    simp at found
  have fields := effects_heapStores linked checks top used level
  have ahead : (c.heap ++ words).length = c.hp + words.length := by simp [level]
  have table := @effect_storeW m labels { c with
      stack := Int32.ofNat (c.hp + words.length) :: w :: rest
      heap := c.heap ++ words, hp := c.hp + words.length } w rest linked checks rfl ahead used
  have bump := @effects_heapBump m labels { c with
      stack := Int32.ofNat (c.hp + words.length) :: rest
      heap := c.heap ++ words ++ [w], hp := c.hp + words.length } linked checks
    (by rw [List.length_append, ahead]; rfl)
  exact (fields.append (.cons (effect_push linked _) (.cons (effect_loadW linked rfl slot)
    (.cons (effect_loadHp linked) (.cons table (.cons (effect_loadHp linked) .nil)))))).append bump

theorem effects_entries (checks : m.config.flags.checkCollision = true) {table : List Label}
    {targets : List Nat}
    (placed : List.Forall₂ (fun l target => labels.address? l = some target) table targets)
    (used : c.stack ≠ []) (level : c.heap.length = c.hp) :
    Effects m labels (table.flatMap fun entry => pushLabel entry :: Sequence.heapStore) c
      { c with heap := c.heap ++ targets.map Int32.ofNat, hp := c.hp + targets.length } := by
  induction placed generalizing c with
  | nil =>
    simp only [List.flatMap_nil, List.map_nil, List.append_nil]
    exact .nil
  | @cons l target table targets place _ ih =>
    have store := @effects_heapStore m labels { c with stack := Int32.ofNat target :: c.stack }
      (Int32.ofNat target) c.stack linked checks rfl used level
    have others := @ih { c with heap := c.heap ++ [Int32.ofNat target], hp := c.hp + 1 } used
      (by simp [level])
    simp only [List.append_assoc, List.singleton_append] at others
    rw [Nat.add_assoc, Nat.add_comm 1] at others
    exact .cons (effect_pushLabel linked place) (store.append others)

theorem effects_tableCode (checks : m.config.flags.checkCollision = true) {table : List Label}
    {targets : List Nat}
    (placed : List.Forall₂ (fun l target => labels.address? l = some target) table targets)
    (level : c.heap.length = c.hp) :
    Effects m labels (tableCode table) c
      { c with
        stack := Int32.ofNat c.hp :: c.stack
        heap := c.heap ++ targets.map Int32.ofNat
        hp := c.hp + targets.length } :=
  .cons (effect_loadHp linked)
    (@effects_entries m labels { c with stack := Int32.ofNat c.hp :: c.stack } linked checks table
      targets placed (by simp) level)

theorem effects_callStart (top : c.stack = u :: rest) :
    Effects m labels Sequence.callStart c { c with stack := u :: u :: rest, tm := u } :=
  .cons (effect_storeTm linked top) (.cons (effect_loadTm linked) (.cons (effect_loadTm linked) .nil))

theorem effects_prologue (top : c.stack = u :: rest) :
    Effects m labels Routine.prologue c
      { c with stack := c.ra :: u :: rest, fp := m.stackAddress rest.length } := by
  refine .cons (effect_copyFp top) (.cons ?_ .nil)
  have load := @effect_loadRa m labels { c with fp := m.stackAddress rest.length } linked
  rw [← top]
  exact load

theorem effects_pops {words : List Word} (top : c.stack = words ++ rest) :
    Effects m labels (List.replicate words.length (plain .pop)) c { c with stack := rest } := by
  induction words generalizing c with
  | nil =>
    simp only [List.nil_append] at top
    rw [← top]
    exact .nil
  | cons w words ih =>
    rw [List.length_cons, List.replicate_succ]
    exact .cons (effect_pop linked top) (@ih { c with stack := words ++ rest } rfl)

end

def Calls (m : Machine) (p q : Point) : Prop := ∃ last, m.Goes p last ∧ m.Advances last q

def Breaks (m : Machine) (p : Point) (kind : Fault → Prop) : Prop :=
  ∃ last, m.Goes p last ∧ m.Stops last kind

theorem Breaks.goes {p q : Point} {kind : Fault → Prop} (goes : m.Goes p q)
    (breaks : m.Breaks q kind) : m.Breaks p kind := by
  obtain ⟨last, more, stops⟩ := breaks
  exact ⟨last, goes.trans more, stops⟩

section

variable (linked : m.Linked labels) {line : Line}

include linked

theorem goes_callThrough {target : List Symbolic} {link entry : Word}
    (stands : Code.At m.code labels ip (onLine line (Sequence.callThrough target)))
    (top : c.stack = link :: rest)
    (load : Effects m labels target { c with stack := link :: link :: rest, tm := link }
      { c with stack := entry :: link :: rest, tm := link }) :
    m.Goes (ip, c) (ip + Code.width (onLine line (Sequence.callStart ++ target)),
        { c with stack := entry :: link :: rest, tm := link }) ∧
      (plain .js).At m.code labels
        (ip + Code.width (onLine line (Sequence.callStart ++ target))) := by
  simp only [Sequence.callThrough, onLine, List.map_append] at stands
  obtain ⟨before, jump⟩ := Code.at_append.mp stands
  rw [← List.map_append] at before jump
  exact ⟨((effects_callStart linked top).append load).goes before, (Code.at_instr.mp jump).1⟩

theorem calls_through {target : List Symbolic} {link entry : Word} {address : Nat}
    (stands : Code.At m.code labels ip (onLine line (Sequence.callThrough target)))
    (top : c.stack = link :: rest)
    (load : Effects m labels target { c with stack := link :: link :: rest, tm := link }
      { c with stack := entry :: link :: rest, tm := link })
    (named : Word.index? entry = some address) :
    m.Calls (ip, c) (address, { c with
      stack := link :: rest, tm := link
      ra := Int32.ofNat (ip + Code.width (onLine line (Sequence.callThrough target))) }) := by
  obtain ⟨goes, jump⟩ := goes_callThrough linked stands top load
  refine ⟨_, goes, ?_⟩
  have step := advances_js linked jump (c := { c with stack := entry :: link :: rest, tm := link })
    rfl named
  simpa [Sequence.callThrough, onLine, Code.width, Item.width, plain, Opcode.width,
    Opcode.hasOperand, Opcode.isBranch, Nat.add_assoc] using step

theorem breaks_through {target : List Symbolic} {link : Word}
    (stands : Code.At m.code labels ip (onLine line (Sequence.callThrough target)))
    (top : c.stack = link :: rest)
    (load : Effects m labels target { c with stack := link :: link :: rest, tm := link }
      { c with stack := -1 :: link :: rest, tm := link }) :
    m.Breaks (ip, c) (· = .codeOutOfBounds (-1)) := by
  obtain ⟨goes, jump⟩ := goes_callThrough linked stands top load
  exact ⟨_, goes, stops_js linked jump rfl⟩

theorem goes_epilogue {params locals : List Word} {value back link control : Word} {address : Nat}
    (stands : Code.At m.code labels ip
      (onLine line (Routine.epilogue params.length locals.length)))
    (top : c.stack = value :: (locals ++ back :: link :: (params ++ control :: rest)))
    (named : Word.index? back = some address) :
    ∃ ra, m.Goes (ip, c)
      (address, { c with stack := value :: rest, fp := control, ra := ra, tm := value }) := by
  have one := effect_storeTm linked top
  have two := @effects_pops m labels
    { c with stack := locals ++ back :: link :: (params ++ control :: rest), tm := value }
    (back :: link :: (params ++ control :: rest)) linked locals rfl
  have three := @effect_storeRa m labels
    { c with stack := back :: link :: (params ++ control :: rest), tm := value } back
    (link :: (params ++ control :: rest)) linked rfl
  have four := @effect_pop m labels
    { c with stack := link :: (params ++ control :: rest), tm := value, ra := back } link
    (params ++ control :: rest) linked rfl
  have five := @effects_pops m labels
    { c with stack := params ++ control :: rest, tm := value, ra := back }
    (control :: rest) linked params rfl
  have six := @effect_storeFp m labels
    { c with stack := control :: rest, tm := value, ra := back } control rest linked rfl
  have seven := @effect_loadTm m labels
    { c with stack := rest, tm := value, ra := back, fp := control } linked
  have eight := @effect_loadRa m labels
    { c with stack := value :: rest, tm := value, ra := back, fp := control } linked
  have straight := (((Effects.cons one .nil).append two).append
    (.cons three (.cons four .nil))).append five |>.append
    (.cons six (.cons seven (.cons eight .nil)))
  have split : Routine.epilogue params.length locals.length =
      (([plain .storeTm] ++ List.replicate locals.length (plain .pop)) ++
        [plain .storeRa, plain .pop] ++ List.replicate params.length (plain .pop) ++
        [plain .storeFp, plain .loadTm, plain .loadRa]) ++ [plain .js] := by
    simp [Routine.epilogue]
  rw [split, onLine, List.map_append] at stands
  obtain ⟨before, jump⟩ := Code.at_append.mp stands
  obtain ⟨jump, _⟩ := Code.at_instr.mp jump
  have last := advances_js linked jump
    (c := { c with stack := back :: value :: rest, tm := value, ra := back, fp := control })
    rfl named
  exact ⟨_, (straight.goes before).tail last⟩

end

end ObjectLang.Machine
