import Mathlib.Data.List.Nodup
import Mathlib.Data.List.Perm.Basic
import Mathlib.Data.Option.Basic
import ObjectLang.Code.Builder
import ObjectLang.Proofs.Code.Assembly

/-!
Where a builder puts what is emitted. The operations of a builder, in any order and with bodies
opened and closed as they come, are read as a log: a list of everything that is emitted, in the order
of emission, with the line that was set and the body that was open last at the time. The code of the
builder is this log sorted by bodies: first the main code, then the closed bodies in the order in
which they were closed, then the bodies still open, the innermost first.
-/
namespace ObjectLang

namespace Builder

open Symbolic Sequence

inductive Phrase where
  | plain (op : Opcode) (bare : op.hasOperand = false)
  | push (w : Word)
  | pushLabel (l : Label)
  | branch (op : Opcode) (branches : op.isBranch = true) (l : Label)
  | loadOffset (offset : Word)
  | frameWalk (hops : Nat)
  | swap
  | heapStore
  | heapBump

def Phrase.code : Phrase → List Symbolic
  | .plain op _ => [Symbolic.plain op]
  | .push w => [Symbolic.push w]
  | .pushLabel l => [Symbolic.pushLabel l]
  | .branch op _ l => [Symbolic.branch op l]
  | .loadOffset offset => Sequence.loadOffset offset
  | .frameWalk hops => Sequence.frameWalk hops
  | .swap => Sequence.swap
  | .heapStore => Sequence.heapStore
  | .heapBump => Sequence.heapBump

/-- The operations of a builder. The target of a call is computed by any operations. -/
inductive Operation where
  | emit (phrase : Phrase)
  | callThrough (target : List Operation)
  | setLine (line : Line)
  | fresh
  | mark (l : Label)
  | openBody
  | closeBody

mutual

def apply (b : Builder) : Operation → Builder
  | .emit phrase => b.emit phrase.code
  | .callThrough target => (applyAll (b.emit callStart) target).emit [Symbolic.plain .js]
  | .setLine line => b.setLine line
  | .fresh => b.fresh.2
  | .mark l => b.mark l
  | .openBody => b.openBody
  | .closeBody => b.closeBody

def applyAll (b : Builder) : List Operation → Builder
  | [] => b
  | op :: ops => applyAll (apply b op) ops

end

inductive Event where
  | instr (i : Symbolic)
  | mark (l : Label)
  | line (line : Line)
  | opens
  | closes
  deriving DecidableEq

def Event.emits : Event → Bool
  | .instr _ | .mark _ => true
  | _ => false

def Event.ofItem : Item → Event
  | .instr i _ => .instr i
  | .mark l => .mark l

mutual

def events : Operation → List Event
  | .emit phrase => phrase.code.map .instr
  | .callThrough target =>
    callStart.map .instr ++ allEvents target ++ [.instr (Symbolic.plain .js)]
  | .setLine line => [.line line]
  | .fresh => []
  | .mark l => [.mark l]
  | .openBody => [.opens]
  | .closeBody => [.closes]

def allEvents : List Operation → List Event
  | [] => []
  | op :: ops => events op ++ allEvents ops

end

/-- Bodies are numbered in the order in which they are opened. -/
structure Log where
  line : Line := 0
  bodies : Nat := 0
  opened : List Nat := []
  closed : List Nat := []
  /-- All that is emitted, each with the body it belongs to, or `none` for the main code. -/
  items : List (Option Nat × Item) := []

namespace Log

def add (log : Log) (item : Item) : Log :=
  { log with items := log.items ++ [(log.opened.head?, item)] }

def record (log : Log) : Event → Log
  | .instr i => log.add (.instr i log.line)
  | .mark l => log.add (.mark l)
  | .line line => { log with line }
  | .opens => { log with bodies := log.bodies + 1, opened := log.bodies :: log.opened }
  | .closes =>
    match log.opened with
    | [] => log
    | body :: rest => { log with opened := rest, closed := log.closed ++ [body] }

def ofEvents (events : List Event) : Log := events.foldl record {}

def part (log : Log) (home : Option Nat) : Code :=
  log.items.filterMap fun entry => if entry.1 = home then some entry.2 else none

/-- The main code, then the closed bodies, then the bodies still open. -/
def homes (log : Log) : List (Option Nat) := none :: (log.closed ++ log.opened).map some

def code (log : Log) : Code := log.homes.flatMap log.part

structure Sound (log : Log) : Prop where
  distinct : (log.closed ++ log.opened).Nodup
  known : ∀ body ∈ log.closed ++ log.opened, body < log.bodies
  housed : ∀ entry ∈ log.items, entry.1 ∈ log.homes

structure Describes (log : Log) (b : Builder) : Prop where
  line : b.line = log.line
  main : b.main = log.part none
  opened : b.opened = log.opened.map fun body => log.part (some body)
  closed : b.closed = log.closed.map fun body => log.part (some body)

theorem sound_empty : Sound {} := ⟨List.nodup_nil, by simp, by simp⟩

theorem describes_empty : Describes {} {} := ⟨rfl, rfl, rfl, rfl⟩

variable {log : Log} {b : Builder}

theorem part_add (log : Log) (item : Item) (home : Option Nat) :
    (log.add item).part home =
      log.part home ++ if log.opened.head? = home then [item] else [] := by
  unfold part add
  split <;> simp [*]

theorem head_mem_homes (log : Log) : log.opened.head? ∈ log.homes := by
  unfold homes
  cases log.opened <;> simp

theorem Sound.add (sound : log.Sound) (item : Item) : (log.add item).Sound where
  distinct := sound.distinct
  known := sound.known
  housed entry listed := by
    rcases List.mem_append.mp listed with before | new
    · exact sound.housed entry before
    · rw [List.mem_singleton.mp new]
      exact head_mem_homes log

theorem Sound.opens (sound : log.Sound) : (log.record .opens).Sound where
  distinct := by
    apply List.nodup_middle.mpr
    apply List.nodup_cons.mpr
    refine ⟨?_, sound.distinct⟩
    intro listed
    exact Nat.lt_irrefl _ (sound.known _ listed)
  known body listed := by
    have place : body ∈ log.closed ++ log.bodies :: log.opened := listed
    show body < log.bodies + 1
    rw [List.mem_append, List.mem_cons] at place
    rcases place with closed | new | opened
    · exact Nat.lt_succ_of_lt (sound.known body (List.mem_append_left _ closed))
    · omega
    · exact Nat.lt_succ_of_lt (sound.known body (List.mem_append_right _ opened))
  housed entry listed := by
    have housed := sound.housed entry listed
    unfold homes at housed ⊢
    simp only [record, List.map_append, List.map_cons, List.mem_cons, List.mem_append] at housed ⊢
    rcases housed with main | closed | opened
    · exact .inl main
    · exact .inr (.inl closed)
    · exact .inr (.inr (.inr opened))

theorem Sound.part_next (sound : log.Sound) : log.part (some log.bodies) = [] := by
  rw [part, List.filterMap_eq_nil_iff]
  intro entry listed
  rw [if_neg]
  intro same
  have housed := sound.housed entry listed
  rw [same, homes, List.mem_cons, List.mem_map] at housed
  rcases housed with main | ⟨body, known, number⟩
  · cases main
  · cases number
    exact Nat.lt_irrefl _ (sound.known _ known)

theorem Sound.closes (sound : log.Sound) : (log.record .closes).Sound := by
  unfold record
  cases opened : log.opened with
  | nil => exact sound
  | cons body rest =>
    -- The body moves from the front of one list to the end of the other.
    have same : log.closed ++ [body] ++ rest = log.closed ++ log.opened := by simp [opened]
    constructor
    · simpa only [same] using sound.distinct
    · simpa only [same] using sound.known
    · simpa only [homes, same] using sound.housed

theorem Sound.record (sound : log.Sound) (event : Event) : (log.record event).Sound := by
  cases event with
  | instr i => exact sound.add _
  | mark l => exact sound.add _
  | line line => exact ⟨sound.distinct, sound.known, sound.housed⟩
  | opens => exact sound.opens
  | closes => exact sound.closes

theorem map_part_add (log : Log) (item : Item) {bodies : List Nat}
    (outer : ∀ body ∈ bodies, log.opened.head? ≠ some body) :
    (bodies.map fun body => (log.add item).part (some body)) =
      bodies.map fun body => log.part (some body) := by
  apply List.map_congr_left
  intro body listed
  rw [part_add, if_neg (outer body listed), List.append_nil]

theorem Sound.head_ne_closed (sound : log.Sound) :
    ∀ body ∈ log.closed, log.opened.head? ≠ some body := by
  intro body listed first
  have opened : body ∈ log.opened := List.mem_of_mem_head? first
  exact (List.nodup_append.mp sound.distinct).2.2 body listed body opened rfl

theorem Describes.add (describes : log.Describes b) (sound : log.Sound) (item : Item) :
    (log.add item).Describes (b.append [item]) := by
  have closed : b.closed = log.closed.map fun body => (log.add item).part (some body) := by
    rw [map_part_add log item sound.head_ne_closed]
    exact describes.closed
  have opened := describes.opened
  unfold append
  cases innermost : log.opened with
  | nil =>
    rw [innermost, List.map_nil] at opened
    simp only [opened]
    refine ⟨describes.line, ?_, ?_, closed⟩
    · simp [part_add, innermost, describes.main]
    · show [] = log.opened.map _
      rw [innermost, List.map_nil]
  | cons body rest =>
    rw [innermost, List.map_cons] at opened
    simp only [opened]
    have outer : ∀ other ∈ rest, log.opened.head? ≠ some other := by
      have distinct := (List.nodup_append.mp sound.distinct).2.1
      rw [innermost, List.nodup_cons] at distinct
      intro other listed first
      rw [innermost, List.head?_cons, Option.some.injEq] at first
      exact distinct.1 (first ▸ listed)
    refine ⟨describes.line, ?_, ?_, closed⟩
    · simp [part_add, innermost, describes.main]
    · show _ = log.opened.map _
      rw [innermost, List.map_cons, map_part_add log item outer, part_add, innermost]
      simp

theorem Describes.opens (describes : log.Describes b) (sound : log.Sound) :
    (log.record .opens).Describes b.openBody where
  line := describes.line
  main := describes.main
  closed := describes.closed
  opened := by
    show [] :: b.opened = log.part (some log.bodies) :: log.opened.map _
    rw [sound.part_next, describes.opened]
    rfl

theorem Describes.closes (describes : log.Describes b) :
    (log.record .closes).Describes b.closeBody := by
  have opened := describes.opened
  unfold record closeBody
  cases innermost : log.opened with
  | nil =>
    rw [innermost, List.map_nil] at opened
    simp only [opened]
    exact describes
  | cons body rest =>
    rw [innermost, List.map_cons] at opened
    simp only [opened]
    refine ⟨describes.line, describes.main, rfl, ?_⟩
    show b.closed ++ _ = List.map _ (log.closed ++ [body])
    rw [List.map_append, describes.closed]
    rfl

theorem sound_foldl (sound : log.Sound) (events : List Event) : (events.foldl record log).Sound := by
  induction events generalizing log with
  | nil => exact sound
  | cons event events ih => exact ih (sound.record event)

theorem Describes.emit (describes : log.Describes b) (sound : log.Sound) (code : List Symbolic) :
    ((code.map .instr).foldl record log).Describes (b.emit code) := by
  induction code generalizing log b with
  | nil =>
    have same : b.emit [] = b := by
      unfold Builder.emit append
      cases opened : b.opened <;> simp [onLine, ← opened]
    rw [same]
    exact describes
  | cons i code ih =>
    have split : b.emit (i :: code) = (b.append [.instr i b.line]).emit code := by
      unfold Builder.emit append
      cases opened : b.opened <;> simp [onLine]
    have step := describes.add sound (.instr i log.line)
    rw [split, describes.line]
    exact ih step (sound.add _)

mutual

theorem describes_apply {log : Log} {b : Builder} (describes : log.Describes b)
    (sound : log.Sound) (op : Operation) :
    ((events op).foldl record log).Describes (apply b op) := by
  cases op with
  | emit phrase => exact describes.emit sound phrase.code
  | callThrough target =>
    have first := describes.emit sound callStart
    have second := describes_applyAll first (sound_foldl sound _) target
    have last := second.emit (sound_foldl (sound_foldl sound _) _) [Symbolic.plain .js]
    rw [events, List.foldl_append, List.foldl_append, apply]
    exact last
  | setLine line => exact ⟨rfl, describes.main, describes.opened, describes.closed⟩
  | fresh => exact ⟨describes.line, describes.main, describes.opened, describes.closed⟩
  | mark l => exact describes.add sound (.mark l)
  | openBody => exact describes.opens sound
  | closeBody => exact describes.closes

theorem describes_applyAll {log : Log} {b : Builder} (describes : log.Describes b)
    (sound : log.Sound) (ops : List Operation) :
    ((allEvents ops).foldl record log).Describes (applyAll b ops) := by
  cases ops with
  | nil => exact describes
  | cons op ops =>
    rw [allEvents, List.foldl_append, applyAll]
    exact describes_applyAll (describes_apply describes sound op) (sound_foldl sound _) ops

end

theorem Describes.code (describes : log.Describes b) : b.code = log.code := by
  unfold Builder.code Log.code homes
  rw [describes.main, describes.closed, describes.opened]
  simp [List.flatMap_def, Function.comp_def]

/-! What is laid out is what was emitted. -/

def emitted (log : Log) : Code := log.items.map Prod.snd

theorem flatMap_place {homes : List (Option Nat)} (distinct : homes.Nodup) {place : Option Nat}
    (known : place ∈ homes) (item : Item) :
    (homes.flatMap fun home => if place = home then [item] else []) = [item] := by
  obtain ⟨before, after, rfl⟩ := List.append_of_mem known
  have apart := (List.nodup_cons.mp (List.nodup_middle.mp distinct)).1
  rw [List.mem_append, not_or] at apart
  have others (places : List (Option Nat)) (absent : place ∉ places) :
      (places.flatMap fun home => if place = home then [item] else []) = [] := by
    rw [List.flatMap_eq_nil_iff]
    intro home listed
    rw [if_neg]
    intro same
    exact absent (same ▸ listed)
  rw [List.flatMap_append, List.flatMap_cons, others before apart.1, others after apart.2]
  simp

/-- Sorting items by places loses none of them and repeats none. -/
theorem flatMap_parts_perm {homes : List (Option Nat)} (distinct : homes.Nodup)
    (items : List (Option Nat × Item)) (housed : ∀ entry ∈ items, entry.1 ∈ homes) :
    (homes.flatMap fun home =>
      items.filterMap fun entry => if entry.1 = home then some entry.2 else none).Perm
      (items.map Prod.snd) := by
  induction items with
  | nil => simp
  | cons entry items ih =>
    have known := housed entry List.mem_cons_self
    have rest := ih fun entry mem => housed entry (List.mem_cons_of_mem _ mem)
    have split : (homes.flatMap fun home => (entry :: items).filterMap fun entry =>
        if entry.1 = home then some entry.2 else none) =
        homes.flatMap fun home => (if entry.1 = home then [entry.2] else []) ++
          items.filterMap fun entry => if entry.1 = home then some entry.2 else none := by
      congr
      funext home
      by_cases here : entry.1 = home <;> simp [here]
    rw [split]
    apply (List.flatMap_append_perm homes _ _).symm.trans
    rw [flatMap_place distinct known]
    exact rest.cons _

theorem Sound.code_perm (sound : log.Sound) : log.code.Perm log.emitted := by
  apply flatMap_parts_perm _ log.items sound.housed
  rw [homes, List.nodup_cons]
  refine ⟨by simp, ?_⟩
  exact sound.distinct.map (Option.some_injective _)

theorem map_emitted_record (log : Log) (event : Event) :
    (log.record event).emitted.map Event.ofItem =
      log.emitted.map Event.ofItem ++ [event].filter Event.emits := by
  cases event with
  | instr i => simp [record, add, emitted, Event.ofItem, List.filter, Event.emits]
  | mark l => simp [record, add, emitted, Event.ofItem, List.filter, Event.emits]
  | line line => simp [record, emitted, Event.emits]
  | opens => simp [record, emitted, Event.emits]
  | closes => cases opened : log.opened <;> simp [record, emitted, Event.emits, opened]

theorem map_emitted_foldl (log : Log) (events : List Event) :
    (events.foldl record log).emitted.map Event.ofItem =
      log.emitted.map Event.ofItem ++ events.filter Event.emits := by
  induction events generalizing log with
  | nil => simp
  | cons event events ih =>
    rw [List.foldl_cons, ih, map_emitted_record, List.append_assoc, ← List.filter_append]
    rfl

theorem map_code_perm (events : List Event) :
    ((ofEvents events).code.map Event.ofItem).Perm (events.filter Event.emits) := by
  have sound : (ofEvents events).Sound := sound_foldl sound_empty events
  have emitted : (ofEvents events).emitted.map Event.ofItem = events.filter Event.emits :=
    map_emitted_foldl {} events
  rw [← emitted]
  exact sound.code_perm.map _

theorem mem_events_iff {events : List Event} {event : Event} (emits : event.emits = true) :
    event ∈ events ↔ ∃ item ∈ (ofEvents events).code, Event.ofItem item = event := by
  rw [← List.mem_map, (map_code_perm events).mem_iff, List.mem_filter, and_iff_left emits]

theorem mark_mem_events_iff {events : List Event} {l : Label} :
    .mark l ∈ events ↔ l ∈ (ofEvents events).code.marks := by
  rw [mem_events_iff rfl, Code.marks, List.mem_filterMap]
  constructor
  · rintro ⟨item, listed, same⟩
    cases item <;> cases same
    exact ⟨_, listed, rfl⟩
  · rintro ⟨item, listed, same⟩
    cases item <;> cases same
    exact ⟨_, listed, rfl⟩

theorem instr_mem_events_iff {events : List Event} {i : Symbolic} :
    .instr i ∈ events ↔ ∃ entry ∈ (ofEvents events).code.entries, entry.1 = i := by
  rw [mem_events_iff rfl, Code.entries]
  constructor
  · rintro ⟨item, listed, same⟩
    cases item <;> cases same
    exact ⟨_, List.mem_filterMap.mpr ⟨_, listed, rfl⟩, rfl⟩
  · rintro ⟨entry, listed, rfl⟩
    obtain ⟨item, mem, same⟩ := List.mem_filterMap.mp listed
    cases item <;> cases same
    exact ⟨_, mem, rfl⟩

end Log

theorem Phrase.formed_code (phrase : Phrase) : ∀ i ∈ phrase.code, i.formed = true := by
  cases phrase with
  | plain op bare => simp [code, bare]
  | push w => simp [code]
  | pushLabel l => simp [code]
  | branch op branches l => simp [code, Opcode.hasOperand, branches]
  | loadOffset offset => exact fun i mem => (Unlabelled.loadOffset offset i mem).1
  | frameWalk hops => simp [code, Sequence.frameWalk, Opcode.hasOperand, Opcode.isBranch]
  | swap => simp [code, Sequence.swap, Opcode.hasOperand, Opcode.isBranch]
  | heapStore => exact fun i mem => (Unlabelled.heapStore i mem).1
  | heapBump => exact fun i mem => (Unlabelled.heapBump i mem).1

mutual

theorem formed_events (op : Operation) : ∀ i, .instr i ∈ events op → i.formed = true := by
  intro i listed
  cases op with
  | emit phrase =>
    obtain ⟨_, mem, same⟩ := List.mem_map.mp listed
    cases same
    exact phrase.formed_code i mem
  | callThrough target =>
    rw [events, List.mem_append, List.mem_append] at listed
    rcases listed with (first | inner) | last
    · obtain ⟨_, mem, same⟩ := List.mem_map.mp first
      cases same
      simp only [callStart, List.mem_cons, List.not_mem_nil, or_false] at mem
      rcases mem with rfl | rfl | rfl <;> rfl
    · exact formed_allEvents target i inner
    · cases List.mem_singleton.mp last
      rfl
  | setLine line => simp [events] at listed
  | fresh => simp [events] at listed
  | mark l => simp [events] at listed
  | openBody => simp [events] at listed
  | closeBody => simp [events] at listed

theorem formed_allEvents (ops : List Operation) :
    ∀ i, .instr i ∈ allEvents ops → i.formed = true := by
  intro i listed
  cases ops with
  | nil => simp [allEvents] at listed
  | cons op ops =>
    rw [allEvents, List.mem_append] at listed
    rcases listed with first | rest
    · exact formed_events op i first
    · exact formed_allEvents ops i rest

end

def log (ops : List Operation) : Log := .ofEvents (allEvents ops)

theorem finish_eq_layout (ops : List Operation) :
    (applyAll {} ops).finish = (log ops).code.layout := by
  rw [finish, (Log.describes_applyAll Log.describes_empty Log.sound_empty ops).code]
  rfl

theorem formed_code (ops : List Operation) : ∀ item ∈ (log ops).code, item.formed = true := by
  intro item listed
  cases item with
  | mark l => rfl
  | instr i line =>
    apply formed_allEvents ops
    exact (Log.mem_events_iff rfl).mpr ⟨_, listed, rfl⟩

theorem exists_unbound_iff (ops : List Operation) :
    (∃ i l, .instr i ∈ allEvents ops ∧ i.label? = some l ∧ .mark l ∉ allEvents ops) ↔
      ∃ l ∈ (log ops).code.refs, l ∉ (log ops).code.marks := by
  simp only [Log.instr_mem_events_iff, Log.mark_mem_events_iff, Code.mem_refs]
  constructor
  · rintro ⟨_, l, ⟨entry, listed, rfl⟩, names, unmarked⟩
    exact ⟨l, ⟨entry, listed, names⟩, unmarked⟩
  · rintro ⟨l, ⟨entry, listed, names⟩, unmarked⟩
    exact ⟨entry.1, l, ⟨entry, listed, rfl⟩, names, unmarked⟩

/-- The layout puts all that was emitted in order. Finishing a builder fails exactly if an
instruction was emitted for a label that was never marked, and names the first such label in the
order of the layout. Otherwise the words are those of the instructions in this order, each at the
sum of the widths before it, with the address of what follows the first mark for a label; and each
word has the line that was set when its instruction was emitted. -/
theorem finish_assembles (ops : List Operation) (small : (log ops).code.width < Word.limit) :
    ((log ops).code.map Event.ofItem).Perm ((allEvents ops).filter Event.emits) ∧
    ((∃ e, (applyAll {} ops).finish = .error e) ↔
      ∃ i l, .instr i ∈ allEvents ops ∧ i.label? = some l ∧ .mark l ∉ allEvents ops) ∧
    (∀ e, (applyAll {} ops).finish = .error e ↔
      ∃ l, (log ops).code.refs.find? (fun l => .mark l ∉ allEvents ops) = some l ∧
        e = .unboundLabel l) ∧
    ∀ image, (applyAll {} ops).finish = .ok image →
      image.instructions = .ok (Instr.numbered 0
        ((log ops).code.entries.map fun entry => entry.1.assembled (log ops).code.target?)) ∧
      (∀ l ∈ (log ops).code.refs, ∃ address, (log ops).code.target? l = some address ∧
        (Int32.ofNat address).toInt = address) ∧
      image.lines =
        (log ops).code.entries.flatMap fun entry => List.replicate entry.1.op.width entry.2 := by
  rw [finish_eq_layout, exists_unbound_iff]
  refine ⟨Log.map_code_perm _, Code.exists_layout_eq_error, ?_, ?_⟩
  · intro e
    simp only [Log.mark_mem_events_iff]
    exact Code.layout_eq_error
  · intro image done
    have formed := formed_code ops
    have marked := (Code.layout_eq_ok.mp done).1
    refine ⟨Code.instructions_of_layout_eq_ok formed done, ?_, Code.lines_of_layout_eq_ok formed done⟩
    intro l named
    obtain ⟨address, found, bound⟩ := Code.target?_lt (marked l named) small
    exact ⟨address, found, Int32.toInt_ofNat_of_lt bound⟩

/-- Two bodies, one in the other, the outer one left open. Its label is marked again later, and the
label of the inner one is used outside of it. -/
def nestedBodies : List Operation :=
  [.setLine 1, .emit (.pushLabel ⟨0⟩), .openBody, .setLine 2, .mark ⟨0⟩, .emit (.plain .add rfl),
    .openBody, .mark ⟨1⟩, .setLine 3, .emit (.plain .halt rfl), .closeBody,
    .emit (.branch .branch rfl ⟨1⟩), .mark ⟨0⟩]

theorem finish_assembles_nestedBodies :
    (log nestedBodies).code.width < Word.limit ∧
      ∃ image, (applyAll {} nestedBodies).finish = .ok image ∧
        image.instructions = .ok [(0, ⟨.push, some 3⟩), (2, ⟨.halt, none⟩), (3, ⟨.add, none⟩),
          (4, ⟨.branch, some 2⟩)] ∧
        image.lines = [1, 1, 3, 2, 3, 3] := by
  have small : (log nestedBodies).code.width < Word.limit := by decide
  obtain ⟨_, _, _, done⟩ := finish_assembles nestedBodies small
  obtain ⟨read, _, lines⟩ := done _ rfl
  exact ⟨small, _, rfl, read, lines⟩

end Builder

end ObjectLang
