import Mathlib.Data.List.Forall2
import ObjectLang.Proofs.Code.Stretches
import ObjectLang.Proofs.Sites

/-!
Segments of generated code: the main code of a program, then the body of every function and method.
Each opens with fixed code, goes on with its declarations and its result, each one word higher than
what comes before it, and closes with fixed code.
-/
namespace ObjectLang

open Symbolic Lower

namespace Decl

variable (g : Word) (labels : Labels)

/-- The rows `R` are the code `c` that the declaration runs in place, from station `p` on and with
station `q` after them. They raise the stack by one word along every way through them and sink
nowhere below `p`; only the initial value of a variable calls anything. -/
structure Stands (d : Decl) (c : Code) (p : Station) (R : List Row) (q : Station) : Prop where
  lowered : ∃ s f t, Yields (d.code g) s f t ∧ f.inline = c
  piece : Piece labels (Row.stations R q) (Row.Inner p.height) c p q R
  rises : q.height = p.height + 1
  inner : match d with
    | .var decl => decl.init.Stands g labels c p R q
    | .fn _ | .cls _ => ∀ r ∈ R, r.instr.op ≠ .js

inductive AllStand : List Decl → Code → Station → List Row → Station → Prop
  | nil {p} : AllStand [] [] p [] p
  | cons {d ds c cs p R q S r} (head : Stands g labels d c p R q) (tail : AllStand ds cs q S r) :
      AllStand (d :: ds) (c ++ cs) p (R ++ S) r

variable {g labels} {words : Array Word} {s t : Supply} {f : Fragment} {p q : Station}
  {R : List Row} {ds : List Decl}

theorem stands_straight {d : Decl} {line : Line} {code : List Symbolic} {bodies : List Code}
    (lowered : Yields (d.code g) s ⟨onLine line code, bodies⟩ t) (noVar : ∀ decl, d ≠ .var decl)
    (straight : Straight p.height p.height code) (effect : effects code = 1) :
    d.Stands g labels (onLine line code) p (Row.run labels p code) (p.past code) := by
  have piece : Piece labels (Row.stations (Row.run labels p code) (p.past code))
      (Row.Own p.height) (onLine line code) p (p.past code) (Row.run labels p code) :=
    .straight straight line
  refine ⟨⟨s, _, t, lowered, rfl⟩, piece.weaken fun _ own => own.1, ?_, ?_⟩
  · rw [Station.height_past, effect]
  · cases d with
    | var decl => exact absurd rfl (noVar decl)
    | fn r => exact fun r mem => (piece.each r mem).2
    | cls c => exact fun r mem => (piece.each r mem).2

/-- The code of every declaration stands, wherever it is placed and however high the stack is. -/
theorem stands (d : Decl) (lowered : Yields (d.code g) s f t) (p : Station)
    (placed : Code.At words labels p.address f.inline) :
    ∃ R q, d.Stands g labels f.inline p R q := by
  cases d with
  | var decl =>
    obtain ⟨c, init, rfl⟩ := yields_var.mp lowered
    obtain ⟨R, q, stands⟩ := decl.init.stands init p placed
    exact ⟨R, q, ⟨s, _, t, lowered, rfl⟩, stands.piece, stands.rises, stands⟩
  | fn r =>
    obtain ⟨bodies, _, rfl⟩ := yields_fn.mp lowered
    exact ⟨_, _, stands_straight lowered nofun ⟨Int.le_refl _, rfl, trivial⟩ rfl⟩
  | cls c =>
    obtain ⟨bodies, _, rfl⟩ := yields_cls.mp lowered
    exact ⟨_, _, stands_straight lowered nofun (Sequence.straight_tableCode (Int.le_refl _) _)
      (Sequence.effects_tableCode _)⟩

theorem allStand {ds : List Decl} (lowered : Yields (allCode g ds) s f t) (p : Station)
    (placed : Code.At words labels p.address f.inline) :
    ∃ R q, AllStand g labels ds f.inline p R q := by
  induction ds generalizing s f p with
  | nil =>
    obtain ⟨rfl, rfl⟩ := yields_allCode_nil.mp lowered
    exact ⟨[], p, .nil⟩
  | cons d ds ih =>
    obtain ⟨head, tail, u, one, others, rfl⟩ := yields_allCode_cons.mp lowered
    rw [Code.at_append] at placed
    obtain ⟨R, q, first⟩ := d.stands one p placed.1
    rw [← first.piece.address] at placed
    obtain ⟨S, r, rest⟩ := ih others q placed.2
    exact ⟨R ++ S, r, .cons first rest⟩

variable {c : Code}

theorem AllStand.height (all : AllStand g labels ds c p R q) : q.height = p.height + ds.length := by
  induction all with
  | nil => simp
  | cons head tail ih =>
    rw [ih, head.rises, List.length_cons]
    omega

theorem AllStand.piece (all : AllStand g labels ds c p R q) :
    Piece labels (Row.stations R q) (Row.Inner p.height) c p q R := by
  induction all with
  | nil => exact .nil
  | cons head tail ih =>
    refine head.piece.join (ih.weaken fun _ inner => inner.mono ?_)
    have rises := head.rises
    omega

end Decl

/-- The rows of a segment at an address. They are the opening from height 0 on, the declarations,
the result, and the closing, which starts two words above the declarations. -/
inductive Segment (g : Word) (labels : Labels) (opening closing : List Symbolic) (ds : List Decl)
    (result : Expr) (address : Nat) : List Row → Prop
  | intro {c d D E p q}
      (decls : Decl.AllStand g labels ds c (Station.past ⟨address, 0⟩ opening) D p)
      (computes : result.Stands g labels d p E q) (height : q.height = ds.length + 2) :
      Segment g labels opening closing ds result address
        (Row.run labels ⟨address, 0⟩ opening ++ D ++ E ++ Row.run labels q closing)

namespace Segment

variable {g : Word} {words : Array Word} {labels : Labels} {opening closing : List Symbolic}
  {ds : List Decl} {result : Expr} {address : Nat} {seg : List Row}

theorem exists_of_lowered {s t u : Supply} {f : Fragment} {c : Code} {first last : Line}
    (effect : effects opening = 1) (decls : Yields (Decl.allCode g ds) s f u)
    (body : Yields (result.code g) u c t)
    (placed : Code.At words labels address
      (onLine first opening ++ f.inline ++ c ++ onLine last closing)) :
    ∃ seg, Segment g labels opening closing ds result address seg ∧
      seg.map Row.entry = Code.listing labels address
        (onLine first opening ++ f.inline ++ c ++ onLine last closing) := by
  simp only [Code.at_append, Code.width_append] at placed
  obtain ⟨⟨⟨_, atDecls⟩, atBody⟩, _⟩ := placed
  rw [← Station.address_past ⟨address, 0⟩] at atDecls
  obtain ⟨D, p, all⟩ := Decl.allStand decls _ atDecls
  have afterOpening := Station.address_past ⟨address, 0⟩ first opening
  have afterDecls := all.piece.address
  rw [← Nat.add_assoc, ← afterOpening, ← afterDecls] at atBody
  obtain ⟨E, q, stands⟩ := result.stands body p atBody
  have afterBody := stands.piece.address
  refine ⟨_, .intro all stands ?_, ?_⟩
  · rw [stands.rises, all.height, Station.height_past, effect]
    simp only
    omega
  · simp only [List.map_append, Code.listing_append, Row.entries_run labels _ first opening,
      Row.entries_run labels _ last closing, all.piece.shown, stands.piece.shown, Code.width_append,
      ← Nat.add_assoc, ← afterOpening, ← afterDecls, ← afterBody]

theorem flows (segment : Segment g labels opening closing ds result address seg)
    (openBare : ∀ i ∈ opening, i.op.isBranch = false)
    (closeBare : ∀ i ∈ closing, i.op.isBranch = false) (closes : closing ≠ []) :
    ∃ q, Row.Flows (seg.map Row.toStation) q seg ∧ Row.first q seg = ⟨address, 0⟩ := by
  cases segment with
  | @intro c d D E p q decls computes height =>
    have last := Row.first_run labels q closing
    have some : Row.run labels q closing ≠ [] := by
      cases closing with
      | nil => exact absurd rfl closes
      | cons i closing => exact List.cons_ne_nil _ _
    refine ⟨q.past closing, ?_, ?_⟩
    · have rows : ∀ r ∈ D ++ E, r.toStation ∈ (Row.run labels ⟨address, 0⟩ opening ++ D ++ E ++
          Row.run labels q closing).map Row.toStation := by
        intro r mem
        refine List.mem_map_of_mem ?_
        simp only [List.mem_append] at mem ⊢
        rcases mem with mem | mem
        · exact .inl (.inl (.inr mem))
        · exact .inl (.inr mem)
      -- Each part comes out at the first row of what follows it.
      have toClosing : q ∈ (Row.run labels ⟨address, 0⟩ opening ++ D ++ E ++
          Row.run labels q closing).map Row.toStation := by
        rw [List.map_append]
        refine List.mem_append_right _ ?_
        have first := Row.first_mem_map some (q.past closing)
        rwa [last] at first
      have toResult : p ∈ (Row.run labels ⟨address, 0⟩ opening ++ D ++ E ++
          Row.run labels q closing).map Row.toStation := by
        rw [← computes.piece.start]
        cases E with
        | nil => exact toClosing
        | cons r E => exact rows r (List.mem_append_right _ List.mem_cons_self)
      refine Row.Flows.append (Row.Flows.append (Row.Flows.append ?_ ?_) ?_)
        (Row.flows_run closeBare)
      · rw [last, computes.piece.start, decls.piece.start]
        exact Row.flows_run openBare
      · rw [last, computes.piece.start]
        exact decls.piece.flows.mono (Row.stations_subset
          (fun r mem => rows r (List.mem_append_left _ mem)) toResult)
      · rw [last]
        exact computes.piece.flows.mono (Row.stations_subset
          (fun r mem => rows r (List.mem_append_right _ mem)) toClosing)
    · rw [Row.first_append, Row.first_append, Row.first_append, last, computes.piece.start,
        decls.piece.start, Row.first_run]

end Segment

def Routine.Realized (g : Word) (labels : Labels) (r : Routine) (seg : List Row) : Prop :=
  ∃ address, Segment g labels Routine.prologue
    (Routine.epilogue r.params.length r.locals.length) r.locals r.body address seg

namespace Routine

theorem bare_prologue : ∀ i ∈ prologue, i.op.isBranch = false := by decide

theorem mem_epilogue {params locals : Nat} {i : Symbolic} (mem : i ∈ epilogue params locals) :
    i.op ∈ [.storeTm, .pop, .storeRa, .storeFp, .loadTm, .loadRa, .js] := by
  simp only [epilogue, List.mem_append, List.mem_cons, List.mem_replicate, List.not_mem_nil,
    or_false] at mem
  rcases mem with (((rfl | ⟨_, rfl⟩) | rfl | rfl) | ⟨_, rfl⟩) | rfl | rfl | rfl | rfl <;>
    simp [plain]

theorem bare_epilogue (params locals : Nat) :
    ∀ i ∈ epilogue params locals, i.op.isBranch = false := by
  intro i mem
  have bare : ∀ op ∈ [.storeTm, .pop, .storeRa, .storeFp, .loadTm, .loadRa, .js],
      Opcode.isBranch op = false := by decide
  exact bare i.op (mem_epilogue mem)

theorem Realized.of_mem {g : Word} {labels : Labels} {seg : List Row} {rs : List Routine}
    {segs : List (List Row)} (all : List.Forall₂ (Realized g labels) rs segs)
    (mem : seg ∈ segs) :
    ∃ r : Routine, r.Realized g labels seg := by
  induction all with
  | nil => cases mem
  | cons head _ ih =>
    rcases List.mem_cons.mp mem with rfl | mem
    · exact ⟨_, head⟩
    · exact ih mem

end Routine

namespace Decl

variable {g : Word} {words : Array Word} {labels : Labels}

def Realizes (g : Word) (labels : Labels) (address : Nat) (rs : List Routine)
    (bodies : List Code) : Prop :=
  ∃ segs, List.Forall₂ (Routine.Realized g labels) rs segs ∧
    segs.map (List.map Row.entry) = Code.listings labels address bodies

theorem realizes_nil (address : Nat) : Realizes g labels address [] [] := ⟨[], .nil, rfl⟩

theorem Realizes.append {address : Nat} {rs rs' : List Routine} {bodies bodies' : List Code}
    (one : Realizes g labels address rs bodies)
    (two : Realizes g labels (address + Code.width bodies.flatten) rs' bodies') :
    Realizes g labels address (rs ++ rs') (bodies ++ bodies') := by
  obtain ⟨segs, realized, shown⟩ := one
  obtain ⟨segs', realized', shown'⟩ := two
  refine ⟨segs ++ segs', List.rel_append realized realized', ?_⟩
  rw [List.map_append, shown, shown', Code.listings_append]

theorem realizes_own {address : Nat} {entry : Label} {r : Routine} {inner : Fragment}
    {result : Code} {s t u : Supply} (decls : Yields (allCode g r.locals) s inner u)
    (body : Yields (r.body.code g) u result t)
    (placed : Code.At words labels address (routineItems entry r inner.inline result)) :
    Realizes g labels address [r] [routineItems entry r inner.inline result] := by
  have items : routineItems entry r inner.inline result =
      .mark entry :: (onLine r.line Routine.prologue ++ inner.inline ++ result ++
        onLine r.body.endLine (Routine.epilogue r.params.length r.locals.length)) := by
    simp [routineItems]
  rw [items] at placed ⊢
  obtain ⟨seg, segment, shown⟩ := Segment.exists_of_lowered rfl decls body placed.2
  exact ⟨[seg], .cons ⟨address, segment⟩ .nil, by simp [Code.listings, shown]⟩

mutual

theorem realized : (d : Decl) → ∀ {s t : Supply} {f : Fragment}, Yields (d.code g) s f t →
    ∀ address, Code.At words labels address f.bodies.flatten →
      Realizes g labels address d.routines f.bodies
  | .var decl => by
    intro lowered address _
    obtain ⟨c, _, rfl⟩ := yields_var.mp lowered
    exact realizes_nil address
  | .fn routine => by
    intro lowered address placed
    obtain ⟨bodies, inner, rfl⟩ := yields_fn.mp lowered
    exact realizedRoutine routine inner address placed
  | .cls ⟨line, name, parent, fields, methods, binding, parentBinding⟩ => by
    intro lowered address placed
    obtain ⟨bodies, inner, rfl⟩ := yields_cls.mp lowered
    exact realizedMethods methods inner address placed

theorem realizedRoutine : (r : Routine) → ∀ {entry : Label} {s t : Supply} {bodies : List Code},
    Yields (routineCode g entry r) s bodies t →
    ∀ address, Code.At words labels address bodies.flatten →
      Realizes g labels address (nestedRoutines r) bodies
  | ⟨line, name, ret, params, locals, body⟩ => by
    intro lowered address placed
    obtain ⟨inner, result, u, first, second, rfl⟩ := yields_routineCode.mp lowered
    rw [List.flatten_append, List.flatten_singleton, Code.at_append] at placed
    exact (realizedAll locals first address placed.1).append (realizes_own first second placed.2)

theorem realizedMethods : (methods : List Method) →
    ∀ {first : Nat} {s t : Supply} {bodies : List Code},
    Yields (methodsCode g first methods) s bodies t →
    ∀ address, Code.At words labels address bodies.flatten →
      Realizes g labels address (methodRoutines methods) bodies
  | [] => by
    intro lowered address _
    obtain ⟨rfl, rfl⟩ := yields_methodsCode_nil.mp lowered
    exact realizes_nil address
  | ⟨routine, offset⟩ :: methods => by
    intro lowered address placed
    obtain ⟨head, tail, u, one, others, rfl⟩ := yields_methodsCode_cons.mp lowered
    rw [List.flatten_append, Code.at_append] at placed
    exact (realizedRoutine routine one address placed.1).append
      (realizedMethods methods others _ placed.2)

theorem realizedAll : (ds : List Decl) → ∀ {s t : Supply} {f : Fragment},
    Yields (allCode g ds) s f t →
    ∀ address, Code.At words labels address f.bodies.flatten →
      Realizes g labels address (allRoutines ds) f.bodies
  | [] => by
    intro lowered address _
    obtain ⟨rfl, rfl⟩ := yields_allCode_nil.mp lowered
    exact realizes_nil address
  | d :: ds => by
    intro lowered address placed
    obtain ⟨head, tail, u, one, others, rfl⟩ := yields_allCode_cons.mp lowered
    rw [List.flatten_append, Code.at_append] at placed
    exact (realized d one address placed.1).append (realizedAll ds others _ placed.2)

end

end Decl

namespace Program

variable {p : Program} {size : Nat} {image : Image}

def opening : List Symbolic := [push 0]

def closing : List Symbolic := [plain .halt]

theorem yields_of_lower (done : p.lower size = .ok image) :
    ∃ f t, Yields (p.code (Word.ofSize size)) {} f t ∧ Code.layout f.all = .ok image := by
  unfold lower at done
  cases run : (p.code (Word.ofSize size)).run {} with
  | error e =>
    rw [run] at done
    cases done
  | ok result =>
    rw [run] at done
    exact ⟨result.1, result.2, run, done⟩

theorem segmented {g : Word} {f : Fragment} {t : Supply} (lowered : Yields (p.code g) {} f t) :
    ∃ main bodies,
      main.map Row.entry = Code.listing f.labels 0 f.inline ∧
      bodies.map (List.map Row.entry) = Code.listings f.labels f.inline.width f.bodies ∧
      Segment g f.labels opening closing p.decls p.body 0 main ∧
      List.Forall₂ (Routine.Realized g f.labels) p.routines bodies := by
  obtain ⟨_, _, _, placed⟩ := layout_code lowered
  rw [← Fragment.labels] at placed
  generalize f.labels = labels at placed ⊢
  obtain ⟨decls, result, u, first, second, rfl⟩ := yields_code.mp lowered
  rw [Fragment.all, Code.at_append, Nat.zero_add] at placed
  obtain ⟨main, segment, shown⟩ := Segment.exists_of_lowered rfl first second placed.1
  obtain ⟨bodies, realized, shownBodies⟩ := Decl.realizedAll p.decls first _ placed.2
  exact ⟨main, bodies, shown, shownBodies, segment, realized⟩

theorem listed (done : p.lower size = .ok image) :
    ∃ f t, Yields (p.code (Word.ofSize size)) {} f t ∧ image.size = f.all.width ∧
      image.instructions = .ok (Code.listing f.labels 0 f.inline ++
        (Code.listings f.labels f.inline.width f.bodies).flatten) := by
  obtain ⟨f, t, lowered, laid⟩ := yields_of_lower done
  refine ⟨f, t, lowered, ?_, ?_⟩
  · obtain ⟨same, laid', long, _⟩ := layout_code lowered
    rw [laid, Except.ok.injEq] at laid'
    rw [laid', long]
  · have decoded := Code.instructions_of_layout (labelled_code lowered).formed laid
    rw [decoded, ← f.listing_all, Fragment.labels]

end Program

end ObjectLang
