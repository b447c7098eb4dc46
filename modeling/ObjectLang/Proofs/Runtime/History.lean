import ObjectLang.Proofs.Evaluation
import ObjectLang.Proofs.Scope.Bindings
import ObjectLang.Proofs.Scope.Stack

/-!
Histories of executions. What a point of a program sees is made up of the declarations executed
before it, the routines entered on the way and the objects whose methods they are. A history lists
these, the latest first, with the words they stand for at run time. It can be read as the context
in which the program was resolved and as the environment in which it is evaluated.
-/
namespace ObjectLang

namespace Scopes

variable {s : Scopes} {name other : String} {b found : Binding}

theorem lookup_declare (opened : s.tables ≠ []) (free : s.declaresHere name = false)
    (known : (s.declare name b).lookup other = some found) :
    other = name ∧ found = b ∨ other ≠ name ∧ s.lookup other = some found := by
  by_cases same : other = name
  · subst same
    rw [lookup_declare_self opened free, Option.some.injEq] at known
    exact .inl ⟨rfl, known.symm⟩
  · rw [lookup_declare_of_ne same] at known
    exact .inr ⟨same, known⟩

theorem level_enter (opened : s.tables ≠ []) (table : Table Binding) :
    (s.enter table).level = s.level + 1 := by
  have some := List.length_pos_iff.mpr opened
  simp only [level, tables_enter, List.length_cons]
  omega

end Scopes

inductive Event where
  | var (name : String) (ty : Ty) (value : Word)
  | fn (routine : Routine) (entry : Word)
  | cls (decl : ClassDecl) (table : Word)
  | enter (frame : Word)
  | param (param : Param) (offset value : Word)
  /-- The members of an object come into scope. -/
  | self (members : Table Binding) (receiver : Word)

def Event.after (ctx : Context) : Event → Context
  | .var name ty _ => ctx.declare name ty
  | .fn routine _ => ctx.declare routine.name (.arrow routine.signature)
  | .cls decl _ => ctx.declareClass decl
  | .enter _ => { ctx with scopes := ctx.scopes.enter {}, nextOffset := Context.firstOffset }
  | .param p offset _ =>
    { ctx with scopes := ctx.scopes.declare p.name ⟨ctx.scopes.level, p.ty, offset⟩ }
  | .self members _ => { ctx with scopes := ctx.scopes.enter members }

abbrev History := List Event

namespace History

def context : History → Context
  | [] => Context.initial
  | event :: H => event.after (context H)

/-- The declarations that evaluation sees. It gives no meaning to programs with classes, so it sees
nothing through a class. -/
def env : History → Env
  | [] => []
  | .var name _ value :: H => .value name value :: env H
  | .fn routine _ :: H => .routine routine :: env H
  | .param p _ value :: H => .value p.name value :: env H
  | .enter _ :: H => env H
  | .cls _ _ :: _ | .self _ _ :: _ => []

/-- The innermost frame or object; `base` is the frame of the program itself. -/
def frame (base : Word) : History → Word
  | [] => base
  | .enter frame :: _ => frame
  | .self _ receiver :: _ => receiver
  | _ :: H => frame base H

def bindParams (H : History) (offset : Word) : List Param → List Word → History
  | p :: params, value :: values =>
    bindParams (.param p offset value :: H) (offset + 1) params values
  | _, _ => H

def inRoutine (H : History) (frame : Word) (params : List Param) (values : List Word) : History :=
  bindParams (.enter frame :: H) 1 params values

variable {H : History} {params : List Param} {values : List Word} {offset : Word}

theorem context_bindParams (count : values.length = params.length) :
    (H.bindParams offset params values).context =
      { H.context with scopes := H.context.scopes.declareParams offset params } := by
  induction params generalizing H offset values with
  | nil =>
    cases values with
    | nil => rfl
    | cons => simp at count
  | cons p params ih =>
    cases values with
    | nil => simp at count
    | cons value values =>
      rw [bindParams, ih (by simpa using count)]
      rfl

theorem context_inRoutine {frame : Word} (count : values.length = params.length) :
    (H.inRoutine frame params values).context = H.context.inRoutine params := by
  rw [inRoutine, context_bindParams count]
  rfl

theorem env_bindParams :
    (H.bindParams offset params values).env = H.env.bindParams params values := by
  induction params generalizing H offset values with
  | nil => rfl
  | cons p params ih =>
    cases values with
    | nil => rfl
    | cons value values =>
      rw [bindParams, ih]
      rfl

theorem env_inRoutine {frame : Word} :
    (H.inRoutine frame params values).env = H.env.bindParams params values := by
  rw [inRoutine, env_bindParams]
  rfl

theorem frame_bindParams {base : Word} :
    (H.bindParams offset params values).frame base = H.frame base := by
  induction params generalizing H offset values with
  | nil => rfl
  | cons p params ih =>
    cases values with
    | nil => rfl
    | cons value values =>
      rw [bindParams, ih]
      rfl

theorem frame_inRoutine {base frame : Word} :
    (H.inRoutine frame params values).frame base = frame := by
  rw [inRoutine, frame_bindParams]
  rfl

theorem tables_ne_nil (H : History) : H.context.scopes.tables ≠ [] := by
  have declared (s : Scopes) (name : String) (b : Binding) (opened : s.tables ≠ []) :
      (s.declare name b).tables ≠ [] := by
    rw [← List.length_pos_iff] at opened ⊢
    rwa [Scopes.length_declare]
  induction H with
  | nil => simp [context, Context.initial]
  | cons event H ih =>
    cases event with
    | enter | self => simp [context, Event.after]
    | var | fn | cls | param => exact declared _ _ _ ih

theorem frame_of_level {base : Word} (H : History) (global : H.context.scopes.level = 0) :
    H.frame base = base := by
  induction H with
  | nil => rfl
  | cons event H ih =>
    cases event with
    | enter | self =>
      rw [context, Event.after, Scopes.level_enter (tables_ne_nil H)] at global
      cases global
    | var | fn | cls | param =>
      rw [context, Event.after] at global
      exact ih (Scopes.level_declare.symm.trans global)

theorem level_member (H : History) {c : ClassDecl} :
    (H.context.members c).table.Every fun b => b.level = Members.level := by
  have inherited : ∀ name table, H.context.classes.find? name = some table →
      table.Every fun b => b.level = Members.level := by
    induction H with
    | nil =>
      intro name table found
      cases found
    | cons event H ih =>
      cases event with
      | var | fn | enter | param | self => exact ih
      | cls c t =>
        intro name table found
        rcases Context.find?_declareClass found with old | ⟨_, rfl⟩
        · exact ih name table old
        · exact Context.every_members ih (fun _ _ _ => rfl) fun _ _ _ => rfl
  exact Context.every_members inherited (fun _ _ _ => rfl) fun _ _ _ => rfl

end History

/-! What a name means after an event. -/

theorem Env.lookup_value (name : String) (value : Word) (env : Env) :
    Env.lookup name (.value name value :: env) = some (.word value) := by
  simp [Env.lookup, Entry.name]

theorem Env.lookup_routine (r : Routine) (env : Env) :
    Env.lookup r.name (.routine r :: env) = some (.closure r (.routine r :: env)) := by
  simp [Env.lookup, Entry.name]

theorem Env.lookup_of_ne {name : String} {entry : Entry} (env : Env) (ne : name ≠ entry.name) :
    Env.lookup name (entry :: env) = env.lookup name := by
  cases entry with
  | value | routine => exact if_neg (Ne.symm ne)

end ObjectLang
