import ObjectLang.Proofs.Scope.Lexical
import ObjectLang.Proofs.Subtyping
import ObjectLang.Proofs.Typing.Rules

/-!
Joins of types. The join of two types is the least type above both. For class references it is
searched among the ancestors of one side only; that nothing is lost, and that the order of the two
sides does not matter, rests on the order of the walk up the chain and on the fact that a program
records every class after its parent.
-/
namespace ObjectLang

namespace Ty

variable {h : Inheritance} {a b c : Ty}

structure LeastAbove (h : Inheritance) (a b c : Ty) : Prop where
  left : a.subtype h c = true
  right : b.subtype h c = true
  least : ∀ d : Ty, a.subtype h d = true → b.subtype h d = true → c.subtype h d = true

def isScalar : Ty → Bool
  | .int | .bool | .null | .ref _ => true
  | _ => false

inductive Joins (h : Inheritance) : Ty → Ty → Ty → Prop
  | same (a : Ty) : Joins h a a a
  | nullLeft (b : Ty) : Joins h .null b b
  | nullRight (a : Ty) : Joins h a .null a
  | classes {left right above : String}
      (found : (h.ancestors left).find? (fun name => h.isAncestor name right) = some above) :
      Joins h (.ref left) (.ref right) (.ref above)
  | intBool : Joins h .int .bool .int
  | boolInt : Joins h .bool .int .int

theorem find?_ancestors (h : Inheritance) (left right : String) :
    ((h.ancestors left).map Ty.ref).find? (fun above => (Ty.ref right).subtype h above) =
      ((h.ancestors left).find? fun name => h.isAncestor name right).map Ty.ref := by
  rw [List.find?_map]
  congr 2
  funext name
  simp [subtype]

theorem joins_of_join (joined : a.join h b = some c) : Joins h a b c := by
  unfold join at joined
  split at joined
  · cases joined
  · split at joined
    · rename_i same
      cases joined
      exact same ▸ .same a
    · split at joined
      · cases joined
        exact .nullLeft _
      · cases joined
        exact .nullRight _
      · rw [find?_ancestors] at joined
        obtain ⟨above, found, same⟩ := Option.map_eq_some_iff.mp joined
        exact same ▸ .classes found
      · cases joined
        exact .intBool
      · cases joined
        exact .boolInt
      · cases joined

theorem eq_ref_of_subtype {name : String} {d : Ty} (below : (Ty.ref name).subtype h d = true) :
    ∃ other, d = .ref other ∧ other ∈ h.ancestors name := by
  cases d with
  | ref other => exact ⟨other, rfl, by simpa [subtype, Inheritance.isAncestor] using below⟩
  | _ => simp [subtype] at below

/-- The first ancestor of one class that is above the other one is below all that are above both. -/
theorem leastAbove_classes {left right above : String}
    (found : (h.ancestors left).find? (fun name => h.isAncestor name right) = some above) :
    LeastAbove h (.ref left) (.ref right) (.ref above) := by
  have listed : above ∈ h.ancestors left := List.mem_of_find?_eq_some found
  have covers : h.isAncestor above right = true := by simpa using List.find?_some found
  refine ⟨?_, ?_, ?_⟩
  · simp [subtype, Inheritance.isAncestor, listed]
  · simp [subtype, covers]
  · intro d belowLeft belowRight
    obtain ⟨other, rfl, onTheWay⟩ := eq_ref_of_subtype belowLeft
    simp only [subtype] at belowRight ⊢
    rw [Inheritance.isAncestor_iff]
    exact Inheritance.reaches_of_find? found onTheWay belowRight

theorem Joins.leastAbove (joins : Joins h a b c) (left : a.containsIncomplete = false)
    (right : b.containsIncomplete = false) : LeastAbove h a b c := by
  cases joins with
  | same => exact ⟨subtype_refl h _ left, subtype_refl h _ left, fun d below _ => below⟩
  | nullLeft => exact ⟨by simp [subtype], subtype_refl h _ right, fun d _ below => below⟩
  | nullRight => exact ⟨subtype_refl h _ left, by simp [subtype], fun d below _ => below⟩
  | classes found => exact leastAbove_classes found
  | intBool => exact ⟨by simp [subtype], by simp [subtype], fun d below _ => below⟩
  | boolInt => exact ⟨by simp [subtype], by simp [subtype], fun d _ below => below⟩

theorem apart_classes {left right : String}
    (missing : (Ty.ref left).join h (.ref right) = none) (d : Ty) :
    ¬ ((Ty.ref left).subtype h d = true ∧ (Ty.ref right).subtype h d = true) := by
  rintro ⟨belowLeft, belowRight⟩
  obtain ⟨other, rfl, onTheWay⟩ := eq_ref_of_subtype belowLeft
  simp only [subtype] at belowRight
  unfold join at missing
  split at missing
  · rename_i unknown
    simp [isIncomplete] at unknown
  · split at missing
    · cases missing
    · simp only [find?_ancestors, Option.map_eq_none_iff, List.find?_eq_none] at missing
      exact missing other onTheWay belowRight

theorem apart_of_join_none (missing : a.join h b = none) (left : a.isScalar = true)
    (right : b.isScalar = true) (d : Ty) :
    ¬ (a.subtype h d = true ∧ b.subtype h d = true) := by
  rintro ⟨belowLeft, belowRight⟩
  cases a with
  | int | bool =>
    cases b with
    | int | bool | null => simp [join, isIncomplete] at missing
    | ref right => cases d <;> simp [subtype] at belowLeft belowRight
    | _ => simp [isScalar] at right
  | null => cases b <;> simp [join, isIncomplete, isScalar] at missing right
  | ref left =>
    cases b with
    | int | bool => cases d <;> simp [subtype] at belowLeft belowRight
    | null => simp [join, isIncomplete] at missing
    | ref right => exact apart_classes missing d ⟨belowLeft, belowRight⟩
    | _ => simp [isScalar] at right
  | _ => simp [isScalar] at left

theorem join_classes_comm (acyclic : h.Acyclic) (left right : String) :
    (Ty.ref left).join h (.ref right) = (Ty.ref right).join h (.ref left) := by
  cases one : (Ty.ref left).join h (.ref right) with
  | none =>
    cases two : (Ty.ref right).join h (.ref left) with
    | none => rfl
    | some c =>
      have least := (joins_of_join two).leastAbove rfl rfl
      exact absurd ⟨least.right, least.left⟩ (apart_classes one c)
  | some c =>
    have least := (joins_of_join one).leastAbove rfl rfl
    cases two : (Ty.ref right).join h (.ref left) with
    | none => exact absurd ⟨least.right, least.left⟩ (apart_classes two c)
    | some c' =>
      have least' := (joins_of_join two).leastAbove rfl rfl
      -- Two least types above the same classes are below each other.
      have below := least.least c' least'.right least'.left
      have above := least'.least c least.right least.left
      have plain : c.containsClass = false := by cases joins_of_join one <;> rfl
      rw [subtype_antisymm acyclic c c' plain below above]

theorem join_comm (acyclic : h.Acyclic) (a b : Ty) : a.join h b = b.join h a := by
  by_cases same : a = b
  · rw [same]
  · have differs : b ≠ a := fun eq => same eq.symm
    cases a with
    | ref left =>
      cases b with
      | ref right => exact join_classes_comm acyclic left right
      | _ => simp [join, isIncomplete]
    | _ => cases b <;> simp [join, isIncomplete, same, differs]

end Ty

namespace Expr

theorem typeOf_cond {h : Inheritance} {line : Line} {test yes no : Expr} {ty : Ty} :
    (Expr.cond line test yes no).typeOf h = .ok ty ↔
      ∃ condition left right, test.typeOf h = .ok condition ∧ condition.subtype h .bool = true ∧
        yes.typeOf h = .ok left ∧ no.typeOf h = .ok right ∧ left.join h right = some ty := by
  simp only [typeOf, Except.bind_eq_ok]
  constructor
  · rintro ⟨condition, first, rest⟩
    split at rest
    · rename_i isBool
      simp only [Except.bind_eq_ok] at rest
      obtain ⟨left, second, right, third, rest⟩ := rest
      split at rest
      · rename_i joined
        cases rest
        exact ⟨condition, left, right, first, isBool, second, third, joined⟩
      · cases rest
    · cases rest
  · rintro ⟨condition, left, right, first, isBool, second, third, joined⟩
    refine ⟨condition, first, ?_⟩
    rw [if_pos isBool, second, third]
    simp [Bind.bind, Except.bind, joined]

end Expr

namespace Program

theorem founded_following (p : Program) (count : Nat) :
    (Context.following (p.decls.take count)).inheritance.Founded := by
  induction count with
  | zero => exact Inheritance.founded_empty
  | succ count ih =>
    cases listed : p.decls[count]? with
    | none => simpa [List.take_add_one, listed] using ih
    | some d =>
      rw [List.take_add_one, listed, Option.toList_some, Context.following_concat]
      exact (p.tabled_following count).founded_after ih d

/-- In the inheritance that a program records, every parent is a class and none is its own proper
ancestor, whether or not the program is faulty. -/
theorem founded_resolve (p : Program) : p.resolve.inheritance.Founded := by
  have all := p.founded_following p.decls.length
  rwa [List.take_length] at all

end Program

/-- A join is the least type above both sides, and two types of values that are no functions have
one whenever they have a common supertype. In a program the sides can be exchanged, so the type of a
conditional does not depend on the order of its branches. -/
theorem Ty.join_least_upper_bound :
    (∀ (h : Inheritance) (a b : Ty), a.containsIncomplete = false → b.containsIncomplete = false →
      (∀ c, a.join h b = some c → LeastAbove h a b c) ∧
      (a.join h b = none → a.isScalar = true → b.isScalar = true →
        ∀ d : Ty, ¬ (a.subtype h d = true ∧ b.subtype h d = true))) ∧
    ∀ p : Program, (∀ a b : Ty, a.join p.resolve.inheritance b = b.join p.resolve.inheritance a) ∧
      ∀ (line : Line) (test yes no : Expr) (ty : Ty),
        (Expr.cond line test yes no).typeOf p.resolve.inheritance = .ok ty ↔
          (Expr.cond line test no yes).typeOf p.resolve.inheritance = .ok ty := by
  refine ⟨?_, ?_⟩
  · intro h a b left right
    refine ⟨?_, apart_of_join_none⟩
    intro c joined
    exact (joins_of_join joined).leastAbove left right
  · intro p
    have comm := Ty.join_comm p.founded_resolve.acyclic
    have swap : ∀ {line : Line} {test yes no : Expr} {ty : Ty},
        (Expr.cond line test yes no).typeOf p.resolve.inheritance = .ok ty →
          (Expr.cond line test no yes).typeOf p.resolve.inheritance = .ok ty := by
      intro line test yes no ty typed
      obtain ⟨condition, left, right, first, isBool, second, third, joined⟩ :=
        Expr.typeOf_cond.mp typed
      rw [comm] at joined
      exact Expr.typeOf_cond.mpr ⟨condition, right, left, first, isBool, third, second, joined⟩
    exact ⟨comm, fun line test yes no ty => ⟨swap, swap⟩⟩

def Program.twoLines : Program where
  decls := [
    .cls ⟨1, "A", none, [], [], none, none⟩,
    .cls ⟨2, "B", some "A", [], [], none, none⟩,
    .cls ⟨3, "C", some "B", [], [], none, none⟩,
    .cls ⟨4, "D", some "A", [], [], none, none⟩,
    .cls ⟨5, "E", none, [], [], none, none⟩]
  body := .null 6

theorem Ty.join_least_upper_bound_twoLines :
    (Ty.ref "C").join Program.twoLines.resolve.inheritance (.ref "D") = some (.ref "A") ∧
      (Ty.ref "D").join Program.twoLines.resolve.inheritance (.ref "C") = some (.ref "A") ∧
      LeastAbove Program.twoLines.resolve.inheritance (.ref "C") (.ref "D") (.ref "A") ∧
      ∀ d : Ty, ¬ ((Ty.ref "C").subtype Program.twoLines.resolve.inheritance d = true ∧
        (Ty.ref "E").subtype Program.twoLines.resolve.inheritance d = true) := by
  obtain ⟨bounds, programs⟩ := Ty.join_least_upper_bound
  have joined : (Ty.ref "C").join Program.twoLines.resolve.inheritance (.ref "D") =
      some (.ref "A") := by decide +kernel
  have missing : (Ty.ref "C").join Program.twoLines.resolve.inheritance (.ref "E") = none := by
    decide +kernel
  refine ⟨joined, ?_, (bounds _ _ _ rfl rfl).1 _ joined, (bounds _ _ _ rfl rfl).2 missing rfl rfl⟩
  rw [(programs Program.twoLines).1]
  exact joined

end ObjectLang
