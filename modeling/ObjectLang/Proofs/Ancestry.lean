import ObjectLang.Proofs.Joins

/-!
The walk up the inheritance chain as a list. It stops after one class more than are recorded. If
classes do not go in circles that is never too early: a chain of classes without repetition has at
most one class that is not recorded, its last one. In a circle the walk goes round until it stops,
and by then it has met every class it can reach.
-/
namespace ObjectLang

namespace Inheritance

/-- The whole chain of a class: the class, its parent, and so on up to the first class without a
recorded parent. -/
inductive Chain (h : Inheritance) : String → List String → Prop
  | top {name} (root : h.parent? name = none) : Chain h name [name]
  | up {name parent line} (link : h.Parent name parent) (rest : Chain h parent line) :
      Chain h name (name :: line)

variable {h : Inheritance} {name ancestor : String} {line : List String}

theorem Chain.reaches (chain : h.Chain name line) (listed : ancestor ∈ line) :
    Relation.ReflTransGen h.Parent name ancestor := by
  induction chain with
  | top root =>
    obtain rfl := List.mem_singleton.mp listed
    exact .refl
  | up link rest ih =>
    rcases List.mem_cons.mp listed with rfl | later
    · exact .refl
    · exact .head link (ih later)

/-- A class that comes up twice on its own chain would be its own proper ancestor. -/
theorem Chain.nodup (acyclic : h.Acyclic) (chain : h.Chain name line) : line.Nodup := by
  induction chain with
  | top root => exact List.nodup_singleton _
  | @up name parent line link rest ih =>
    refine List.nodup_cons.mpr ⟨fun again => acyclic name ?_, ih⟩
    exact .head' link (rest.reaches again)

theorem Chain.unique {other : List String} (chain : h.Chain name line)
    (second : h.Chain name other) : line = other := by
  induction chain generalizing other with
  | top root =>
    cases second with
    | top _ => rfl
    | up link _ =>
      rw [Parent, root] at link
      cases link
  | up link rest ih =>
    cases second with
    | top root =>
      rw [Parent, root] at link
      cases link
    | up link' rest' =>
      obtain rfl := Option.some.inj (link.symm.trans link')
      rw [ih rest']

theorem chain_climb {steps : Nat} (beyond : h.above steps name = none) :
    h.Chain name (h.climb steps name) := by
  induction steps generalizing name with
  | zero => cases beyond
  | succ steps ih =>
    rw [climb]
    cases up : h.parent? name with
    | none => exact .top up
    | some parent =>
      simp only [above, up, Option.bind_some] at beyond
      exact .up up (ih beyond)

theorem transGen_of_above {links : Nat} (found : h.above (links + 1) name = some ancestor) :
    Relation.TransGen h.Parent name ancestor := by
  obtain ⟨parent, up, rest⟩ := Option.bind_eq_some_iff.mp found
  exact .head' up ((h.exists_above_iff parent ancestor).mp ⟨links, rest⟩)

/-- Without circles every way up is the shortest one, so it ends within the bound of the walk. -/
theorem above_size_succ (acyclic : h.Acyclic) (name : String) :
    h.above (h.parents.size + 1) name = none := by
  cases found : h.above (h.parents.size + 1) name with
  | none => rfl
  | some ancestor =>
    have shortest : ∀ fewer < h.parents.size + 1, h.above fewer name ≠ some ancestor := by
      intro fewer bound earlier
      -- What is left of the way leads from the ancestor back to it.
      have split := h.above_add fewer (h.parents.size - fewer + 1) name
      rw [show fewer + (h.parents.size - fewer + 1) = h.parents.size + 1 by omega, found, earlier]
        at split
      exact acyclic ancestor (transGen_of_above split.symm)
    have short := above_bounded found shortest
    omega

def declareAll (h : Inheritance) (declared : List (String × Option String)) : Inheritance :=
  declared.foldl (fun h entry => h.declare entry.1 entry.2) h

/-- The first declaration of a class counts, and a record from before counts more. -/
theorem parent?_declareAll (h : Inheritance) (declared : List (String × Option String))
    (name : String) : (h.declareAll declared).parent? name =
      if h.contains name then h.parent? name else (declared.lookup name).join := by
  induction declared generalizing h with
  | nil =>
    cases known : h.contains name with
    | true => rfl
    | false =>
      have missing : h.parents.find? name = none := by
        simpa [contains, Table.contains] using known
      simp [declareAll, parent?, missing]
  | cons entry declared ih =>
    obtain ⟨new, parent⟩ := entry
    have unfolded : h.declareAll ((new, parent) :: declared) =
        (h.declare new parent).declareAll declared := rfl
    rw [unfolded, ih]
    by_cases same : name = new
    · subst same
      rw [if_pos (contains_declare.mpr (.inl rfl)), List.lookup_cons_self, Option.join_some]
      cases known : h.contains name with
      | true => rw [declare_of_contains known, if_pos rfl]
      | false => rw [parent?_declare_self known, if_neg (by simp)]
    · have differs : (name == new) = false := by simp [same]
      have kept : (h.declare new parent).contains name = h.contains name := by
        rw [Bool.eq_iff_iff, contains_declare, or_iff_right same]
      rw [kept, parent?_declare_of_ne h same, List.lookup_cons, differs]

/-- What the walk lists and what it decides. A sequence of declarations gives each class the parent
that its first declaration names. Whether or not classes go in circles, and whether or not parents
are recorded, a class counts as an ancestor exactly if parent links lead to it. If no class is its
own proper ancestor, the ancestors of a class are its whole chain, without repetition, and a longer
walk lists no more. The classes of a program are of that kind, and their parents are classes of the
program. -/
theorem ancestors_exact :
    (∀ (declared : List (String × Option String)) (name : String),
      (declareAll {} declared).parent? name = (declared.lookup name).join) ∧
    (∀ (h : Inheritance) (ancestor name : String),
      h.isAncestor ancestor name = true ↔ Relation.ReflTransGen h.Parent name ancestor) ∧
    (∀ h : Inheritance, h.Acyclic → ∀ name : String,
      h.Chain name (h.ancestors name) ∧ (h.ancestors name).Nodup ∧
        ∀ more, h.climb (h.parents.size + 1 + more) name = h.ancestors name) ∧
    ∀ p : Program, p.resolve.inheritance.Acyclic ∧
      ∀ name parent, p.resolve.inheritance.Parent name parent →
        p.resolve.inheritance.contains parent = true := by
  refine ⟨parent?_declareAll {}, isAncestor_iff, ?_, ?_⟩
  · intro h acyclic name
    have chain : h.Chain name (h.ancestors name) := chain_climb (above_size_succ acyclic name)
    refine ⟨chain, chain.nodup acyclic, fun more => ?_⟩
    have beyond : h.above (h.parents.size + 1 + more) name = none := by
      rw [above_add, above_size_succ acyclic, Option.bind_none]
    exact (chain_climb beyond).unique chain
  · intro p
    exact ⟨p.founded_resolve.acyclic, p.founded_resolve.recorded⟩

/-- `C` extends `B`, and `B` extends `A`, which is never declared. A second declaration of `B` comes
too late. -/
def openTop : Inheritance := declareAll {} [("B", some "A"), ("C", some "B"), ("B", none)]

theorem acyclic_openTop : openTop.Acyclic := by
  have links : ∀ x y, openTop.Parent x y → x = "C" ∧ y = "B" ∨ x = "B" ∧ y = "A" := by
    intro x y link
    have entries : openTop.parents.entries = [("C", some "B"), ("B", some "A")] := by
      decide +kernel
    rw [Parent, parent?, Table.find?, entries] at link
    by_cases isC : x = "C"
    · subst isC
      exact .inl ⟨rfl, (Option.some.inj link).symm⟩
    · by_cases isB : x = "B"
      · subst isB
        exact .inr ⟨rfl, (Option.some.inj link).symm⟩
      · have notC : (x == "C") = false := by simp [isC]
        have notB : (x == "B") = false := by simp [isB]
        simp [List.lookup_cons, notC, notB] at link
  intro name cycle
  obtain ⟨_, first, back⟩ := Relation.TransGen.head'_iff.mp cycle
  rcases links _ _ first with ⟨rfl, rfl⟩ | ⟨rfl, rfl⟩
  · -- No link leads back down to `C`.
    rcases back.cases_tail with same | ⟨_, _, last⟩
    · exact absurd same (by decide)
    · rcases links _ _ last with ⟨_, same⟩ | ⟨_, same⟩ <;> exact absurd same (by decide)
  · rcases back.cases_head with same | ⟨_, second, _⟩
    · exact absurd same (by decide)
    · rcases links _ _ second with ⟨same, _⟩ | ⟨same, _⟩ <;> exact absurd same (by decide)

theorem ancestors_exact_openTop :
    openTop.parents.size = 2 ∧ openTop.ancestors "C" = ["C", "B", "A"] ∧
      (openTop.ancestors "C").Nodup ∧ openTop.climb 9 "C" = ["C", "B", "A"] := by
  obtain ⟨_, _, whole, _⟩ := ancestors_exact
  obtain ⟨_, nodup, further⟩ := whole openTop acyclic_openTop "C"
  have listed : openTop.ancestors "C" = ["C", "B", "A"] := by decide +kernel
  exact ⟨by decide +kernel, listed, nodup, (further 6).trans listed⟩

end Inheritance

end ObjectLang
