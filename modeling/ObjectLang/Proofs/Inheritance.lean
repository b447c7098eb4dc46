import Mathlib.Data.List.Nodup
import Mathlib.Data.Nat.Find
import Mathlib.Logic.Relation
import ObjectLang.Inheritance

/-!
The walk up the inheritance chain is bounded by the number of recorded classes. This module shows
that the bound loses nothing: a class counts as an ancestor exactly if parent links lead to it. No
class is its own proper ancestor if every class is recorded after its parent.
-/
namespace ObjectLang.Inheritance

def Parent (h : Inheritance) (name parent : String) : Prop := h.parent? name = some parent

def above (h : Inheritance) : Nat → String → Option String
  | 0, name => some name
  | links + 1, name => (h.parent? name).bind (h.above links)

theorem above_add (h : Inheritance) (first second : Nat) (name : String) :
    h.above (first + second) name = (h.above first name).bind (h.above second) := by
  induction first generalizing name with
  | zero => simp [above]
  | succ first ih =>
    rw [Nat.succ_add_eq_add_succ, Nat.add_succ]
    simp only [above]
    cases h.parent? name with
    | none => rfl
    | some parent => exact ih parent

theorem mem_climb_iff (h : Inheritance) (steps : Nat) (name ancestor : String) :
    ancestor ∈ h.climb steps name ↔ ∃ links < steps, h.above links name = some ancestor := by
  induction steps generalizing name with
  | zero => simp [climb]
  | succ steps ih =>
    rw [climb, List.mem_cons]
    constructor
    · rintro (same | further)
      · exact ⟨0, by omega, by simp [above, same]⟩
      · cases up : h.parent? name with
        | none => simp [up] at further
        | some parent =>
          rw [up] at further
          obtain ⟨links, bound, found⟩ := (ih parent).mp further
          exact ⟨links + 1, by omega, by simp [above, up, found]⟩
    · rintro ⟨links, bound, found⟩
      cases links with
      | zero =>
        simp only [above, Option.some.injEq] at found
        exact .inl found.symm
      | succ links =>
        right
        cases up : h.parent? name with
        | none => simp [above, up] at found
        | some parent =>
          simp only [above, up, Option.bind_some] at found
          exact (ih parent).mpr ⟨links, by omega, found⟩

theorem exists_above_iff (h : Inheritance) (name ancestor : String) :
    (∃ links, h.above links name = some ancestor) ↔
      Relation.ReflTransGen h.Parent name ancestor := by
  constructor
  · rintro ⟨links, found⟩
    induction links generalizing name with
    | zero =>
      simp only [above, Option.some.injEq] at found
      exact found ▸ .refl
    | succ links ih =>
      obtain ⟨parent, up, rest⟩ := Option.bind_eq_some_iff.mp found
      exact .head up (ih parent rest)
  · intro path
    induction path using Relation.ReflTransGen.head_induction_on with
    | refl => exact ⟨0, rfl⟩
    | @head name parent up path ih =>
      obtain ⟨links, found⟩ := ih
      have up : h.parent? name = some parent := up
      exact ⟨links + 1, by simp [above, up, found]⟩

theorem recorded_of_parent {h : Inheritance} {name parent : String}
    (up : h.parent? name = some parent) : name ∈ h.parents.entries.map Prod.fst := by
  simp only [parent?, Table.find?, Option.join_eq_some_iff] at up
  obtain ⟨before, after, entries, _⟩ := List.lookup_eq_some_iff.mp up
  simp [entries]

/-- The shortest way up never meets a class twice, so it is no longer than there are classes. -/
theorem above_bounded {h : Inheritance} {name ancestor : String} {links : Nat}
    (found : h.above links name = some ancestor)
    (shortest : ∀ fewer < links, h.above fewer name ≠ some ancestor) :
    links ≤ h.parents.size := by
  have defined : ∀ i < links, ∃ here parent, h.above i name = some here ∧
      h.parent? here = some parent := by
    intro i bound
    have split := h.above_add i (links - i) name
    rw [Nat.add_sub_cancel' (by omega), found] at split
    obtain ⟨here, first, rest⟩ := Option.bind_eq_some_iff.mp split.symm
    obtain ⟨more, count⟩ : ∃ more, links - i = more + 1 := ⟨links - i - 1, by omega⟩
    rw [count, above] at rest
    obtain ⟨parent, up, _⟩ := Option.bind_eq_some_iff.mp rest
    exact ⟨here, parent, first, up⟩
  have distinct : ∀ i j, i < j → j < links → h.above i name ≠ h.above j name := by
    -- Two equal classes on the way would leave out the links between them.
    intro i j order bound same
    apply shortest (i + (links - j)) (by omega)
    rw [above_add, same, ← above_add, Nat.add_sub_cancel' (by omega), found]
  let way := (List.range links).map fun i => (h.above i name).getD ""
  have nodup : way.Nodup := by
    apply List.Nodup.map_on _ List.nodup_range
    intro i hi j hj same
    rw [List.mem_range] at hi hj
    obtain ⟨a, _, ha, _⟩ := defined i hi
    obtain ⟨b, _, hb, _⟩ := defined j hj
    have equal : h.above i name = h.above j name := by
      rw [ha, hb] at same ⊢
      simpa using same
    rcases Nat.lt_trichotomy i j with order | order | order
    · exact absurd equal (distinct i j order hj)
    · exact order
    · exact absurd equal.symm (distinct j i order hi)
  have subset : way ⊆ h.parents.entries.map Prod.fst := by
    intro x member
    obtain ⟨i, hi, rfl⟩ := List.mem_map.mp member
    obtain ⟨here, parent, first, up⟩ := defined i (List.mem_range.mp hi)
    rw [first]
    exact recorded_of_parent up
  have count := nodup.length_le_of_subset subset
  simpa [way, Table.size] using count

/-- The bounded walk finds every class that parent links lead to, and no other. -/
theorem isAncestor_iff (h : Inheritance) (ancestor name : String) :
    h.isAncestor ancestor name = true ↔ Relation.ReflTransGen h.Parent name ancestor := by
  rw [isAncestor, ancestors, List.contains_iff_mem, mem_climb_iff, ← exists_above_iff]
  constructor
  · rintro ⟨links, _, found⟩
    exact ⟨links, found⟩
  · intro reached
    classical
    have found := Nat.find_spec reached
    have shortest : ∀ fewer < Nat.find reached, h.above fewer name ≠ some ancestor :=
      fun fewer bound => Nat.find_min reached bound
    have bound := above_bounded found shortest
    exact ⟨Nat.find reached, by omega, found⟩

theorem isAncestor_self (h : Inheritance) (name : String) : h.isAncestor name name = true :=
  (h.isAncestor_iff name name).mpr .refl

theorem isAncestor_trans {h : Inheritance} {a b c : String}
    (first : h.isAncestor a b = true) (second : h.isAncestor b c = true) :
    h.isAncestor a c = true := by
  rw [isAncestor_iff] at *
  exact second.trans first

/-- The first class on the way up with a property is below all classes on the way that have it. -/
theorem reaches_of_find? {h : Inheritance} {p : String → Bool} {steps : Nat}
    {name first other : String} (found : (h.climb steps name).find? p = some first)
    (listed : other ∈ h.climb steps name) (holds : p other = true) :
    Relation.ReflTransGen h.Parent first other := by
  induction steps generalizing name with
  | zero => cases listed
  | succ steps ih =>
    cases here : p name with
    | true =>
      simp only [climb, List.find?_cons, here, Option.some.injEq] at found
      obtain ⟨links, _, reached⟩ := (h.mem_climb_iff _ _ _).mp listed
      rw [← found]
      exact (h.exists_above_iff name other).mp ⟨links, reached⟩
    | false =>
      rw [climb, List.find?_cons, here] at found
      rw [climb, List.mem_cons] at listed
      have further := listed.resolve_left fun same => by simp [same, here] at holds
      cases up : h.parent? name with
      | none => simp [up] at further
      | some parent =>
        simp only [up] at found further
        exact ih found further

/-! Hierarchies without cycles. -/

def Acyclic (h : Inheritance) : Prop := ∀ name, ¬ Relation.TransGen h.Parent name name

theorem Acyclic.antisymm {h : Inheritance} (acyclic : h.Acyclic) {a b : String}
    (first : h.isAncestor a b = true) (second : h.isAncestor b a = true) : a = b := by
  rw [isAncestor_iff] at first second
  rcases Relation.reflTransGen_iff_eq_or_transGen.mp first with same | proper
  · exact same
  · exact absurd (proper.trans_left second) (acyclic b)

structure Founded (h : Inheritance) : Prop where
  recorded : ∀ name parent, h.Parent name parent → h.contains parent = true
  acyclic : h.Acyclic

theorem founded_empty : Founded {} where
  recorded name parent up := nomatch up
  acyclic name cycle := by
    obtain ⟨parent, up, _⟩ := Relation.TransGen.head'_iff.mp cycle
    exact nomatch up

theorem contains_declare {h : Inheritance} {name other : String} {parent : Option String} :
    (h.declare other parent).contains name = true ↔ name = other ∨ h.contains name = true := by
  unfold declare declare?
  cases known : h.contains other with
  | true =>
    simp only [if_true, Option.getD_none, iff_or_self]
    rintro rfl
    exact known
  | false =>
    simp [contains, Table.contains_insert]

theorem declare_of_contains {h : Inheritance} {name : String} (known : h.contains name = true)
    (parent : Option String) : h.declare name parent = h := by
  simp [declare, declare?, known]

theorem parent?_declare_self {h : Inheritance} {name : String} (new : h.contains name = false)
    (parent : Option String) : (h.declare name parent).parent? name = parent := by
  simp [declare, declare?, new, parent?]

theorem parent?_declare_of_ne (h : Inheritance) {name other : String} (ne : other ≠ name)
    (parent : Option String) : (h.declare name parent).parent? other = h.parent? other := by
  unfold declare declare?
  split
  · rfl
  · simp [parent?, Table.find?_insert_of_ne _ ne]

/-- A class whose parent is recorded before it closes no cycle: no link leads to the new class. -/
theorem Founded.declare {h : Inheritance} (founded : h.Founded) (name : String)
    (parent : Option String) (known : ∀ up ∈ parent, h.contains up = true) :
    (h.declare name parent).Founded := by
  cases listed : h.contains name with
  | true => rwa [declare_of_contains listed]
  | false =>
    have target : ∀ x y, (h.declare name parent).Parent x y → h.contains y = true := by
      intro x y up
      unfold Parent at up
      by_cases new : x = name
      · rw [new, parent?_declare_self listed] at up
        exact known y up
      · rw [parent?_declare_of_ne h new] at up
        exact founded.recorded x y up
    have old : ∀ x y, h.contains x = true → (h.declare name parent).Parent x y → h.Parent x y := by
      intro x y earlier up
      have ne : x ≠ name := by
        intro same
        rw [same, listed] at earlier
        cases earlier
      unfold Parent at up ⊢
      rwa [parent?_declare_of_ne h ne] at up
    have path : ∀ x y, h.contains x = true → Relation.TransGen (h.declare name parent).Parent x y →
        Relation.TransGen h.Parent x y := by
      intro x y earlier path
      induction path with
      | single up => exact .single (old _ _ earlier up)
      | tail path up ih =>
        obtain ⟨_, _, last⟩ := Relation.TransGen.tail'_iff.mp path
        exact ih.tail (old _ _ (target _ _ last) up)
    constructor
    · intro x y up
      exact contains_declare.mpr (.inr (target x y up))
    · intro x cycle
      obtain ⟨_, _, last⟩ := Relation.TransGen.tail'_iff.mp cycle
      exact founded.acyclic x (path x x (target _ _ last) cycle)

end ObjectLang.Inheritance
