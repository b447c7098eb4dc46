/-!
Finite maps from names. A table keeps one value for each name; the order of its entries has no
meaning.
-/
namespace ObjectLang

structure Table (α : Type) where
  entries : List (String × α) := []

namespace Table

variable {α : Type}

def find? (t : Table α) (name : String) : Option α := t.entries.lookup name

def contains (t : Table α) (name : String) : Bool := (t.find? name).isSome

def insert (t : Table α) (name : String) (value : α) : Table α :=
  ⟨(name, value) :: t.entries.filter fun entry => entry.1 != name⟩

def size (t : Table α) : Nat := t.entries.length

@[simp] theorem find?_insert_self (t : Table α) (name : String) (value : α) :
    (t.insert name value).find? name = some value := by
  simp [find?, insert]

theorem lookup_filter_ne {entries : List (String × α)} {name other : String} (ne : other ≠ name) :
    (entries.filter fun entry => entry.1 != name).lookup other = entries.lookup other := by
  induction entries with
  | nil => rfl
  | cons entry entries ih =>
    obtain ⟨key, value⟩ := entry
    by_cases same : key = name
    · subst same
      have differs : (other == key) = false := by simp [ne]
      simp [List.lookup_cons, differs, ih]
    · simp [List.lookup_cons, same, ih]

theorem find?_insert_of_ne (t : Table α) {name other : String} (ne : other ≠ name) (value : α) :
    (t.insert name value).find? other = t.find? other := by
  have differs : (other == name) = false := by simp [ne]
  simp [find?, insert, List.lookup_cons, differs, lookup_filter_ne ne]

theorem find?_insert_eq_some {t : Table α} {name other : String} {value found : α} :
    (t.insert name value).find? other = some found ↔
      other = name ∧ value = found ∨ other ≠ name ∧ t.find? other = some found := by
  by_cases same : other = name
  · subst same
    simp
  · rw [find?_insert_of_ne t same]
    simp [same]

theorem contains_insert (t : Table α) (name other : String) (value : α) :
    (t.insert name value).contains other = (other == name || t.contains other) := by
  by_cases same : other = name
  · subst same
    simp [contains]
  · rw [contains, find?_insert_of_ne t same, ← contains]
    simp [same]

end Table

end ObjectLang
