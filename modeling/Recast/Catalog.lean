import Recast.Shape

/-!
# Catalogs

A catalog gives names and shapes to identities, so that a shape can speak of another one, or of
itself, without containing it. An identity may be handed out before it is defined.
-/

namespace Recast

structure Definition where
  name : String
  shape : Shape
deriving Repr

/-- Definitions by identity, and the next identity to hand out. -/
structure Catalog where
  entries : List (DefId × Definition) := []
  next : Nat := 0

namespace Catalog

def declare (catalog : Catalog) : DefId × Catalog :=
  (⟨catalog.next⟩, { catalog with next := catalog.next + 1 })

def define (catalog : Catalog) (id : DefId) (definition : Definition) : Catalog :=
  { catalog with
    entries := (id, definition) :: catalog.entries.filter fun entry => entry.1 != id }

def insert (catalog : Catalog) (definition : Definition) : DefId × Catalog :=
  let (id, declared) := catalog.declare
  (id, declared.define id definition)

def get? (catalog : Catalog) (id : DefId) : Option Definition :=
  catalog.entries.lookup id

def size (catalog : Catalog) : Nat :=
  catalog.entries.length

variable {catalog : Catalog} {id other : DefId} {definition : Definition}

@[simp]
theorem get?_define_self : (catalog.define id definition).get? id = some definition := by
  simp [get?, define]

theorem get?_define_of_ne (different : other ≠ id) :
    (catalog.define id definition).get? other = catalog.get? other := by
  have skip : (other == id) = false := by simpa using different
  simp only [get?, define, List.lookup_cons, skip]
  induction catalog.entries with
  | nil => rfl
  | cons entry rest ih =>
    obtain ⟨key, value⟩ := entry
    by_cases same : key = id
    · subst same
      simpa [List.lookup_cons, skip] using ih
    · by_cases hit : other = key
      · subst hit
        simp [same]
      · have miss : (other == key) = false := by simpa using hit
        simpa [same, List.lookup_cons, miss] using ih

end Catalog

end Recast
