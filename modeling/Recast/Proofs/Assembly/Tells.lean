import Recast.Proofs.Assembly.Sound

/-!
# What is told about referents

How wide a reference is depends on the layouts that the workshop remembers. A layout under assembly
does not tell yet whether its values have a fixed size. All others do (`Workshop.Tells`), and each
step of the assembly of a referent keeps it so.
-/

namespace Recast

open List

variable {catalog : Catalog} {machine : Machine} {underway : Underway} {shop : Workshop}
  {layout : LayoutId} {bound : Nat} {name : Option DefId}

theorem Assembly.Ensures.and {plain : Prop} {α : Type} {less : Nat} {step : Assembly α}
    {post other : α → Workshop → Prop} (first : Ensures plain bound step shop post)
    (second : Ensures plain less step shop other) :
    Ensures plain bound step shop fun value later => post value later ∧ other value later := by
  rcases outcome : step shop with ⟨_, later⟩ | ⟨_, later⟩
  · simp only [Ensures, outcome] at first second ⊢
    exact ⟨first.1, first.2.1, first.2.2, second.2.2⟩
  · simpa only [Ensures, outcome] using first

/-- The layouts of referents under assembly, with the names of those that have one. -/
abbrev Underway := List (Option DefId × LayoutId)

def Underway.Settled (underway : Underway) : Prop :=
  ∀ id layout, (some id, layout) ∉ underway

/-- The workshop tells which of its named referents have no fixed size, but for those under
assembly. -/
structure Workshop.Tells (catalog : Catalog) (machine : Machine) (underway : Underway)
    (shop : Workshop) : Prop where
  unsized : ∀ id layout, shop.referents.lookup id = some layout →
    (shop.arena.layout layout).size = none → (Shape.named id).Unsized catalog machine
  sized : ∀ id layout, shop.referents.lookup id = some layout → (some id, layout) ∉ underway →
    (Shape.named id).Unsized catalog machine → (shop.arena.layout layout).size = none
  own : ∀ id layout name, shop.referents.lookup id = some layout → (name, layout) ∈ underway →
    name = some id
  inside : ∀ name layout, (name, layout) ∈ underway → layout.index < shop.size

section Referents

open Assembly

namespace Workshop.Tells

variable {later : Workshop} {id : DefId}

theorem opened (tells : shop.Tells catalog machine underway) (sound : shop.Sound False)
    (opened : Opened name shop later) :
    later.Tells catalog machine ((name, ⟨shop.size⟩) :: underway) := by
  rcases sound.opened opened with ⟨_, blank, begins⟩
  refine ⟨?_, ?_, ?_, ?_⟩
  · intro id layout found unsized
    rcases (opened.lookup id layout).mp found with known | ⟨_, rfl⟩
    · rw [begins.same layout (sound.referents id layout known)] at unsized
      exact tells.unsized id layout known unsized
    · simp [blank.blank] at unsized
  · intro id layout found finished unsized
    rw [mem_cons, not_or] at finished
    rcases (opened.lookup id layout).mp found with known | ⟨rfl, rfl⟩
    · rw [begins.same layout (sound.referents id layout known)]
      exact tells.sized id layout known finished.2 unsized
    · exact absurd rfl finished.1
  · intro id layout owner found member
    rcases mem_cons.mp member with isNew | before
    · cases isNew
      rcases (opened.lookup id _).mp found with known | ⟨isName, _⟩
      · exact absurd (sound.referents id _ known) (lt_irrefl _)
      · exact isName
    · rcases (opened.lookup id layout).mp found with known | ⟨_, rfl⟩
      · exact tells.own id layout owner known before
      · exact absurd (tells.inside owner _ before) (lt_irrefl _)
  · intro owner layout member
    rcases mem_cons.mp member with isNew | before
    · cases isNew
      exact blank.inside
    · exact Nat.lt_of_lt_of_le (tells.inside owner layout before) begins.grown

theorem finish {size : Option Nat} (tells : shop.Tells catalog machine ((name, layout) :: underway))
    (sound : shop.Sound False) (settles : shop.Settles layout size later)
    (right : ∀ id, name = some id → (size = none ↔ (Shape.named id).Unsized catalog machine)) :
    later.Tells catalog machine underway := by
  rw [← settles.size] at right
  refine ⟨?_, ?_, ?_, ?_⟩
  · intro id other found unsized
    rw [settles.names] at found
    by_cases isNew : other = layout
    · subst isNew
      exact (right id (tells.own id other name found mem_cons_self)).mp unsized
    · rw [settles.same other (sound.referents id other found) isNew] at unsized
      exact tells.unsized id other found unsized
  · intro id other found finished unsized
    rw [settles.names] at found
    by_cases isNew : other = layout
    · subst isNew
      exact (right id (tells.own id other name found mem_cons_self)).mpr unsized
    · rw [settles.same other (sound.referents id other found) isNew]
      refine tells.sized id other found ?_ unsized
      rw [mem_cons, not_or]
      exact ⟨fun same => isNew (Prod.mk.inj same).2, finished⟩
  · intro id other owner found member
    rw [settles.names] at found
    exact tells.own id other owner found (mem_cons_of_mem _ member)
  · intro owner other member
    exact Nat.lt_of_lt_of_le (tells.inside owner other (mem_cons_of_mem _ member)) settles.grown

end Workshop.Tells

variable {pattern : Pattern}

theorem Assembly.ensures_define_tells (sound : shop.Sound False)
    (tells : shop.Tells catalog machine ((name, layout) :: underway)) (blank : shop.Blank layout)
    (above : bound ≤ layout.index) (shaped : pattern.Shaped)
    (leaves : pattern.Leaves (Token.Admitted False shop.size)) (right : ∀ id, name = some id →
      (pattern.size = none ↔ (Shape.named id).Unsized catalog machine)) :
    Ensures False bound (define layout pattern) shop fun _ later =>
      later.Tells catalog machine underway ∧ (later.arena.layout layout).size = pattern.size := by
  rcases exists_define sound blank shaped leaves with ⟨_, outcome, settles⟩
  have defines := (ensures_define sound blank above shaped leaves).ok outcome
  simp only [Ensures, outcome]
  exact ⟨defines.1, settles.sound, tells.finish sound settles right, settles.size⟩

end Referents

end Recast
