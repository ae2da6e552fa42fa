import Mathlib.Logic.Relation
import Recast.Proofs.Assembly.Shapes

/-!
# Definitions in place of names

In a catalog in which no definition leads back to itself, names can be replaced by the shapes that
they are defined by, until all names left are not defined (`Catalog.Acyclic.inlined_eq`,
`Catalog.Acyclic.undefined_of_mentions`).
-/

namespace Recast

open List

theorem Shape.FitsWords.replace {names : DefId → Shape} {shape : Shape} (words : shape.FitsWords)
    (each : ∀ id, shape.Mentions id → (names id).FitsWords) : (shape.replace names).FitsWords := by
  induction words with
  | scalar inside => exact .scalar inside
  | sealed inside => exact .sealed inside
  | named id => exact each id .named
  | struct inside _ ih =>
    rw [Shape.replace, replaceFields_eq_map]
    refine .struct inside (forall_mem_map.mpr fun field member => ?_)
    exact ih field member fun id inner => each id (.struct member inner)
  | union inside _ ih =>
    rw [Shape.replace, replaceFields_eq_map]
    refine .union inside (forall_mem_map.mpr fun field member => ?_)
    exact ih field member fun id inner => each id (.union member inner)
  | tagged inside _ _ ihEach ihRest =>
    rw [Shape.replace, replaceVariants_eq_map, replaceOthers_eq_map]
    refine .tagged inside (forall_mem_map.mpr fun variant isVariant => ?_) ?_
    · rw [replaceFields_eq_map]
      refine forall_mem_map.mpr fun field member => ?_
      exact ihEach variant isVariant field member fun id inner =>
        each id (.variant isVariant member inner)
    · intro _ isReplaced
      rcases Option.map_eq_some_iff.mp isReplaced with ⟨fields, rfl, rfl⟩
      rw [replaceFields_eq_map]
      refine forall_mem_map.mpr fun field member => ?_
      exact ihRest fields rfl field member fun id inner => each id (.others member inner)
  | array count _ ih => exact .array count (ih fun id inner => each id (.element inner))
  | reference guarantee _ ih =>
    exact .reference guarantee (ih fun id inner => each id (.referent inner))

namespace Catalog

/-- A definition mentions a name. -/
def Mentions (catalog : Catalog) (id other : DefId) : Prop :=
  ∃ definition, catalog.get? id = some definition ∧ definition.shape.Mentions other

/-- No definition leads back to itself. -/
def Acyclic (catalog : Catalog) : Prop :=
  ∀ id, ¬ Relation.TransGen catalog.Mentions id id

/-- What stands for a name once it is replaced by its definition, and names in that in turn, so many
times. -/
def inlined (catalog : Catalog) : (times : Nat) → DefId → Shape
  | 0, id => .named id
  | times + 1, id =>
    (catalog.get? id).elim (.named id) fun definition =>
      definition.shape.replace (catalog.inlined times)

/-- The shape without the names that are defined. -/
def inline (catalog : Catalog) (shape : Shape) : Shape :=
  shape.replace (catalog.inlined catalog.size)

variable {catalog : Catalog} {id : DefId} {definition : Definition}

theorem inlined_of_undefined (undefined : catalog.get? id = none) (times : Nat) :
    catalog.inlined times id = .named id := by
  cases times with
  | zero => rfl
  | succ => simp only [inlined, undefined, Option.elim_none]

theorem inlined_succ (found : catalog.get? id = some definition) (times : Nat) :
    catalog.inlined (times + 1) id = definition.shape.replace (catalog.inlined times) := by
  simp only [inlined, found, Option.elim_some]

namespace Acyclic

section

variable (acyclic : catalog.Acyclic)
include acyclic

/-- What holds of a definition whenever it holds of the names in it holds of all names. Not more
definitions are ever within each other than there are in the catalog. -/
theorem induction {motive : Nat → DefId → Prop}
    (undefined : ∀ times id, catalog.get? id = none → motive times id)
    (defined : ∀ times id definition, catalog.get? id = some definition →
      (∀ other, definition.shape.Mentions other → motive times other) → motive (times + 1) id)
    (id : DefId) {times : Nat} (enough : catalog.size ≤ times) : motive times id := by
  -- The definitions on the way so far are different from each other and from the one at hand.
  have along (times : Nat) : ∀ (way : List DefId) (id : DefId), catalog.idle way ≤ times →
      (∀ earlier ∈ way, Relation.TransGen catalog.Mentions earlier id) → motive times id := by
    induction times with
    | zero =>
      intro way id none leads
      rcases found : catalog.get? id with _ | definition
      · exact undefined 0 id found
      · by_cases onWay : id ∈ way
        · exact absurd (leads id onWay) (acyclic id)
        · have fewer := idle_cons_lt found onWay
          omega
    | succ times ih =>
      intro way id few leads
      rcases found : catalog.get? id with _ | definition
      · exact undefined _ id found
      · have offWay : id ∉ way := fun onWay => acyclic id (leads id onWay)
        have fewer := idle_cons_lt found offWay
        refine defined times id definition found fun other mentions =>
          ih (id :: way) other (by omega) ?_
        intro earlier member
        have last : catalog.Mentions id other := ⟨definition, found, mentions⟩
        rcases mem_cons.mp member with rfl | before
        · exact .single last
        · exact (leads earlier before).tail last
  exact along times [] id (le_trans idle_le_size enough) fun _ member => absurd member not_mem_nil

theorem inlined_stable (id : DefId) {times : Nat} (enough : catalog.size ≤ times) :
    catalog.inlined times id = catalog.inlined (times + 1) id := by
  refine acyclic.induction (motive := fun times id =>
    catalog.inlined times id = catalog.inlined (times + 1) id) (fun times id undefined => ?_)
      (fun times id definition found ih => ?_) id enough
  · rw [inlined_of_undefined undefined, inlined_of_undefined undefined]
  · rw [inlined_succ found, inlined_succ found, definition.shape.replace_congr ih]

/-- In place of a name stands its definition, with definitions in place of the names in it. -/
theorem inlined_eq (found : catalog.get? id = some definition) :
    catalog.inlined catalog.size id = catalog.inline definition.shape := by
  rw [acyclic.inlined_stable id le_rfl, inlined_succ found, inline]

/-- A name that is left is not defined. -/
theorem undefined_of_mentions {shape : Shape} (mentions : (catalog.inline shape).Mentions id) :
    catalog.get? id = none := by
  have left (other : DefId) : (catalog.inlined catalog.size other).Mentions id →
      catalog.get? id = none := by
    refine acyclic.induction (motive := fun _ other =>
      (catalog.inlined catalog.size other).Mentions id → catalog.get? id = none)
      (fun _ other undefined isLeft => ?_) (fun _ other definition found ih isLeft => ?_) other
      le_rfl
    · rw [inlined_of_undefined undefined] at isLeft
      cases isLeft
      exact undefined
    · rw [acyclic.inlined_eq found, inline] at isLeft
      rcases Shape.exists_mentions_of_replace definition.shape isLeft with ⟨next, isNext, inner⟩
      exact ih next isNext inner
  rcases Shape.exists_mentions_of_replace shape mentions with ⟨other, _, isLeft⟩
  exact left other isLeft

theorem fitsWords_inline (words : catalog.FitsWords) {shape : Shape}
    (shapeWords : shape.FitsWords) :
    (catalog.inline shape).FitsWords := by
  refine shapeWords.replace fun id _ => ?_
  refine acyclic.induction (motive := fun times id => (catalog.inlined times id).FitsWords)
    (fun times id undefined => ?_) (fun times id definition found ih => ?_) id le_rfl
  · rw [inlined_of_undefined undefined]
    exact .named id
  · rw [inlined_succ found]
    exact (words id definition found).replace ih

end

end Acyclic

end Catalog

end Recast
