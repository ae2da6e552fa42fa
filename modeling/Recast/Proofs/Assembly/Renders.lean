import Recast.Proofs.Assembly.Measures
import Recast.Proofs.Pattern.Numbers

/-!
# Drafts of shapes

A draft renders a shape if it has the right measures and its pattern spells the values of the shape.
What a pattern spells depends on how wide the references in it are; where a referent is not finished
yet, this may not be settled.
-/

namespace Recast

open Pattern

variable {catalog : Catalog} {machine : Machine} {settled : Prop} {draft : Draft}
  {symbols : List Symbol}

/-- The draft is one of the shape. If `settled` does not hold, nothing is said of its values. -/
structure Draft.Renders (catalog : Catalog) (machine : Machine) (settled : Prop) (shape : Shape)
    (draft : Draft) : Prop where
  measures : draft.Measures catalog machine shape
  leaves : draft.pattern.Leaves Token.Solid
  spells : settled → ∀ symbols, draft.pattern.Spells symbols ↔ shape.Denotes catalog machine symbols

theorem Scalar.spells_draft {scalar : Scalar} (isDraft : scalar.draft machine = .ok draft) :
    draft.pattern.Spells symbols ↔ (Shape.scalar scalar).Denotes catalog machine symbols := by
  rcases draft_eq_ok isDraft with ⟨contents, rfl⟩ | ⟨ranges, contents, written, rfl⟩
  · rw [spells_padding]
    constructor
    · rintro rfl
      exact .anything contents
    · intro denotes
      cases denotes with
      | number isRanges => simp [contents] at isRanges
      | anything => rfl
  · have denotes : (Shape.scalar scalar).Denotes catalog machine symbols ↔
        ∃ range ∈ ranges, ∃ number, (range.first ≤ number ∧ number ≤ range.last) ∧
          symbols = machine.byteOrder.encode scalar.size number := by
      constructor
      · intro denotes
        cases denotes with
        | number isRanges member between =>
          rw [contents, Contents.ranges.injEq] at isRanges
          subst isRanges
          exact ⟨_, member, _, between, rfl⟩
        | anything isAnything => simp [contents] at isAnything
      · rintro ⟨_, member, _, between, rfl⟩
        exact .number contents member between
    rw [denotes]
    by_cases empty : scalar.size = 0
    · -- Without bytes there is one value, as soon as there is a range.
      have encode (number : Nat) : machine.byteOrder.encode 0 number = [] := by
        cases machine.byteOrder <;> rfl
      simp only [empty, encode, ne_eq, not_true_eq_false, if_false]
      rcases ranges with _ | ⟨range, _⟩
      · simpa using not_spells_never
      · refine spells_unit.trans ⟨fun isEmpty => ?_, fun ⟨_, _, _, _, isEmpty⟩ => isEmpty⟩
        exact ⟨range, List.mem_cons_self, range.first,
          ⟨le_rfl, (written range List.mem_cons_self).1⟩, isEmpty⟩
    · simp only [ne_eq, empty, not_false_eq_true, if_true]
      exact spells_ofRanges written

theorem Shape.denotes_array {element : Shape} {count : Count} :
    (Shape.array element count).Denotes catalog machine symbols ↔
      count.Repeats (element.Denotes catalog machine) symbols := by
  constructor
  · intro denotes
    cases denotes with
    | array admitted each => exact ⟨_, admitted, each, rfl⟩
  · rintro ⟨_, admitted, each, rfl⟩
    exact .array admitted each

theorem Draft.spells_array {element : Shape} {count settledCount : Count} {width offset : Nat}
    (renders : draft.Renders catalog machine settled element) (fixed : draft.fixedSize = some width)
    (isCount : Plan.arrayCount offset width count none = .ok settledCount) (isSettled : settled) :
    (draft.pattern.replicate settledCount).Spells symbols ↔
      (Shape.array element count).Denotes catalog machine symbols := by
  rcases Plan.arrayCount_eq_ok isCount with ⟨rfl, _⟩ | ⟨_, _, _, _, _, _, ⟨⟩, _⟩
  rcases renders.measures.shaped.fits_of_size (draft.fixedSize_eq_some fixed).2 with ⟨fits, inside⟩
  rw [spells_replicate fits inside renders.leaves, Shape.denotes_array]
  exact Count.Repeats.congr (renders.spells isSettled)

theorem Pattern.spells_sealed {name : String} {size align : Nat} :
    (andThen (.leaf (.marker name)) (.data size)).Spells symbols ↔
      (Shape.sealed name size align).Denotes catalog machine symbols := by
  rw [spells_andThen]
  constructor
  · rintro ⟨_, _, ⟨_, ⟨⟩, rfl⟩, data, rfl⟩
    rcases spells_data.mp data with ⟨_, length, rfl⟩
    exact .sealed length
  · intro denotes
    cases denotes with
    | sealed length =>
      exact ⟨[], _, ⟨_, .marker name, rfl⟩, spells_data.mpr ⟨_, length, rfl⟩, rfl⟩

theorem Draft.renders_reference {referent : Shape} {guarantee : Guarantee} {layout : LayoutId}
    {width : Nat} {size : Option Nat} (positive : machine.pointerSize ≠ 0)
    (inside : machine.FitsWords)
    (isWidth : width = if size.isSome then machine.pointerSize else Extent.satMul
      machine.pointerSize 2)
    (isUnsized : settled → (size = none ↔ referent.Unsized catalog machine)) :
    Draft.Renders catalog machine settled (.reference referent guarantee)
      { pattern := .leaf (.reference ⟨guarantee, layout, width⟩),
        align := machine.pointerSize } := by
  have solid : width ≠ 0 := (machine.reference_width inside isWidth).1.mpr positive
  have spells (symbols : List Symbol) : (leaf (.reference ⟨guarantee, layout, width⟩)).Spells
      symbols ↔
        symbols = [.reference guarantee width] := by
    simp only [Pattern.Spells]
    constructor
    · rintro ⟨_, ⟨⟩, rfl⟩
      rfl
    · rintro rfl
      exact ⟨_, .reference _, rfl⟩
  refine ⟨measures_reference inside isWidth, solid, fun isSettled _ => ?_⟩
  rw [spells]
  cases size with
  | some =>
    rw [isWidth]
    have sized : ¬ referent.Unsized catalog machine := fun unsized => by
      simpa using (isUnsized isSettled).mpr unsized
    constructor
    · rintro rfl
      exact .thin sized
    · intro denotes
      cases denotes with
      | thin => rfl
      | wide unsized => exact absurd unsized sized
  | none =>
    rw [isWidth]
    have unsized := (isUnsized isSettled).mp rfl
    constructor
    · rintro rfl
      exact .wide unsized
    · intro denotes
      cases denotes with
      | thin sized => exact absurd unsized sized
      | wide => rfl

theorem Draft.Renders.named {id : DefId} {definition : Definition}
    (found : catalog.get? id = some definition)
    (renders : draft.Renders catalog machine settled definition.shape) :
    draft.Renders catalog machine settled (.named id) where
  measures := renders.measures.named found
  leaves := renders.leaves
  spells isSettled symbols := by
    rw [renders.spells isSettled]
    constructor
    · exact .named found
    · intro denotes
      cases denotes with
      | named isOther inner =>
        rw [found, Option.some.injEq] at isOther
        exact isOther ▸ inner

end Recast
