import Recast.Proofs.Assembly.Meaning

/-!
# Plain shapes and the workshop

The plan of a plain shape comes to a draft, or to a defect, with no look at the workshop and no
change to it (`Shape.Plain.aloof_planIn`). So a plain shape is laid out by the same pattern wherever
it is assembled, and with no other layouts than its own and those of its repeats.
-/

namespace Recast

open Assembly Catalog

variable {referentOf : DefId → Assembly LayoutId}

/-- The plan comes to a verdict that does not depend on the workshop, and leaves the workshop as it
is. -/
def Plan.Aloof (plan : Plan) : Prop :=
  ∀ scope offset, ∃ verdict, plan scope offset = ofExcept verdict

variable {catalog : Catalog} {machine : Machine} {shape : Shape}

theorem Recipe.exists_run_eq {α : Type} {recipe : Recipe α} {planOf : Shape → Plan}
    (all : recipe.All fun part => (planOf part).Aloof) (scope : Scope) :
    ∃ verdict, recipe.run planOf scope = ofExcept verdict := by
  induction recipe with
  | done verdict => exact ⟨verdict, rfl⟩
  | draw _ offset _ ih =>
    rcases all.1 scope offset with ⟨verdict, isVerdict⟩
    rw [Recipe.run, isVerdict]
    cases verdict with
    | ok draft => exact ih draft (all.2 draft)
    | error defect => exact ⟨.error defect, rfl⟩

theorem Shape.Plain.aloof_plan {expand : DefId → Plan}
    (expands : ∀ id, (Shape.named id).Plain catalog → (expand id).Aloof)
    (plain : shape.Plain catalog) :
    (shape.plan machine expand referentOf).Aloof := by
  induction shape using Shape.recipe_induction with
  | direct _ direct ih =>
    intro _ _
    rw [Shape.plan_eq_run]
    apply Recipe.exists_run_eq
    exact Shape.all_recipe direct fun part isPart => ih part isPart (plain.parts part isPart)
  | reference => cases plain
  | named id => exact expands id plain

theorem Catalog.aloof_expand (expansions : Nat) {id : DefId}
    (plain : (Shape.named id).Plain catalog) :
    (catalog.expand machine referentOf expansions id).Aloof := by
  induction expansions generalizing id with
  | zero =>
    intro scope _
    rw [expand]
    cases catalog.find id with
    | error defect => exact ⟨.error defect, rfl⟩
    | ok definition =>
      by_cases inPlace : id ∈ scope.inPlace
      · refine ⟨.error (.infiniteSize definition.name), ?_⟩
        simp only [inPlace, if_true]
        rfl
      · refine ⟨.error (.unnamedRecursion definition.name), ?_⟩
        simp only [inPlace, if_false]
        rfl
  | succ left ih =>
    intro scope offset
    rw [expand]
    cases found : catalog.find id with
    | error defect => exact ⟨.error defect, rfl⟩
    | ok definition =>
      have definitionPlain : definition.shape.Plain catalog := by
        cases plain with
        | named each => exact each definition (find_eq_ok found)
      by_cases inPlace : id ∈ scope.inPlace
      · refine ⟨.error (.infiniteSize definition.name), ?_⟩
        simp only [inPlace, if_true]
        rfl
      by_cases underWay : id ∈ scope.underWay
      · refine ⟨.error (.unnamedRecursion definition.name), ?_⟩
        simp only [inPlace, underWay, if_true, if_false]
        rfl
      have aloof : (definition.shape.plan machine (catalog.expand machine referentOf left)
          referentOf).Aloof :=
        definitionPlain.aloof_plan fun _ => ih
      rcases aloof { scope with inPlace := id :: scope.inPlace, underWay := id :: scope.underWay }
        offset with
        ⟨verdict, isVerdict⟩
      refine ⟨verdict, ?_⟩
      simp only [inPlace, underWay, if_false, ← isVerdict]
      rfl

theorem Shape.Plain.aloof_planIn (plain : shape.Plain catalog) (machine : Machine) :
    (shape.planIn catalog machine).Aloof :=
  plain.aloof_plan fun _ => aloof_expand catalog.size

end Recast
