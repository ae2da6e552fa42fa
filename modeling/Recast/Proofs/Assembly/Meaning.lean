import Recast.Proofs.Arena.Realize
import Recast.Proofs.Assembly.Tagged

/-!
# Layouts mean what shapes denote

Every draft renders its shape, and a layout means what the pattern spells that it is defined by.
References without bytes are the exception: arrays of things without bytes are not laid out, so that
references in them get lost.
-/

namespace Recast

open Shape Draft List

variable {catalog : Catalog} {machine : Machine} {shop later : Workshop} {shape : Shape}
  {id : LayoutId} {symbols : List Symbol}

theorem Draft.passes_renders (positive : machine.pointerSize ≠ 0) (inside : machine.FitsWords) :
    Passes catalog machine (Renders catalog machine) where
  unsized renders := renders.measures.unsized
  composed {settled shape draft offset} words shaped composed := by
    have measured := composed.mono fun _ _ => Renders.measures
    have leaves := composed.leaves trivial (fun _ some => some) (fun _ _ _ _ => trivial) fun _ _ =>
      Renders.leaves
    have measures :=
      @(passes_measures inside).composed settled shape draft offset words shaped measured
    refine ⟨measures, leaves, fun isSettled _ => ?_⟩
    cases composed with
    | scalar isDraft => exact Scalar.spells_draft isDraft
    | struct each grows => exact spells_struct each grows isSettled
    | union _ each => exact spells_union each isSettled
    | tagged fits isDeclared each isRest =>
      exact spells_tagged fits isDeclared each isRest isSettled
    | array drawn fixed isCount => exact spells_array drawn fixed isCount isSettled
    | sealed => exact Pattern.spells_sealed
  reference isWidth isUnsized := renders_reference positive inside isWidth isUnsized
  named := Renders.named

/-- A workshop with the memory of assemblies from one catalog that have all succeeded, in an arena
that may have been filled before. -/
inductive Workshop.Steady (catalog : Catalog) (machine : Machine) : Workshop → Prop
  | begun {shop : Workshop} (filled : shop.Filled) :
      Steady catalog machine { arena := shop.arena }
  | assembled {shop later : Workshop} {shape : Shape} {totalLength : Option Nat} {id : LayoutId}
      (words : shape.FitsWords)
      (lengthWords : ∀ length, totalLength = some length → length ≤ Extent.cap)
      (steady : Steady catalog machine shop)
      (done : shape.assemble catalog machine totalLength shop = .ok id later) :
      Steady catalog machine later

theorem Workshop.Steady.tells (machineWords : machine.FitsWords) (catalogWords : catalog.FitsWords)
    (steady : shop.Steady catalog machine) :
    shop.Sound False ∧ shop.Tells catalog machine [] := by
  induction steady with
  | begun filled => exact ⟨filled.sound.renewed, by constructor <;> simp⟩
  | @assembled _ _ _ _ _ words lengthWords _ done ih =>
    have ensures := (ensures_assemble_tells (passes_measures machineWords) machineWords
      catalogWords words lengthWords ih.1 ih.2).ok done
    exact ensures.2

/-- The layout of a shape means the values of the shape. -/
theorem Shape.means_assemble (positive : machine.pointerSize ≠ 0) (machineWords : machine.FitsWords)
    (catalogWords : catalog.FitsWords) (words : shape.FitsWords)
    (steady : shop.Steady catalog machine)
    (assembled : shape.assemble catalog machine none shop = .ok id later) :
    later.arena.Means id symbols ↔ shape.Denotes catalog machine symbols := by
  rcases steady.tells machineWords catalogWords with ⟨sound, tells⟩
  rcases assemble_eq_ok assembled with ⟨_, planned, isDraft, rfl, defined⟩
  have draws := draws_planIn (passes_renders positive machineWords) machineWords catalogWords words
  have ensures := (draws.draws [] {} 0 shop (by simp [Scope.FitsWords]) sound tells).ok isDraft
  have renders := ensures.2.2.2 rfl
  have inside : LayoutId.index ⟨planned.size⟩ < planned.arena.reserve.2.layouts.size := by
    simp [Arena.reserve, Workshop.size]
  refine (Arena.means_define inside renders.measures.shaped renders.leaves defined).trans ?_
  exact renders.spells (by simp [Underway.Settled]) symbols

def Catalog.nodes : Catalog :=
  let next : Shape := .reference (.named ⟨0⟩) ⟨8, .shared, .static⟩
  let node : Shape := .struct 16 8 [⟨8, next⟩, ⟨0, .scalar (.int 1)⟩]
  { entries := [(⟨0⟩, ⟨"Node", node⟩)], next := 1 }

/-- A node refers to nodes. -/
theorem Shape.means_assemble_node :
    ∃ later, (Shape.named ⟨0⟩).assemble .nodes {} none {} = .ok ⟨2⟩ later ∧
      ∀ symbols, later.arena.Means ⟨2⟩ symbols ↔ (Shape.named ⟨0⟩).Denotes .nodes {} symbols := by
  have isLayout : ((named ⟨0⟩).assemble .nodes {} none).run' {} = some ⟨2⟩ := by decide +kernel
  rcases outcome : (named ⟨0⟩).assemble .nodes {} none {} with ⟨id, later⟩ | ⟨_, later⟩
  · have isId : id = ⟨2⟩ := by
      delta EStateM.run' EStateM.run at isLayout
      simpa [outcome] using isLayout
    subst isId
    refine ⟨later, rfl, fun _ => ?_⟩
    exact means_assemble (by decide) Workshop.fitsWords_machine (.of_fits rfl) (.named _)
      (.begun .empty) outcome
  · delta EStateM.run' EStateM.run at isLayout
    simp [outcome] at isLayout

def Shape.singleReference : Shape :=
  .array (.reference (.scalar (.int 1)) ⟨1, .shared, .static⟩) (.exact 1)

/-- On a machine whose addresses take no bytes, the reference gets lost. -/
theorem Shape.not_means_assemble : let machine : Machine := { pointerSize := 0 }
    ∃ id later, Shape.singleReference.assemble {} machine none {} = .ok id later ∧
      later.arena.Means id [] ∧ ¬ Shape.singleReference.Denotes {} machine [] := by
  intro machine
  have closed : (singleReference.assemble {} machine none >>= fun id => do
      return decide ((← get).arena.stop id = (← get).arena.start id)).run' {} = some true := by
    decide +kernel
  rcases outcome : singleReference.assemble {} machine none {} with ⟨id, later⟩ | ⟨_, later⟩
  · have same : later.arena.stop id = later.arena.start id := by
      delta EStateM.run' EStateM.run at closed
      simp only [bind, EStateM.bind, outcome] at closed
      change some (decide (later.arena.stop id = later.arena.start id)) = some true at closed
      simpa using closed
    refine ⟨id, later, rfl, ⟨[], ⟨[], ?_, .nil⟩, rfl⟩, ?_⟩
    · rw [Arena.Walk, same]
      exact .nil _
    · rw [singleReference, denotes_array]
      rintro ⟨rounds, one, each, flat⟩
      rcases rounds with _ | ⟨round, _⟩
      · simp [Count.Admits] at one
      · have empty := (flatten_eq_nil_iff.mp flat) round mem_cons_self
        have denotes := each round mem_cons_self
        rw [empty] at denotes
        cases denotes
  · delta EStateM.run' EStateM.run at closed
    simp [bind, EStateM.bind, outcome] at closed

end Recast
