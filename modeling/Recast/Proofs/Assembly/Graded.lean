import Recast.Proofs.Assembly.Meaning
import Recast.Proofs.Position.Left
import Recast.Proofs.Position.Live

/-!
# Sizes and offsets of assembled layouts

Assembly fails for what is wrong with a shape, never because a pattern cannot be compiled. In the
arenas that it leaves, with or without success, offsets grow along the edges of every layout by the
width of what an edge reads. So where a layout has a fixed size, that size is an exact sum, the
offset of the end, and the number of bytes of every value (`Workshop.Filled.run_measures`).
-/

namespace Recast

/-- Offsets count the bytes on every way to a state. -/
structure Arena.Measures (arena : Arena) (id : LayoutId) : Prop where
  start : arena.offset (arena.start id) = 0
  edge : ∀ state, arena.LeadsTo (arena.start id) state → ∀ edge ∈ arena.edges state,
    arena.offset edge.target = Extent.satAdd (arena.offset state) (arena.advance edge.label)
  /-- Where the layout has a fixed size, no sum is held at the cap. -/
  exact : ∀ size, (arena.layout id).size = some size →
    ∀ state, arena.LeadsTo (arena.start id) state → ∀ edge ∈ arena.edges state,
    arena.offset edge.target = arena.offset state + arena.advance edge.label ∧
      arena.offset edge.target ≤ size
  stop : ∀ size, (arena.layout id).size = some size → arena.offset (arena.stop id) = size
  walk : ∀ size, (arena.layout id).size = some size → ∀ tokens, arena.Walk id tokens →
    (tokens.map Token.width).sum = size

theorem Arena.Charts.measures {arena : Arena} {plot : Plot} {proper : Token → Prop} {id : LayoutId}
    (charts : arena.Charts plot proper) (inside : id.index < arena.layouts.size) :
    arena.Measures id where
  start := charts.offset_start_eq inside
  edge state leads edge member :=
    ((charts.state ((Reaches.start.leadsTo leads).owns charts inside)).edges edge
      member).advances.reached
  exact size isSize state leads edge member := by
    rcases ((charts.state ((Reaches.start.leadsTo leads).owns charts inside)).edges edge
      member).advances.exact size isSize with ⟨reached, bounded⟩
    exact ⟨reached, reached ▸ bounded⟩
  stop := (charts.layout inside).size
  walk size isSize tokens walk := by
    rw [Position.width_walk charts ⟨size, isSize⟩ inside walk, Arena.bytes, isSize,
      Option.getD_some]

namespace Workshop

variable {shop : Workshop}

theorem Job.fits_of_run (job : Job) (sound : shop.Sound False) {id : LayoutId} {later : Workshop}
    (done : job.run shop = .ok id later) :
    ∃ draft middle,
      job.shape.planIn job.catalog job.machine { totalLength := job.totalLength } 0 shop =
        .ok draft middle ∧
      (later.arena.layout id).size = draft.pattern.size ∧
      ∀ size, (later.arena.layout id).size = some size → draft.pattern.Fits size ∧
        size ≤ Extent.cap := by
  rcases Shape.size_of_assemble done with ⟨draft, planned, isDraft, _, isSize⟩
  have isSound := Shape.sound_planIn job.machineWords job.catalogWords job.words False.elim
  rcases (isSound { totalLength := job.totalLength } 0 shop job.lengthWords sound).ok isDraft with
    ⟨_, _, draftSound⟩
  refine ⟨draft, planned, isDraft, isSize, fun _ hasSize => ?_⟩
  exact draftSound.shaped.fits_of_size (isSize ▸ hasSize)

/-- Whatever a job leaves, its layouts are measured by their offsets. A job does not fail because
options differ in size, and the size of its layout is the exact sum of what the layout is made of.
-/
theorem Filled.run_measures (filled : shop.Filled) (job : Job) :
    (∀ offset later, job.run shop ≠ .error (.mismatchedAlternatives offset) later) ∧
    (∀ id later, job.run shop = .ok id later →
      ∃ draft middle,
        job.shape.planIn job.catalog job.machine { totalLength := job.totalLength } 0 shop =
          .ok draft middle ∧
        (later.arena.layout id).size = draft.pattern.size ∧
        ∀ size, (later.arena.layout id).size = some size → draft.pattern.Fits size ∧
          size ≤ Extent.cap) ∧
    ∀ id : LayoutId, id.index < (job.leave shop).size → (job.leave shop).arena.Measures id := by
  refine ⟨?_, fun id later => job.fits_of_run filled.sound, fun id inside => ?_⟩
  · intro offset later failed
    exact ((job.refers shop filled.sound).error failed).2.2 trivial
  · rcases (filled.leave job).sound.charted with ⟨_, charts⟩
    exact charts.measures inside

/-- The job of making the layout of a byte that is followed by as many booleans as there can be, and
more. -/
def Job.longTail : Job :=
  .ofShape (.struct 1 1 [⟨0, .scalar (.int 1)⟩, ⟨1, .array (.scalar .bool) (.atLeast Extent.cap)⟩])
    (.of_fits rfl)

/-- The end of the tail is held at the cap. -/
theorem run_measures_longTail : ((Job.longTail.leave {}).arena.layout ⟨0⟩).size = none ∧
    (Job.longTail.leave {}).arena.offset ((Job.longTail.leave {}).arena.stop ⟨0⟩) = Extent.cap ∧
    Workshop.Filled {} ∧
    (∀ offset later, Job.longTail.run {} ≠ .error (.mismatchedAlternatives offset) later) ∧
    ∀ id : LayoutId, id.index < (Job.longTail.leave {}).size →
      (Job.longTail.leave {}).arena.Measures id :=
  ⟨by decide +kernel, by decide +kernel, .empty, (Filled.run_measures .empty Job.longTail).1,
    (Filled.run_measures .empty Job.longTail).2.2⟩

end Workshop

end Recast
