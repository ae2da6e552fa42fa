import Recast.Proofs.Inclusion.Acceptance
import Recast.Proofs.Inclusion.Alongside

/-!
# Arenas only grow

Whatever is assembled in an arena, and be it that an assembly fails: the numbers that the arena
speaks of are numbers of its own (`Arena.WellIndexed`), and all that was there before is as it was
(`Arena.Keeps`). So a check between old layouts goes the same way, each state being its own
counterpart.
-/

namespace Recast

open Position Arena

namespace Arena

variable {arena later : Arena} {plot : Plot}

/-- The states that a layout is made of: those that can be reached from its start, in the bodies of
repeats and in referents as well. -/
inductive Spans (arena : Arena) : LayoutId → StateId → Prop
  | start (id : LayoutId) : Spans arena id (arena.start id)
  | stop (id : LayoutId) : Spans arena id (arena.stop id)
  | edge {id : LayoutId} {state : StateId} {edge : Edge} (spans : Spans arena id state)
      (member : edge ∈ arena.edges state) : Spans arena id edge.target
  | body {id body : LayoutId} {state inner : StateId} {edge : Edge} {count : Count}
      (spans : Spans arena id state) (member : edge ∈ arena.edges state)
      (isBody : edge.label = .rep body count) (within : Spans arena body inner) :
        Spans arena id inner
  | referent {id : LayoutId} {state inner : StateId} {edge : Edge} {target : Reference}
      (spans : Spans arena id state) (member : edge ∈ arena.edges state)
      (isReference : edge.label = .token (.reference target))
      (within : Spans arena target.referent inner) : Spans arena id inner

theorem WellIndexed.spans_lt (indexed : arena.WellIndexed) {id : LayoutId} {state : StateId}
    (inside : id.index < arena.layouts.size) (spans : arena.Spans id state) :
    state.index < arena.states.size := by
  induction spans with
  | start => exact indexed.start_lt inside
  | stop => exact indexed.stop_lt inside
  | edge _ member => exact indexed.target_lt member
  | body _ member isBody _ _ ih => exact ih (indexed.body_lt member isBody)
  | referent _ member isReference _ _ ih => exact ih (indexed.referent_lt member isReference)

theorem Keeps.spans_iff (keeps : arena.Keeps later) (indexed : arena.WellIndexed) {id : LayoutId}
    {state : StateId} (inside : id.index < arena.layouts.size) :
    later.Spans id state ↔ arena.Spans id state := by
  constructor
  · intro spans
    induction spans with
    | start id =>
      rw [start, keeps.layout inside]
      exact .start id
    | stop id =>
      rw [stop, keeps.layout inside]
      exact .stop id
    | edge _ member ih =>
      rw [edges, keeps.state (indexed.spans_lt inside (ih inside))] at member
      exact .edge (ih inside) member
    | body _ member isBody _ ih ihWithin =>
      rw [edges, keeps.state (indexed.spans_lt inside (ih inside))] at member
      exact .body (ih inside) member isBody (ihWithin (indexed.body_lt member isBody))
    | referent _ member isReference _ ih ihWithin =>
      rw [edges, keeps.state (indexed.spans_lt inside (ih inside))] at member
      exact .referent (ih inside) member isReference
        (ihWithin (indexed.referent_lt member isReference))
  · intro spans
    induction spans with
    | start id =>
      rw [start, ← keeps.layout inside]
      exact .start id
    | stop id =>
      rw [stop, ← keeps.layout inside]
      exact .stop id
    | edge spans member ih =>
      rw [edges, ← keeps.state (indexed.spans_lt inside spans)] at member
      exact .edge (ih inside) member
    | body spans member isBody _ ih ihWithin =>
      have within := ihWithin (indexed.body_lt member isBody)
      rw [edges, ← keeps.state (indexed.spans_lt inside spans)] at member
      exact .body (ih inside) member isBody within
    | referent spans member isReference _ ih ihWithin =>
      have within := ihWithin (indexed.referent_lt member isReference)
      rw [edges, ← keeps.state (indexed.spans_lt inside spans)] at member
      exact .referent (ih inside) member isReference within

/-- Each state and each layout of an arena is its own counterpart in an arena that keeps it. -/
def Keeps.correspondence {plotToo : Plot} (keeps : arena.Keeps later) (indexed : arena.WellIndexed)
    (charts : arena.Charts plot fun _ => True) (chartsToo : later.Charts plotToo fun _ => True) :
    Correspondence arena later fun id image => id = image ∧ id.index < arena.layouts.size where
  plot := plot
  plotToo := plotToo
  states state image := state = image ∧ state.index < arena.states.size
  bodies id image := id = image ∧ id.index < arena.layouts.size
  charts := charts
  chartsToo := chartsToo
  edges := by
    rintro state _ ⟨rfl, inside⟩
    rw [edges, edges, keeps.state inside]
    refine List.forall₂_same.mpr fun edge member => ⟨?_, rfl, indexed.target_lt member⟩
    rcases edge with ⟨token | ⟨body, count⟩, target⟩
    · refine .token ?_
      rcases token with contents | reference | name
      · exact .cell contents
      · exact .reference rfl rfl ⟨rfl, indexed.referent_lt member rfl⟩
      · exact .marker name
    · exact .rep ⟨rfl, indexed.body_lt member rfl⟩ count
  accepting := by
    rintro state _ ⟨rfl, inside⟩
    rw [keeps.state inside]
  start := by
    rintro id _ ⟨rfl, inside⟩
    refine ⟨?_, indexed.start_lt inside⟩
    rw [start, start, keeps.layout inside]
  stop := by
    rintro id _ ⟨rfl, inside⟩
    refine ⟨?_, indexed.stop_lt inside⟩
    rw [stop, stop, keeps.layout inside]
  size := by
    rintro id _ ⟨rfl, inside⟩
    rw [keeps.layout inside]
  statesOrdered := by
    rintro left right _ _ ⟨rfl, _⟩ ⟨rfl, _⟩
    rfl
  bodiesOrdered := by
    rintro left right _ _ ⟨rfl, _⟩ ⟨rfl, _⟩
    rfl

end Arena

namespace Terms

variable {terms : Terms} {later : Arena} {plot plotToo : Plot}

theorem includesBy_of_keeps (keeps : terms.arena.Keeps later) (indexed : terms.arena.WellIndexed)
    (charts : terms.arena.Charts plot fun _ => True)
    (chartsToo : later.Charts plotToo fun _ => True) (levels : Nat) {source destination : LayoutId}
    (sourceInside : source.index < terms.arena.layouts.size)
    (destinationInside : destination.index < terms.arena.layouts.size) :
    terms.includesBy terms.step levels source destination =
      (terms.inArena later).includesBy (terms.inArena later).step levels source destination := by
  let same := keeps.correspondence indexed charts chartsToo
  have grown (id : LayoutId) (inside : id.index < terms.arena.layouts.size) :
      id.index < later.layouts.size := by
    have found := keeps.layouts id.index inside
    rw [Array.getElem?_eq_getElem inside] at found
    exact (Array.getElem?_eq_some_iff.mp found).1
  have tracks (id : LayoutId) (inside : id.index < terms.arena.layouts.size) :
      same.Tracks (.root terms.arena id) (.root later id) :=
    ⟨⟨same.start ⟨rfl, inside⟩, .nil⟩, ⟨id, within_root charts inside⟩, id,
      within_root chartsToo (grown id inside)⟩
  induction levels generalizing source destination with
  | zero =>
    funext progress
    rw [includesBy, includesBy]
  | succ levels ih =>
    have answers (left right leftToo rightToo : LayoutId)
        (sameLeft : left = leftToo ∧ left.index < terms.arena.layouts.size)
        (sameRight : right = rightToo ∧ right.index < terms.arena.layouts.size) :
        terms.includesBy terms.step levels left right =
          (terms.inArena later).includesBy (terms.inArena later).step levels leftToo rightToo := by
      rw [← sameLeft.1, ← sameRight.1]
      exact ih sameLeft.2 sameRight.2
    have surveys :=
      survey_eq_survey answers (tracks source sourceInside) (tracks destination destinationInside)
    funext progress
    rw [includesBy, includesBy]
    simp only [surveys]

end Terms

namespace Workshop

variable {shop : Workshop}

theorem Filled.extends_leave (filled : shop.Filled) (job : Job) :
    shop.Extends shop.size (job.leave shop) := by
  have refers := job.refers shop filled.sound
  rcases outcome : job.run shop with ⟨_, later⟩ | ⟨_, later⟩ <;> simp only [Job.leave, outcome]
  · exact (refers.ok outcome).1
  · exact (refers.error outcome).1

/-- In an arena that assemblies have filled, one more assembly, be it that it fails, leaves all
numbers in range. Each layout that was there before has its record and is made of the same states,
each of them as it was; and a check between two such layouts has the outcome and the progress that
it had before. -/
theorem Filled.leave_keeps (filled : shop.Filled) (job : Job) : (job.leave shop).arena.WellIndexed ∧
    (∀ id : LayoutId, id.index < shop.size →
      (job.leave shop).arena.layouts[id.index]? = shop.arena.layouts[id.index]? ∧
      ∀ state, ((job.leave shop).arena.Spans id state ↔ shop.arena.Spans id state) ∧
        (shop.arena.Spans id state →
          (job.leave shop).arena.states[state.index]? = shop.arena.states[state.index]?)) ∧
    ∀ (terms : Terms) (inquiry : Inquiry) (progress : Progress), terms.arena = shop.arena →
      terms.Inside inquiry →
      { terms with arena := (job.leave shop).arena }.check inquiry.1 inquiry.2 progress =
        terms.check inquiry.1 inquiry.2 progress := by
  have keeps := (filled.extends_leave job).keeps
  have indexed := filled.sound.indexed
  have laterSound := (filled.leave job).sound
  refine ⟨laterSound.indexed, fun id inside => ⟨keeps.layouts id.index inside, fun state => ?_⟩, ?_⟩
  · refine ⟨keeps.spans_iff indexed inside, fun spans => ?_⟩
    exact keeps.states state.index (indexed.spans_lt inside spans)
  · intro terms inquiry progress isArena inside
    rcases filled.sound.charted with ⟨plot, charts⟩
    rcases laterSound.charted with ⟨plotToo, chartsToo⟩
    rw [← isArena] at keeps indexed charts
    have same := Terms.includesBy_of_keeps keeps indexed (charts.mono fun _ _ => trivial)
      (chartsToo.mono fun _ _ => trivial) terms.budget.maxDepth inside.1 inside.2
    simp only [Terms.check, Terms.checkBy, same]

end Workshop

section Sample

open Workshop

/-- The job of making the layout of a struct whose second field overlaps the first. It fails, but
not before the layout of the first field's referent is made. -/
def Workshop.Job.overlapping : Job :=
  .ofShape
    (.struct 8 8 [⟨0, .reference (.scalar .bool) ⟨1, .shared, .static⟩⟩, ⟨4, .scalar (.int 4)⟩])
    (.of_fits rfl)

/-- A failed assembly adds a layout to the arena, and changes none of those that were there. -/
theorem Workshop.leave_keeps_references :
    (Job.overlapping.leave references).size = references.size + 1 ∧
    (Job.overlapping.leave references).arena.WellIndexed ∧
    (∀ id : LayoutId, id.index < references.size →
      (Job.overlapping.leave references).arena.layouts[id.index]? =
        references.arena.layouts[id.index]? ∧
      ∀ state, ((Job.overlapping.leave references).arena.Spans id state ↔
        references.arena.Spans id state) ∧ (references.arena.Spans id state →
          (Job.overlapping.leave references).arena.states[state.index]? =
            references.arena.states[state.index]?)) ∧
    ∀ (terms : Terms) (inquiry : Inquiry) (progress : Progress), terms.arena = references.arena →
      terms.Inside inquiry →
      { terms with arena := (Job.overlapping.leave references).arena }.check inquiry.1 inquiry.2
        progress = terms.check inquiry.1 inquiry.2 progress :=
  ⟨by decide +kernel, Filled.leave_keeps filled_references Job.overlapping⟩

end Sample

end Recast
