import Recast.Proofs.Assembly.Elsewhere
import Recast.Proofs.Inclusion.Greatest
import Recast.Proofs.Inclusion.Mirror
import Recast.Proofs.Question

/-!
# A shape can be read as itself

If a shape is assembled twice, the second layout is a copy of the first one further on in the arena
(`Shape.coupled_behind`, `Arena.Copied.correspondence`). Hence a shape can be read as itself,
whatever is assumed, and no assumption is needed for it.
-/

namespace Recast

open Assumptions Workshop Correspondence

variable {arena : Arena} {id : LayoutId} {outlives : Lifetime → Lifetime → Bool}

namespace Arena

variable {second : Arena} {plot plotToo : Plot}

def IsCopy (arena : Arena) (id copy : LayoutId) : Prop :=
  id.index < arena.layouts.size ∧ (Origins.behind arena).Body id copy

def OneIsCopy (arena : Arena) (left right : LayoutId) : Prop :=
  arena.IsCopy left right ∨ arena.IsCopy right left

theorem flip_oneIsCopy (arena : Arena) : flip arena.OneIsCopy = arena.OneIsCopy := by
  funext left right
  exact propext or_comm

namespace Copied

variable (copied : arena.Copied arena second) (charts : arena.Plotted plot)
  (chartsToo : second.Charts plotToo fun _ => True)

section Lookup

include copied

theorem state_eq {id : StateId} (inside : id.index < arena.states.size) :
    second.state id = arena.state id := by
  rcases copied.states with ⟨_, isStates, _⟩
  rw [Arena.state, Arena.state, isStates, Array.getElem?_append_left inside]

theorem layout_eq (inside : id.index < arena.layouts.size) :
    second.layout id = arena.layout id := by
  rcases copied.layouts with ⟨_, isLayouts, _⟩
  rw [Arena.layout, Arena.layout, isLayouts, Array.getElem?_append_left inside]

theorem isCopy_lt {copy : LayoutId} (isCopy : arena.IsCopy id copy) :
    id.index < second.layouts.size ∧ copy.index < second.layouts.size := by
  rcases copied.layouts with ⟨images, isLayouts, each⟩
  rcases isCopy with ⟨inside, distance, isId, isCopy⟩
  simp only [Origins.behind, Nat.zero_add] at isId isCopy
  rw [isLayouts, Array.size_append, ← each.size_eq]
  omega

end Lookup

section Edges

include charts

theorem edge_corresponds {state : StateId} {edge copy : Edge} (owns : arena.Owns plot id state)
    (isEdge : edge ∈ arena.edges state)
    (same : edge.Corresponds (Origins.behind arena).State (Origins.behind arena).Body
      (Origins.behind arena).Body copy) :
    edge.Corresponds (fun left right => (∃ id, arena.Owns plot id left) ∧
      (Origins.behind arena).State left right) arena.IsCopy arena.OneIsCopy copy := by
  refine ⟨?_, ⟨id, charts.owns_target owns isEdge⟩, same.target⟩
  have allowed := (charts.state owns).edges edge isEdge
  rcases edge with ⟨_, _⟩
  rcases copy with ⟨_, _⟩
  rcases same with ⟨sameLabel, _⟩
  simp only at sameLabel
  cases sameLabel with
  | rep same count => exact .rep ⟨(charts.repeats owns isEdge).inside, same⟩ count
  | token mirrors =>
    refine .token ?_
    cases mirrors with
    | cell contents => exact .cell contents
    | marker name => exact .marker name
    | @reference source _ same width referent =>
      cases allowed with
      | token isProper =>
        exact .reference same width (.inl ⟨isProper, referent⟩)

end Edges

include copied charts chartsToo

def correspondence : Correspondence second second arena.OneIsCopy where
  plot := plotToo
  plotToo := plotToo
  states left right := (∃ id, arena.Owns plot id left) ∧ (Origins.behind arena).State left right
  bodies := arena.IsCopy
  charts := chartsToo
  chartsToo := chartsToo
  edges := by
    rintro left right ⟨⟨id, owns⟩, same⟩
    rw [edges, edges, copied.state_eq owns.inside]
    exact forall₂_imp_of_mem (fun edge copy isEdge _ => edge_corresponds charts owns isEdge)
      (copied.state same).edges
  accepting := by
    rintro left right ⟨⟨id, owns⟩, same⟩
    rw [copied.state_eq owns.inside]
    exact (copied.state same).accepting
  start := by
    rintro left right ⟨inside, same⟩
    rw [start, copied.layout_eq inside]
    exact ⟨⟨left, charts.owns_start inside⟩, (copied.layout same inside).start⟩
  stop := by
    rintro left right ⟨inside, same⟩
    rw [stop, copied.layout_eq inside]
    exact ⟨⟨left, charts.owns_stop inside⟩, (copied.layout same inside).stop⟩
  size := by
    rintro left right ⟨inside, same⟩
    rw [copied.layout_eq inside]
    exact (copied.layout same inside).size
  statesOrdered := by
    rintro _ _ _ _ ⟨_, _, isLeft, isLeftToo⟩ ⟨_, _, isRight, isRightToo⟩
    rw [isLeft, isLeftToo, isRight, isRightToo]
    simp only [Nat.compare_eq_ite_lt, Nat.add_lt_add_iff_left]
  bodiesOrdered := by
    rintro _ _ _ _ ⟨_, _, isLeft, isLeftToo⟩ ⟨_, _, isRight, isRightToo⟩
    rw [isLeft, isLeftToo, isRight, isRightToo]
    simp only [Nat.compare_eq_ite_lt, Nat.add_lt_add_iff_left]

theorem tracks {copy : LayoutId} (isCopy : arena.IsCopy id copy) :
    (copied.correspondence charts chartsToo).Tracks (.root second id) (.root second copy) := by
  rcases copied.isCopy_lt isCopy with ⟨inside, insideToo⟩
  exact ⟨⟨(copied.correspondence charts chartsToo).start isCopy, .nil⟩,
    ⟨id, Position.within_root chartsToo inside⟩, copy, Position.within_root chartsToo insideToo⟩

theorem sustains (lives : ∀ lifetime, outlives lifetime lifetime) {inquiry : Inquiry}
    (oneIsCopy : arena.OneIsCopy inquiry.1 inquiry.2) :
    (rules outlives arena.OneIsCopy).Sustains second True inquiry := by
  rcases oneIsCopy with isCopy | isCopy
  · exact (copied.correspondence charts chartsToo).sustains lives (fun _ _ => Or.symm)
      (copied.tracks charts chartsToo isCopy)
  · have sustained : (rules outlives (flip arena.OneIsCopy)).Sustains second True inquiry :=
      (copied.correspondence charts chartsToo).symm.sustains lives (fun _ _ => Or.symm)
        (copied.tracks charts chartsToo isCopy).symm
    rwa [flip_oneIsCopy] at sustained

end Copied

end Arena

namespace Lifetime

/-- What outlives what: no more than always does, or as the host has declared. -/
inductive Declared : (Lifetime → Lifetime → Bool) → Prop
  | always : Declared outlivesAlways
  | bounds (declared : LifetimeBounds) : Declared declared.outlives

theorem Declared.refl (declared : Declared outlives) (lifetime : Lifetime) :
    outlives lifetime lifetime := by
  cases declared with
  | always => simp [outlivesAlways]
  | bounds => simp [LifetimeBounds.outlives, outlivesAlways]

end Lifetime

namespace Setting

variable {setting : Setting} {shape : Shape} {totalLength : Option Nat}

/-- What is assembled again, behind itself, is a copy. -/
theorem copied_of_assemble {copy : LayoutId} {second : Arena}
    (first : setting.assemble shape totalLength {} = .ok (id, arena))
    (again : setting.assemble shape totalLength arena = .ok (copy, second)) :
    arena.Copied arena second ∧ (Origins.behind arena).Body id copy := by
  have coupled := shape.coupled_behind setting.catalog setting.machine totalLength
    (⟨⟨⟨#[], by simp, .nil⟩, #[], by simp, .nil⟩, .nil⟩ : (Coupling.behind arena).linked
    {} { arena })
  rcases assemble_eq_ok first with ⟨_, outcome, _, rfl⟩
  rcases assemble_eq_ok again with ⟨_, outcomeToo, _, rfl⟩
  simp only [Coupling.Coupled, outcome, outcomeToo] at coupled
  exact ⟨coupled.1.1, coupled.2.2.2⟩

theorem exists_recast (words : setting.FitsWords) (shapeWords : shape.FitsWords)
    (declared : Lifetime.Declared setting.outlives)
    (sameLength : setting.destinationLength = setting.sourceLength)
    (assembles : setting.Assembles shape shape inquiry second) (assumed : Assumptions) :
    ∃ exercised, exercised ⊆ assumed ∧ Budget.ForLarge fun budget =>
      { setting with budget }.recast shape shape assumed = .ok exercised := by
  have twice := assembles
  rcases twice with ⟨arena, first, again⟩
  rw [sameLength] at again
  rcases copied_of_assemble first again with ⟨copied, isCopy⟩
  have notPlain (no : False) : shape.Plain setting.catalog := no.elim
  have firstSound := sound_assemble words shapeWords words.source notPlain sound_empty first
  have secondSound := sound_assemble words shapeWords words.source notPlain firstSound.1 again
  rcases firstSound.1.charted with ⟨plot, charts⟩
  rcases secondSound.1.charted with ⟨plotToo, chartsToo⟩
  have bounds : (setting.terms second assumed).Bounds True
      (rules setting.outlives arena.OneIsCopy) :=
    ⟨fun _ member => absurd member not_mem_empty, not_mem_empty, fun _ _ lives => lives,
      fun _ => copied.sustains (charts.mono fun _ => And.left) (chartsToo.mono fun _ _ => trivial)
        declared.refl⟩
  exact assembles.recast_accepts words shapeWords shapeWords bounds (.inl ⟨firstSound.2.1, isCopy⟩)

/-- A shape that can be assembled, twice in one arena, is accepted as itself, if the budget allows:
whatever is assumed, with nothing needed beyond that, and so without any assumption if none is made.
-/
theorem recast_self (words : setting.FitsWords) (shapeWords : shape.FitsWords)
    (declared : Lifetime.Declared setting.outlives)
    (sameLength : setting.destinationLength = setting.sourceLength)
    (assembles : setting.Assembles shape shape inquiry second) :
    (∀ assumed : Assumptions, ∃ exercised, exercised ⊆ assumed ∧ Budget.ForLarge fun budget =>
      { setting with budget }.recast shape shape assumed = .ok exercised) ∧
    Budget.ForLarge fun budget => { setting with budget }.recast shape shape ∅ = .ok ∅ := by
  have each := exists_recast words shapeWords declared sameLength assembles
  refine ⟨each, ?_⟩
  rcases each ∅ with ⟨exercised, subset, accepts⟩
  have nothing : exercised = ∅ := ext_mem fun assumption =>
    ⟨subset_iff.mp subset assumption, fun no => absurd no not_mem_empty⟩
  rw [nothing] at accepts
  exact accepts

/-- Three chains in a row are accepted as three chains in a row, though a chain refers to itself. -/
theorem recast_self_chains : let setting : Setting :=
      { catalog := .chains, outlives := LifetimeBounds.outlives ⟨[(.region 0, .region 1)]⟩ }
    let shape : Shape := .array (.named ⟨0⟩) (.exact 3)
    (setting.assembled? shape shape).isSome ∧
      (∀ assumed : Assumptions, ∃ exercised, exercised ⊆ assumed ∧ Budget.ForLarge fun budget =>
        { setting with budget }.recast shape shape assumed = .ok exercised) ∧
      Budget.ForLarge fun budget => { setting with budget }.recast shape shape ∅ = .ok ∅ := by
  intro setting shape
  have words : setting.FitsWords := ⟨.of_fits rfl, fitsWords_machine, fitsWords_noLength,
    fitsWords_noLength⟩
  have builds : (setting.assembled? shape shape).isSome := by decide +kernel
  rcases Option.isSome_iff_exists.mp builds with ⟨_, isFound⟩
  exact ⟨builds, recast_self words (.of_fits rfl) (.bounds _) rfl (assembles_of_assembled? isFound)⟩

end Setting

end Recast
