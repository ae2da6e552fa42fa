import Recast.Proofs.Arena.Indexed
import Recast.Proofs.Arena.Unfold

/-!
# Layouts for patterns

A layout is for a pattern if it unfolds it and has its size (`Arena.Lays`). So is a layout that was
defined by the pattern, and it stays so as the arena grows.
-/

namespace Recast.Arena

open Arena

variable {arena later : Arena} {id : LayoutId} {pattern : Pattern}

structure Lays (arena : Arena) (id : LayoutId) (pattern : Pattern) : Prop where
  inside : id.index < arena.layouts.size
  unfolds : arena.Unfolds (arena.stop id) (arena.start id) [pattern]
  size : (arena.layout id).size = pattern.size

section

variable (inside : id.index < arena.layouts.size)
include inside

theorem lays_define (defined : arena.define id pattern = .ok later) : later.Lays id pattern := by
  rcases define_eq_ok defined with ⟨_, _, _, isLayouts⟩
  refine ⟨?_, unfolds_define inside defined, ?_⟩
  · rw [size_layouts_define isLayouts]
    exact Nat.lt_add_right _ inside
  · rw [(layout_define isLayouts inside).1]
    rfl

theorem edges_define (defined : arena.define id pattern = .ok later) :
    ∃ fragment, pattern.compile arena.newSite = .ok fragment ∧ later.stop id = fragment.stop ∧
      later.edges (later.start id) = fragment.leaving ∧
      (fragment.stop ≠ arena.newSite.start → later.edges (later.stop id) = []) := by
  rcases define_eq_ok defined with ⟨fragment, compiled, isStates, isLayouts⟩
  have made := madeIn_define compiled isStates isLayouts inside
  rw [start, stop, (layout_define isLayouts inside).1]
  exact ⟨fragment, compiled, rfl, made.edges_start,
    made.edges_stop (Pattern.tidy_compile pattern ready_newSite compiled)⟩

end

section Keeps

variable (keeps : arena.Keeps later) (indexed : arena.WellIndexed)
include keeps indexed

theorem Keeps.edges_start (inside : id.index < arena.layouts.size) :
    later.edges (later.start id) = arena.edges (arena.start id) := by
  rw [edges, start, keeps.layout inside]
  exact congrArg State.edges (keeps.state (indexed.start_lt inside))

theorem Keeps.edges_stop (inside : id.index < arena.layouts.size) :
    later.edges (later.stop id) = arena.edges (arena.stop id) := by
  rw [edges, stop, keeps.layout inside]
  exact congrArg State.edges (keeps.state (indexed.stop_lt inside))

theorem Unfolds.kept {goal state : StateId} {patterns : List Pattern}
    (inside : state.index < arena.states.size) (unfolds : arena.Unfolds goal state patterns) :
    later.Unfolds goal state patterns := by
  let related (goal state : StateId) (patterns : List Pattern) : Prop :=
    arena.Unfolds goal state patterns ∧ state.index < arena.states.size
  have labels {state : StateId} {edge : Edge} {head : Pattern.Head}
      (member : edge ∈ arena.edges state) (labels : arena.Labels arena.Unfolds head edge.label) :
      later.Labels related head edge.label := by
    generalize isLabel : edge.label = label at labels
    cases labels with
    | token token => exact .token token
    | rep isBody isSize count =>
      have inside := indexed.body_lt member isLabel
      have same := keeps.layout inside
      refine .rep ⟨?_, ?_⟩ (same ▸ isSize) count
      · rw [stop, start, same]
        exact isBody
      · rw [start, same]
        exact indexed.start_lt inside
  refine ⟨related, ⟨?_, fun _ _ _ unfolds => unfolds.1.done⟩, unfolds, inside⟩
  rintro _ state _ ⟨unfolds, inside⟩
  have same : later.edges state = arena.edges state := congrArg State.edges (keeps.state inside)
  rw [same]
  constructor
  · intro edge member
    rcases unfolds.opens.forth edge member with ⟨head, rest, begins, isLabel, onward⟩
    exact ⟨head, rest, begins, labels member isLabel, onward, indexed.target_lt member⟩
  · intro head rest begins
    rcases unfolds.opens.back head rest begins with ⟨edge, member, isLabel, onward⟩
    exact ⟨edge, member, labels member isLabel, onward, indexed.target_lt member⟩

theorem Lays.kept (lays : arena.Lays id pattern) : later.Lays id pattern := by
  have same := keeps.layout lays.inside
  refine ⟨keeps.inside lays.inside, ?_, same ▸ lays.size⟩
  rw [stop, start, same]
  exact lays.unfolds.kept keeps indexed (indexed.start_lt lays.inside)

end Keeps

end Recast.Arena
