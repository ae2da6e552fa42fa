import Recast.Proofs.Arena.Tokens

/-!
# Numbers in range

A fragment only speaks of states and layouts that are given out to it. So the numbers that an arena
speaks of stay numbers of its own (`Arena.WellIndexed`) when a layout is reserved, and when one is
defined by a pattern with references to layouts of the arena. What was there before stays as it was
(`Arena.Keeps`).
-/

namespace Recast

variable {arena : Arena} {id : LayoutId} {edge : Edge}

/-- Every number of a state or a layout that the arena speaks of is the number of one of its own. -/
structure Arena.WellIndexed (arena : Arena) : Prop where
  targets : ∀ state ∈ arena.states, ∀ edge ∈ state.edges, edge.target.index < arena.states.size
  bodies : ∀ state ∈ arena.states, ∀ edge ∈ state.edges, ∀ body count,
    edge.label = .rep body count → body.index < arena.layouts.size
  referents : ∀ state ∈ arena.states, ∀ edge ∈ state.edges, ∀ target,
    edge.label = .token (.reference target) → target.referent.index < arena.layouts.size
  starts : ∀ layout ∈ arena.layouts, layout.start.index < arena.states.size
  stops : ∀ layout ∈ arena.layouts, layout.stop.index < arena.states.size

def Token.Inside (layouts : Nat) (token : Token) : Prop :=
  ∀ target, token = .reference target → target.referent.index < layouts

theorem Token.Proper.inside {layouts : Nat} {token : Token} (isProper : token.Proper layouts) :
    token.Inside layouts := by
  rintro _ rfl
  exact isProper

namespace Arena.WellIndexed

variable {larger : Arena}

theorem empty : WellIndexed {} where
  targets := by simp
  bodies := by simp
  referents := by simp
  starts := by simp
  stops := by simp

theorem extend {more : Array State} (indexed : arena.WellIndexed)
    (isStates : larger.states = arena.states ++ more)
    (grown : arena.layouts.size ≤ larger.layouts.size)
    (edges : ∀ state ∈ more, ∀ edge ∈ state.edges, edge.target.index < larger.states.size ∧
      (∀ body count, edge.label = .rep body count → body.index < larger.layouts.size) ∧
      ∀ target, edge.label = .token (.reference target) →
        target.referent.index < larger.layouts.size)
    (layouts : ∀ layout ∈ larger.layouts, layout ∈ arena.layouts ∨
      layout.start.index < larger.states.size ∧ layout.stop.index < larger.states.size) :
    larger.WellIndexed := by
  have states : arena.states.size ≤ larger.states.size := by simp [isStates]
  have either {state : State} (member : state ∈ larger.states) : state ∈ arena.states ∨
      state ∈ more := by
    rwa [isStates, Array.mem_append] at member
  constructor
  · intro state member edge isEdge
    rcases either member with old | new
    · exact Nat.lt_of_lt_of_le (indexed.targets state old edge isEdge) states
    · exact (edges state new edge isEdge).1
  · intro state member edge isEdge body count isBody
    rcases either member with old | new
    · exact Nat.lt_of_lt_of_le (indexed.bodies state old edge isEdge body count isBody) grown
    · exact (edges state new edge isEdge).2.1 body count isBody
  · intro state member edge isEdge target isReference
    rcases either member with old | new
    · exact Nat.lt_of_lt_of_le (indexed.referents state old edge isEdge target isReference) grown
    · exact (edges state new edge isEdge).2.2 target isReference
  · intro layout member
    rcases layouts layout member with old | new
    · exact Nat.lt_of_lt_of_le (indexed.starts layout old) states
    · exact new.1
  · intro layout member
    rcases layouts layout member with old | new
    · exact Nat.lt_of_lt_of_le (indexed.stops layout old) states
    · exact new.2

theorem reserve (indexed : arena.WellIndexed) : arena.reserve.2.WellIndexed := by
  refine indexed.extend rfl (by simp [Arena.reserve]) Layout.each_reservedStates fun _ member => ?_
  rcases Array.mem_push.mp member with before | rfl
  · exact .inl before
  · right
    simp [Layout.reserved, Arena.reserve, Layout.reservedStates]

theorem define {pattern : Pattern} (indexed : arena.WellIndexed)
    (leaves : pattern.Leaves (Token.Inside larger.layouts.size))
    (defined : arena.define id pattern = .ok larger) : larger.WellIndexed := by
  rcases define_eq_ok defined with ⟨fragment, compiled, isStates, isLayouts⟩
  have tidy := Pattern.tidy_compile pattern ready_newSite compiled
  have bears : ∀ state ∈ fragment.close arena.newSite, ∀ edge ∈ state.edges, edge.Bears _ :=
    (Pattern.bears_compile pattern _ leaves compiled).close
  have states := size_states_define isStates
  have layouts := size_layouts_define isLayouts
  refine indexed.extend isStates (by simp [isLayouts])
    (fun state member edge isEdge => ⟨?_, ?_, ?_⟩) ?_
  · rw [states]
    exact (tidy.edges.close state member edge isEdge).1.2
  · intro body count isBody
    rw [layouts]
    exact ((tidy.edges.close state member edge isEdge).2 body count isBody).2
  · exact fun target isReference => bears state member edge isEdge _ isReference target rfl
  · intro layout member
    rw [states]
    rw [isLayouts] at member
    rcases Array.mem_append.mp member with isOld | isNew
    · rcases Array.mem_or_eq_of_mem_setIfInBounds isOld with before | rfl
      · exact .inl before
      · exact .inr ⟨Nat.lt_add_right _ ready_newSite, tidy.stop_lt ready_newSite⟩
    · exact .inr ⟨(tidy.layouts layout isNew).1.2, (tidy.layouts layout isNew).2.2⟩

end Arena.WellIndexed

namespace Arena

variable {later : Arena}

/-- All states and layouts of the arena are there later, as they were. -/
structure Keeps (arena later : Arena) : Prop where
  states : ∀ index, index < arena.states.size → later.states[index]? = arena.states[index]?
  layouts : ∀ index, index < arena.layouts.size → later.layouts[index]? = arena.layouts[index]?

theorem Keeps.state (keeps : arena.Keeps later) {id : StateId}
    (inside : id.index < arena.states.size) :
    later.state id = arena.state id := by
  simp only [Arena.state, keeps.states id.index inside]

theorem Keeps.layout (keeps : arena.Keeps later) (inside : id.index < arena.layouts.size) :
    later.layout id = arena.layout id := by
  simp only [Arena.layout, keeps.layouts id.index inside]

theorem Keeps.inside (keeps : arena.Keeps later) (inside : id.index < arena.layouts.size) :
    id.index < later.layouts.size := by
  have found := (keeps.layouts id.index inside).trans (Array.getElem?_eq_getElem inside)
  exact (Array.getElem?_eq_some_iff.mp found).1

theorem exists_state {id : StateId} (member : edge ∈ arena.edges id) :
    ∃ state ∈ arena.states, edge ∈ state.edges := by
  rw [edges, state] at member
  rcases found : arena.states[id.index]? with _ | state <;> rw [found] at member
  · cases member
  · exact ⟨state, Array.mem_of_getElem? found, member⟩

theorem layout_mem (inside : id.index < arena.layouts.size) : arena.layout id ∈ arena.layouts := by
  simp only [layout, inside, Array.getElem?_eq_getElem, Option.getD_some, Array.getElem_mem]

namespace WellIndexed

variable (indexed : arena.WellIndexed) {state : StateId}

include indexed

section

variable (member : edge ∈ arena.edges state)
include member

theorem target_lt : edge.target.index < arena.states.size := by
  rcases exists_state member with ⟨found, isState, isEdge⟩
  exact indexed.targets found isState edge isEdge

theorem body_lt {body : LayoutId} {count : Count}
    (isBody : edge.label = .rep body count) : body.index < arena.layouts.size := by
  rcases exists_state member with ⟨found, isState, isEdge⟩
  exact indexed.bodies found isState edge isEdge body count isBody

theorem referent_lt {target : Reference} (isReference : edge.label = .token (.reference target)) :
    target.referent.index < arena.layouts.size := by
  rcases exists_state member with ⟨found, isState, isEdge⟩
  exact indexed.referents found isState edge isEdge target isReference

end

theorem start_lt (inside : id.index < arena.layouts.size) :
    (arena.start id).index < arena.states.size :=
  indexed.starts _ (layout_mem inside)

theorem stop_lt (inside : id.index < arena.layouts.size) :
    (arena.stop id).index < arena.states.size :=
  indexed.stops _ (layout_mem inside)

end WellIndexed

end Arena

end Recast
