import Recast.Proofs.Arena.Fragments

/-!
# Fragments within arenas

A fragment is looked at within any arena that holds its states (`Fragment.HostedBy`). As the end of
an option of a choice is led to the common end of all options, the end of a fragment may stand under
another number in the arena. Whatever holds a fragment that is made from others holds these as well.
-/

namespace Recast

namespace Fragment

variable {fragment first second : Fragment} {site : Site} {arena : Arena} {stop : StateId}
  {offset : Nat}

/-- The states and layouts of the fragment are those of the arena, with its end under the number
`stop`. What leaves the end is left open. -/
structure HostedBy (fragment : Fragment) (site : Site) (arena : Arena) (stop : StateId) : Prop where
  states : ∀ (index : Nat) (state : State), fragment.states[index]? = some state →
    fragment.stop ≠ ⟨site.nextState + index⟩ → arena.state ⟨site.nextState + index⟩ =
      { state with edges := retargetEdges fragment.stop stop state.edges }
  layouts : ∀ (index : Nat) (layout : Layout), fragment.layouts[index]? = some layout →
    arena.layout ⟨site.nextLayout + index⟩ = layout
  stop : stop = fragment.stop ∨ stop.index < site.nextState
  inside : site.nextState + fragment.states.size ≤ arena.states.size
  room : site.nextLayout + fragment.layouts.size ≤ arena.layouts.size

theorem HostedBy.split_layouts {whole : Fragment} (hosted : whole.HostedBy site arena stop)
    (isLayouts : whole.layouts = first.layouts ++ second.layouts) :
    (∀ (index : Nat) (layout : Layout), first.layouts[index]? = some layout →
      arena.layout ⟨site.nextLayout + index⟩ = layout) ∧
    ∀ (index : Nat) (layout : Layout), second.layouts[index]? = some layout →
      arena.layout ⟨site.nextLayout + first.layouts.size + index⟩ = layout := by
  constructor
  · intro index layout found
    refine hosted.layouts index layout ?_
    rw [isLayouts, Array.getElem?_append_left (Array.getElem?_eq_some_iff.mp found).1]
    exact found
  · intro index layout found
    rw [Nat.add_assoc]
    refine hosted.layouts (first.layouts.size + index) layout ?_
    rw [isLayouts, Array.getElem?_append_right (Nat.le_add_right _ _), Nat.add_sub_cancel_left]
    exact found

/-- Of two fragments that are not empty, both are hosted wherever they are together, and the end of
the first is left over the edges of the second. -/
theorem HostedBy.of_followedBy (tidy : first.Tidy site)
    (next : second.Tidy (site.after first offset)) (moves : first.stop ≠ site.start)
    (goesOn : second.stop ≠ first.stop)
    (hosted : (first.followedBy site second).HostedBy site arena stop) :
    first.HostedBy site arena first.stop ∧ second.HostedBy (site.after first offset) arena stop ∧
      ∀ place old, first.stop = ⟨site.nextState + place⟩ → first.states[place]? = some old →
        arena.state first.stop =
          { old with edges := retargetEdges second.stop stop second.leaving } := by
  rcases next.stop_owned goesOn with ⟨last, lastState, isStop, isLast, _⟩
  have stopAt : (first.followedBy site second).stop = second.stop := rfl
  have layouts := hosted.split_layouts layouts_followedBy
  have inside := hosted.inside
  have room := hosted.room
  simp only [size_followedBy, layouts_followedBy, Array.size_append] at inside room
  -- The end of the second lies behind all that the first one owns.
  have behind {id : StateId} (owns : first.Owns site id) : id ≠ second.stop := by
    rintro rfl
    simp only [Owns, isStop, Site.after] at owns
    omega
  refine ⟨⟨?_, layouts.1, .inl rfl, by omega, by omega⟩,
    ⟨?_, layouts.2, ?_, by simp only [Site.after]; omega, by simp only [Site.after]; omega⟩, ?_⟩
  · intro index state found elsewhere
    have owns : first.Owns site ⟨site.nextState + index⟩ := owns_of_found found
    rw [hosted.states index state ((found_first moves tidy found).trans (by rw [if_neg elsewhere]))
      (stopAt ▸ (behind owns).symm), retargetEdges_self, stopAt,
      retargetEdges_of_ne fun _ member => behind (tidy.owns_target found member)]
  · intro index state found elsewhere
    have here := hosted.states (first.states.size + index) state (found_second.trans found)
    rw [← Nat.add_assoc] at here
    exact here elsewhere
  · rcases hosted.stop with same | below
    · exact .inl same
    · exact .inr (Nat.lt_add_right _ below)
  · intro place _ isPlace isOld
    have owns : first.Owns site first.stop := by
      rw [isPlace]
      exact owns_of_found isOld
    have here := hosted.states place _ (found_first moves tidy isOld) (by
      rw [stopAt, ← isPlace]
      exact (behind owns).symm)
    rw [← isPlace, stopAt, if_pos rfl] at here
    exact here

theorem HostedBy.of_beside {goal : StateId} (tidy : first.Tidy site)
    (below : goal.index < site.nextState) (stopsAt : second.stop = goal)
    (hosted : ((first.retarget goal).beside second).HostedBy site arena stop) :
    first.HostedBy site arena stop ∧ second.HostedBy (site.beside first) arena stop ∧
      retargetEdges goal stop ((first.retarget goal).beside second).leaving =
        retargetEdges first.stop stop first.leaving ++ retargetEdges second.stop stop
          second.leaving := by
  have stopAt : ((first.retarget goal).beside second).stop = goal := stopsAt
  have layouts := hosted.split_layouts (rfl : _ = first.layouts ++ second.layouts)
  have inside := hosted.inside
  have room := hosted.room
  simp only [size_option, layouts_option, Array.size_append] at inside room
  have notOwned {id : StateId} (owns : first.Owns site id) : id ≠ goal := by
    rintro rfl
    simp only [Owns] at owns
    omega
  have twice {edges : List Edge} (owned : ∀ edge ∈ edges, first.Owns site edge.target) :
      retargetEdges goal stop (retargetEdges first.stop goal edges) =
      retargetEdges first.stop stop edges :=
    retargetEdges_retargetEdges fun edge member => notOwned (owned edge member)
  refine ⟨⟨?_, layouts.1, ?_, by omega, by omega⟩,
    ⟨?_, layouts.2, ?_, by simp only [Site.beside]; omega, by simp only [Site.beside]; omega⟩, ?_⟩
  · intro index _ found _
    have here :=
      hosted.states index _ (found_option found) (stopAt ▸ (notOwned (owns_of_found found)).symm)
    rw [stopAt, twice fun _ member => tidy.owns_target found member] at here
    exact here
  · rcases hosted.stop with same | isBelow
    · exact .inr (same ▸ stopAt ▸ below)
    · exact .inr isBelow
  · intro index state found elsewhere
    have here := hosted.states (first.states.size + index) state (found_otherOption.trans found)
    rw [← Nat.add_assoc] at here
    exact here elsewhere
  · rcases hosted.stop with same | isBelow
    · exact .inl same
    · exact .inr (Nat.lt_add_right _ isBelow)
  · rw [stopsAt, ← twice fun _ => tidy.owns_leaving, ← retargetEdges_append]
    rfl

theorem HostedBy.of_choice (hosted : (fragment.choice offset).HostedBy site arena stop) :
    fragment.HostedBy { site with nextState := site.nextState + 1 } arena stop := by
  have inside := hosted.inside
  rw [size_choice, ← Nat.add_assoc] at inside
  refine ⟨?_, hosted.layouts, ?_, inside, hosted.room⟩
  · intro index state found elsewhere
    have here := hosted.states (1 + index) state (found_choice.trans found)
    rw [← Nat.add_assoc] at here
    exact here elsewhere
  · rcases hosted.stop with same | below
    · exact .inl same
    · exact .inr (Nat.lt_succ_of_lt below)

/-- A layout of its own: the states of the fragment follow its start, and the end is accepting. -/
structure MadeIn (fragment : Fragment) (site : Site) (arena : Arena) : Prop where
  hosted : fragment.HostedBy site arena fragment.stop
  start : arena.state site.start =
    { offset := site.offset, edges := fragment.leaving,
      accepting := decide (fragment.stop = site.start) }
  stop : ∀ place old, fragment.stop = ⟨site.nextState + place⟩ →
    fragment.states[place]? = some old → arena.state fragment.stop = { old with accepting := true }

theorem madeIn_of_found (follows : site.nextState = site.start.index + 1)
    (tidy : fragment.Tidy site) (found : ∀ index state, (fragment.close site)[index]? = some state →
      arena.state ⟨site.start.index + index⟩ = state)
    (layouts : ∀ (index : Nat) (layout : Layout), fragment.layouts[index]? = some layout →
      arena.layout ⟨site.nextLayout + index⟩ = layout)
    (inside : site.nextState + fragment.states.size ≤ arena.states.size)
    (room : site.nextLayout + fragment.layouts.size ≤ arena.layouts.size) :
    fragment.MadeIn site arena := by
  have inner {index : Nat} {state : State} (isState : fragment.states[index]? = some state) :
      arena.state ⟨site.nextState + index⟩ = { state with
        accepting := state.accepting || decide (fragment.stop = ⟨site.nextState + index⟩) } := by
    rw [← found _ _ (found_close_inner follows isState), follows, Nat.add_assoc]
  refine ⟨⟨?_, layouts, .inl rfl, inside, room⟩, ?_, ?_⟩
  · intro _ _ isState elsewhere
    rw [inner isState, retargetEdges_self]
    simp [elsewhere]
  · exact found 0 _ (found_close_start (tidy.start_le (by omega)))
  · intro _ _ isPlace isOld
    rw [isPlace, inner isOld]
    simp [isPlace]

theorem MadeIn.edges_start (made : fragment.MadeIn site arena) :
    arena.edges site.start = fragment.leaving :=
  congrArg State.edges made.start

theorem MadeIn.edges_stop (made : fragment.MadeIn site arena) (tidy : fragment.Tidy site)
    (moves : fragment.stop ≠ site.start) : arena.edges fragment.stop = [] := by
  rcases tidy.stop_owned moves with ⟨place, old, isPlace, isOld, noEdges, _⟩
  rw [Arena.edges, made.stop place old isPlace isOld]
  exact noEdges

theorem HostedBy.of_repeated {record : Layout} {count : Count} (tidy : fragment.Tidy site.body)
    (hosted : (fragment.repeated site record count offset).HostedBy site arena stop) :
    fragment.MadeIn site.body arena ∧ arena.layout ⟨site.nextLayout⟩ = record := by
  have inside := hosted.inside
  have room := hosted.room
  simp only [size_repeated, layouts_repeated, Array.size_append, List.size_toArray,
    List.length_singleton] at inside room
  have layouts := hosted.split_layouts
    (rfl : _ = ({ layouts := #[record], stop := stop } : Fragment).layouts ++ fragment.layouts)
  refine ⟨madeIn_of_found rfl tidy ?_ layouts.2 ?_ ?_, layouts.1 0 record rfl⟩
  · intro index state found
    have small := (Array.getElem?_eq_some_iff.mp found).1
    rw [size_close] at small
    have notStop : (fragment.repeated site record count offset).stop ≠
        ⟨site.nextState + (2 + index)⟩ := by
      rw [stop_repeated]
      simp
      omega
    -- No state of the body leads to the end of the repeat.
    have owned := tidy.edges.close state (Array.mem_of_getElem? found)
    have here := hosted.states _ state (found_body found) notStop
    rw [retargetEdges_of_ne fun edge member => (owned edge member).1.repeated.2,
      ← Nat.add_assoc] at here
    exact here
  · simp only [Site.body]
    omega
  · simp only [Site.body]
    omega

end Fragment

namespace Arena

variable {arena larger : Arena}

theorem state_append {more : Array State} (isStates : larger.states = arena.states ++ more) :
    (∀ state, state.index < arena.states.size → larger.state state = arena.state state) ∧
      ∀ index state, more[index]? = some state →
        larger.state ⟨arena.states.size + index⟩ = state := by
  constructor
  · intro _ inside
    simp only [Arena.state, isStates, Array.getElem?_append_left inside]
  · intro _ _ found
    rw [Arena.state, isStates, Array.getElem?_append_right (Nat.le_add_right _ _),
      Nat.add_sub_cancel_left, found]
    rfl

theorem madeIn_define {id : LayoutId} {pattern : Pattern} {fragment : Fragment}
    (compiled : pattern.compile arena.newSite = .ok fragment)
    (isStates : larger.states = arena.states ++ fragment.close arena.newSite)
    (isLayouts : larger.layouts = arena.layouts.setIfInBounds id.index
      (pattern.record arena.newSite fragment) ++ fragment.layouts)
    (inside : id.index < arena.layouts.size) :
    fragment.MadeIn arena.newSite larger :=
  Fragment.madeIn_of_found rfl (Pattern.tidy_compile pattern ready_newSite compiled)
    (state_append isStates).2 (layout_define isLayouts inside).2.2
    (Nat.le_of_eq (size_states_define isStates).symm)
    (Nat.le_of_eq (size_layouts_define isLayouts).symm)

end Arena

end Recast
