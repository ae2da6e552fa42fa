import Recast.Arena.Automaton

/-!
# What patterns become

How the fragment of a pattern is made from the fragments of its parts (`Pattern.compile_rep_eq_ok`
and the like), and which states it then has. A fragment leads to its own states only, repeats its
own layouts only, and ends at one of its own states unless it is empty (`Fragment.Tidy`,
`Pattern.tidy_compile`).
-/

namespace Recast

open List Layout

variable {fragment : Fragment} {site : Site} {goal : StateId} {record : Layout} {count : Count}
  {index : Nat} {state : State}

theorem found_singleton {α : Type} {only item : α} (found : #[only][index]? = some item) :
    index = 0 ∧ item = only := by
  rcases Array.getElem?_eq_some_iff.mp found with ⟨inside, same⟩
  have first : index = 0 := Nat.lt_one_iff.mp inside
  subst first
  exact ⟨rfl, same.symm⟩

theorem forall_mem_modify {states : Array State} {holds : State → Prop} {change : State → State}
    (index : Nat) (each : ∀ state ∈ states, holds state)
    (kept : ∀ state, holds state → holds (change state)) :
    ∀ state ∈ states.modify index change, holds state := by
  intro state member
  rcases Array.mem_iff_getElem?.mp member with ⟨_, found⟩
  rw [Array.getElem?_modify] at found
  split at found
  · rcases Option.map_eq_some_iff.mp found with ⟨before, isBefore, rfl⟩
    exact kept before (each before (Array.mem_of_getElem? isBefore))
  · exact each state (Array.mem_of_getElem? found)

namespace Fragment

variable {first second : Fragment} {offset : Nat}

section Edges

variable {source middle target : StateId} {edges more : List Edge} {edge : Edge}

theorem retargetEdges_of_ne (elsewhere : ∀ edge ∈ edges, edge.target ≠ source) :
    retargetEdges source target edges = edges := by
  rw [retargetEdges]
  calc
    _ = edges.map id := map_congr_left fun edge member => by simp [elsewhere edge member]
    _ = edges := map_id edges

@[simp]
theorem retargetEdges_self : retargetEdges source source edges = edges := by
  rw [retargetEdges]
  calc
    _ = edges.map id := map_congr_left fun edge _ => by
      split
      · rename_i same
        cases edge
        simp_all
      · rfl
    _ = edges := map_id edges

@[simp]
theorem retargetEdges_nil : retargetEdges source target [] = [] := rfl

theorem retargetEdges_append :
    retargetEdges source target (edges ++ more) =
      retargetEdges source target edges ++ retargetEdges source target more := by
  simp [retargetEdges]

theorem retargetEdges_ne_nil (some : edges ≠ []) : retargetEdges source target edges ≠ [] := by
  simpa [retargetEdges] using some

theorem retargetEdges_retargetEdges (elsewhere : ∀ edge ∈ edges, edge.target ≠ middle) :
    retargetEdges middle target (retargetEdges source middle edges) =
      retargetEdges source target edges := by
  simp only [retargetEdges, map_map]
  refine map_congr_left fun edge member => ?_
  by_cases same : edge.target = source
  · simp [same]
  · simp [same, elsewhere edge member]

end Edges

def choice (fragment : Fragment) (offset : Nat) : Fragment :=
  { fragment with states := #[{ offset := offset }] ++ fragment.states }

/-- What the body of a repeat becomes, together with the edge that repeats it. -/
def repeated (fragment : Fragment) (site : Site) (record : Layout) (count : Count) (offset : Nat) :
    Fragment :=
  let states := reservedStates ++ fragment.close site.body
  let exit := Fragment.edge { site with nextState := site.nextState + states.size }
    (.rep ⟨site.nextLayout⟩ count) offset
  { exit with states := states ++ exit.states, layouts := #[record] ++ fragment.layouts }

@[simp]
theorem size_close : (fragment.close site).size = 1 + fragment.states.size := by
  simp [close]

@[simp]
theorem size_followedBy :
    (first.followedBy site second).states.size = first.states.size + second.states.size := by
  simp only [followedBy, extendStop]
  split <;> simp

@[simp]
theorem layouts_followedBy :
    (first.followedBy site second).layouts = first.layouts ++ second.layouts := by
  simp only [followedBy, extendStop]
  split <;> rfl

@[simp]
theorem size_option :
    ((first.retarget goal).beside second).states.size = first.states.size + second.states.size := by
  simp [beside, retarget]

@[simp]
theorem layouts_option :
    ((first.retarget goal).beside second).layouts = first.layouts ++ second.layouts :=
  rfl

@[simp]
theorem size_choice : (fragment.choice offset).states.size = 1 + fragment.states.size := by
  simp [choice]

@[simp]
theorem size_repeated :
    (fragment.repeated site record count offset).states.size = 3 + fragment.states.size + 1 := by
  simp [repeated, reservedStates, edge]
  omega

@[simp]
theorem layouts_repeated :
    (fragment.repeated site record count offset).layouts = #[record] ++ fragment.layouts := rfl

theorem stop_repeated :
    (fragment.repeated site record count offset).stop =
      ⟨site.nextState + (3 + fragment.states.size)⟩ := by
  simp [repeated, reservedStates, edge, Site.fresh]
  omega

theorem leaving_repeated :
    (fragment.repeated site record count offset).leaving =
      [⟨.rep ⟨site.nextLayout⟩ count, ⟨site.nextState + (3 + fragment.states.size)⟩⟩] := by
  simp [repeated, reservedStates, edge, Site.fresh]
  omega

theorem found_second :
    (first.followedBy site second).states[first.states.size + index]? = second.states[index]? := by
  simp only [followedBy, extendStop]
  split <;> rw [Array.getElem?_append_right (by simp)] <;> simp

theorem found_option (found : first.states[index]? = some state) :
    ((first.retarget goal).beside second).states[index]? =
      some { state with edges := retargetEdges first.stop goal state.edges } := by
  have inside : index < (first.retarget goal).states.size := by
    simpa [retarget] using (Array.getElem?_eq_some_iff.mp found).1
  rw [beside, Array.getElem?_append_left inside]
  simp [retarget, found]

theorem found_otherOption :
    ((first.retarget goal).beside second).states[first.states.size + index]? =
      second.states[index]? := by
  rw [beside, Array.getElem?_append_right (by simp [retarget])]
  simp [retarget]

theorem found_choice : (fragment.choice offset).states[1 + index]? = fragment.states[index]? := by
  rw [choice, Array.getElem?_append_right (by simp)]
  simp

theorem found_choice_zero : (fragment.choice offset).states[0]? = some { offset := offset } := by
  rw [choice, Array.getElem?_append_left (by simp)]
  rfl

theorem found_close_start (behind : site.start.index ≤ fragment.stop.index) :
    (fragment.close site)[0]? = some
      { offset := site.offset, edges := fragment.leaving,
        accepting := decide (fragment.stop = site.start) } := by
  have first : (#[({ offset := site.offset, edges := fragment.leaving } : State)] ++
      fragment.states)[0]? = some { offset := site.offset, edges := fragment.leaving } := by
    rw [Array.getElem?_append_left (by simp)]
    rfl
  have here : fragment.stop.index - site.start.index = 0 ↔ fragment.stop = site.start := by
    rcases site with ⟨⟨start⟩, _⟩
    rcases fragment with ⟨_, _, _, ⟨stop⟩⟩
    simp only [StateId.mk.injEq] at behind ⊢
    omega
  simp only [close, Array.getElem?_modify, first, here]
  split <;> simp [*]

theorem found_close_inner (follows : site.nextState = site.start.index + 1)
    (found : fragment.states[index]? = some state) :
    (fragment.close site)[1 + index]? = some { state with
      accepting := state.accepting || decide (fragment.stop = ⟨site.nextState + index⟩) } := by
  have shifted : (#[({ offset := site.offset, edges := fragment.leaving } : State)] ++
      fragment.states)[1 + index]? = some state := by
    rw [Array.getElem?_append_right (by simp)]
    simpa using found
  have here : fragment.stop.index - site.start.index = 1 + index ↔
      fragment.stop = ⟨site.nextState + index⟩ := by
    rcases fragment with ⟨_, _, _, ⟨stop⟩⟩
    simp only [StateId.mk.injEq]
    omega
  simp only [close, Array.getElem?_modify, shifted, here]
  split
  · rename_i atStop
    simp [atStop]
  · rename_i elsewhere
    simp [elsewhere]

theorem found_body (found : (fragment.close site.body)[index]? = some state) :
    (fragment.repeated site record count offset).states[2 + index]? = some state := by
  have inside := (Array.getElem?_eq_some_iff.mp found).1
  simp only [repeated]
  rw [Array.getElem?_append_left (by simpa [reservedStates] using inside),
    Array.getElem?_append_right (by simp [reservedStates])]
  simpa [reservedStates] using found

theorem exit_repeated :
    (fragment.repeated site record count offset).states[3 + fragment.states.size]? =
      some { offset := offset } := by
  have size : (reservedStates ++ fragment.close site.body).size = 3 + fragment.states.size := by
    simp [reservedStates]
    omega
  simp only [repeated, edge]
  rw [Array.getElem?_append_right (Nat.le_of_eq size), size, Nat.sub_self]
  rfl

section Each

variable {meets weaker : Edge → Prop}

structure Each (fragment : Fragment) (meets : Edge → Prop) : Prop where
  leaving : ∀ edge ∈ fragment.leaving, meets edge
  states : ∀ state ∈ fragment.states, ∀ edge ∈ state.edges, meets edge

theorem Each.mono (imp : ∀ edge, meets edge → weaker edge) (each : fragment.Each meets) :
    fragment.Each weaker :=
  ⟨fun edge member => imp edge (each.leaving edge member),
    fun state isState edge member => imp edge (each.states state isState edge member)⟩

theorem each_nothing : (nothing site).Each meets := ⟨by simp [nothing], by simp [nothing]⟩

theorem each_deadEnd : (deadEnd site).Each meets := ⟨by simp [deadEnd], by simp [deadEnd]⟩

theorem each_edge {label : Label} (holds : meets ⟨label, site.fresh⟩) :
    (edge site label offset).Each meets :=
  ⟨by simpa [edge] using holds, by simp [edge]⟩

theorem Each.followedBy (each : first.Each meets) (eachToo : second.Each meets) :
    (first.followedBy site second).Each meets := by
  have extended : (first.extendStop site second.leaving).Each meets := by
    rw [extendStop]
    split
    · exact ⟨forall_mem_append.mpr ⟨each.leaving, eachToo.leaving⟩, each.states⟩
    · refine ⟨each.leaving, ?_⟩
      dsimp only
      exact forall_mem_modify _ each.states fun _ holds =>
        forall_mem_append.mpr ⟨holds, eachToo.leaving⟩
  refine ⟨extended.leaving, fun state member => ?_⟩
  rcases Array.mem_append.mp member with inFirst | inSecond
  · exact extended.states state inFirst
  · exact eachToo.states state inSecond

theorem Each.retarget (imp : ∀ edge, meets edge → weaker edge)
    (led : ∀ edge, meets edge → weaker { edge with target := goal }) (each : fragment.Each meets) :
    (fragment.retarget goal).Each weaker := by
  have edges {edges : List Edge} (holds : ∀ edge ∈ edges, meets edge) :
      ∀ edge ∈ retargetEdges fragment.stop goal edges, weaker edge := by
    intro _ member
    rcases mem_map.mp member with ⟨old, isOld, rfl⟩
    split
    · exact led old (holds old isOld)
    · exact imp old (holds old isOld)
  refine ⟨edges each.leaving, fun _ member => ?_⟩
  rcases Array.mem_map.mp member with ⟨before, isBefore, rfl⟩
  exact edges (each.states before isBefore)

theorem Each.beside (each : first.Each meets) (eachToo : second.Each meets) :
    (first.beside second).Each meets := by
  refine ⟨forall_mem_append.mpr ⟨each.leaving, eachToo.leaving⟩, fun state member => ?_⟩
  rcases Array.mem_append.mp member with inFirst | inSecond
  · exact each.states state inFirst
  · exact eachToo.states state inSecond

theorem Each.choice (each : fragment.Each meets) : (fragment.choice offset).Each meets := by
  refine ⟨each.leaving, fun state member => ?_⟩
  rcases Array.mem_append.mp member with isStop | inside
  · rw [mem_singleton.mp (mem_toArray.mp isStop)]
    simp
  · exact each.states state inside

theorem Each.close (each : fragment.Each meets) :
    ∀ state ∈ fragment.close site, ∀ edge ∈ state.edges, meets edge := by
  refine forall_mem_modify _ (fun state member => ?_) fun _ holds => holds
  rcases Array.mem_append.mp member with isStart | inside
  · rw [mem_singleton.mp (mem_toArray.mp isStart)]
    exact each.leaving
  · exact each.states state inside

theorem Each.repeated (each : fragment.Each meets)
    (exit : meets ⟨.rep ⟨site.nextLayout⟩ count, ⟨site.nextState + (3 + fragment.states.size)⟩⟩) :
    (fragment.repeated site record count offset).Each meets := by
  refine ⟨?_, fun state member => ?_⟩
  · rw [leaving_repeated]
    exact forall_mem_singleton.mpr exit
  · simp only [Fragment.repeated, Array.mem_append] at member
    rcases member with (isReserved | inside) | isLast
    · simp only [reservedStates, mem_toArray, mem_cons, not_mem_nil, or_false] at isReserved
      rcases isReserved with rfl | rfl <;> simp
    · exact each.close state inside
    · rw [mem_singleton.mp (mem_toArray.mp isLast)]
      simp

end Each

def Owns (fragment : Fragment) (site : Site) (id : StateId) : Prop :=
  site.nextState ≤ id.index ∧ id.index < site.nextState + fragment.states.size

/-- The edge leads to a certain state, and a layout that it repeats has one of the numbers given out
to the fragment. -/
def Keeps (fragment : Fragment) (site : Site) (reached : StateId → Prop) (edge : Edge) : Prop :=
  reached edge.target ∧ ∀ body count, edge.label = .rep body count →
    site.nextLayout ≤ body.index ∧ body.index < site.nextLayout + fragment.layouts.size

/-- The fragment is empty, or it ends at a state of its own that nothing leaves. -/
def Ends (fragment : Fragment) (site : Site) : Prop :=
  fragment = nothing site ∨ ∃ index state, fragment.stop = ⟨site.nextState + index⟩ ∧
    fragment.states[index]? = some state ∧ state.edges = [] ∧ state.accepting = false

/-- The fragment leads to its own states only, as do its layouts, and ends at one of them unless it
is empty. -/
structure Tidy (fragment : Fragment) (site : Site) : Prop where
  edges : fragment.Each (fragment.Keeps site (fragment.Owns site))
  layouts : ∀ layout ∈ fragment.layouts, fragment.Owns site layout.start ∧
    fragment.Owns site layout.stop
  ends : fragment.Ends site

/-- The options of a choice lead to their own states and to the common end. -/
structure Aside (fragment : Fragment) (site : Site) (goal : StateId) : Prop where
  edges : fragment.Each (fragment.Keeps site fun id => fragment.Owns site id ∨ id = goal)
  layouts : ∀ layout ∈ fragment.layouts, fragment.Owns site layout.start ∧
    fragment.Owns site layout.stop
  stop : fragment.stop = goal

theorem index_lt (found : fragment.states[index]? = some state) :
    site.nextState + index < site.nextState + fragment.states.size :=
  Nat.add_lt_add_left (Array.getElem?_eq_some_iff.mp found).1 _

theorem owns_of_found (found : fragment.states[index]? = some state) :
    fragment.Owns site ⟨site.nextState + index⟩ :=
  ⟨Nat.le_add_right _ _, index_lt found⟩

section

variable (tidy : fragment.Tidy site)
include tidy

theorem Tidy.owns_leaving {edge : Edge} (member : edge ∈ fragment.leaving) :
    fragment.Owns site edge.target :=
  (tidy.edges.leaving edge member).1

theorem Tidy.owns_target {edge : Edge} (found : fragment.states[index]? = some state)
    (member : edge ∈ state.edges) :
    fragment.Owns site edge.target :=
  (tidy.edges.states state (Array.mem_of_getElem? found) edge member).1

theorem Tidy.eq_nothing (ready : site.start.index < site.nextState)
    (still : fragment.stop = site.start) :
    fragment = nothing site := by
  rcases tidy.ends with empty | ⟨_, _, isStop, _⟩
  · exact empty
  · rw [← still, isStop] at ready
    exact absurd ready (by simp)

theorem Tidy.stop_owned (moves : fragment.stop ≠ site.start) :
    ∃ index state, fragment.stop = ⟨site.nextState + index⟩ ∧
      fragment.states[index]? = some state ∧ state.edges = [] ∧ state.accepting = false := by
  rcases tidy.ends with empty | owned
  · rw [empty] at moves
    exact absurd rfl moves
  · exact owned

theorem Tidy.stop_lt (ready : site.start.index < site.nextState) :
    fragment.stop.index < site.nextState + fragment.states.size := by
  rcases tidy.ends with empty | ⟨_, _, isStop, found, _⟩
  · rw [empty]
    exact Nat.lt_add_right _ ready
  · rw [isStop]
    exact index_lt found

end

theorem Tidy.start_le (ready : site.start.index < site.nextState) (tidy : fragment.Tidy site) :
    site.start.index ≤ fragment.stop.index := by
  rcases tidy.ends with empty | ⟨_, _, isStop, _⟩
  · rw [empty]
    exact Nat.le_refl _
  · rw [isStop]
    exact Nat.le_add_right_of_le (Nat.le_of_lt ready)

theorem fresh_ne_start (ready : site.start.index < site.nextState) : site.fresh ≠ site.start := by
  intro same
  rw [← same] at ready
  exact Nat.lt_irrefl _ ready

theorem tidy_nothing : (nothing site).Tidy site := ⟨each_nothing, by simp [nothing], .inl rfl⟩

theorem tidy_deadEnd : (deadEnd site).Tidy site :=
  ⟨each_deadEnd, by simp [deadEnd], .inr ⟨0, _, rfl, rfl, rfl, rfl⟩⟩

theorem tidy_token {token : Token} : (edge site (.token token) offset).Tidy site := by
  refine ⟨each_edge ⟨?_, by simp⟩, by simp [edge], .inr ⟨0, _, rfl, rfl, rfl, rfl⟩⟩
  simp [edge, Owns, Site.fresh]

theorem nothing_followedBy : (nothing site).followedBy site second = second := by
  simp [followedBy, extendStop, nothing]

theorem followedBy_nothing (ready : site.start.index < site.nextState) (tidy : first.Tidy site) :
    first.followedBy site (nothing (site.after first offset)) = first := by
  by_cases still : first.stop = site.start
  · rw [tidy.eq_nothing ready still]
    exact nothing_followedBy
  · have same (place : Nat) (states : Array State) :
        (states.modify place fun state => { state with edges := state.edges ++ [] }) = states := by
      refine Array.ext_getElem? fun _ => ?_
      rw [Array.getElem?_modify]
      split <;> simp
    simp only [followedBy, extendStop, nothing, if_neg still, Site.after, same, Array.append_empty]

theorem leaving_followedBy (moves : first.stop ≠ site.start) :
    (first.followedBy site second).leaving = first.leaving := by
  simp only [followedBy, extendStop, if_neg moves]

theorem found_first (moves : first.stop ≠ site.start) (tidy : first.Tidy site)
    (found : first.states[index]? = some state) :
    (first.followedBy site second).states[index]? = some (if first.stop = ⟨site.nextState + index⟩
      then { state with edges := second.leaving } else state) := by
  rcases tidy.stop_owned moves with ⟨place, old, isStop, isOld, noEdges, _⟩
  have inside := (Array.getElem?_eq_some_iff.mp found).1
  have isPlace : first.stop.index - site.nextState = place := by simp [isStop]
  have here : first.stop = ⟨site.nextState + index⟩ ↔ place = index := by
    simp [isStop]
  simp only [followedBy, extendStop, if_neg moves, isPlace, here]
  rw [Array.getElem?_append_left (by simpa using inside), Array.getElem?_modify, found]
  split
  · rename_i same
    subst same
    rw [isOld, Option.some.injEq] at found
    subst found
    simp [noEdges]
  · rfl

theorem Owns.inFirst {id : StateId} (owns : first.Owns site id) :
    (first.followedBy site second).Owns site id := by
  simp only [Owns, size_followedBy] at owns ⊢
  omega

theorem Owns.inSecond {id : StateId} (owns : second.Owns (site.after first offset) id) :
    (first.followedBy site second).Owns site id := by
  simp only [Owns, Site.after, size_followedBy] at owns ⊢
  omega

theorem Tidy.followedBy (ready : site.start.index < site.nextState) (tidy : first.Tidy site)
    (next : second.Tidy (site.after first offset)) : (first.followedBy site second).Tidy site := by
  refine ⟨(tidy.edges.mono ?_).followedBy (next.edges.mono ?_), ?_, ?_⟩
  · rintro edge ⟨owns, bodies⟩
    refine ⟨owns.inFirst, fun body count label => ?_⟩
    have := bodies body count label
    simp only [layouts_followedBy, Array.size_append]
    omega
  · rintro edge ⟨owns, bodies⟩
    refine ⟨owns.inSecond, fun body count label => ?_⟩
    have := bodies body count label
    simp only [Site.after] at this
    simp only [layouts_followedBy, Array.size_append]
    omega
  · intro layout member
    rw [layouts_followedBy] at member
    rcases Array.mem_append.mp member with inFirst | inSecond
    · exact (tidy.layouts layout inFirst).imp Owns.inFirst Owns.inFirst
    · exact (next.layouts layout inSecond).imp Owns.inSecond Owns.inSecond
  · rcases next.ends with empty | ⟨index, state, isStop, found, final⟩
    · rw [empty, followedBy_nothing ready tidy]
      exact tidy.ends
    · right
      refine ⟨first.states.size + index, state, ?_, found_second.trans found, final⟩
      rw [← Nat.add_assoc]
      exact isStop

theorem Owns.inOption {id : StateId} (owns : first.Owns site id) :
    ((first.retarget goal).beside second).Owns site id := by
  simp only [Owns, size_option] at owns ⊢
  omega

theorem Owns.inOthers {id : StateId} (owns : second.Owns (site.beside first) id) :
    ((first.retarget goal).beside second).Owns site id := by
  simp only [Owns, Site.beside, size_option] at owns ⊢
  omega

theorem Aside.beside (tidy : first.Tidy site) (others : second.Aside (site.beside first) goal) :
    ((first.retarget goal).beside second).Aside site goal := by
  have bodies {edge : Edge} {reached : StateId → Prop} (keeps : first.Keeps site reached edge)
      (body : LayoutId) (count : Count) (label : edge.label = .rep body count) :
      site.nextLayout ≤ body.index ∧
      body.index < site.nextLayout + ((first.retarget goal).beside second).layouts.size := by
    have := keeps.2 body count label
    simp only [layouts_option, Array.size_append]
    omega
  refine ⟨(tidy.edges.retarget ?_ ?_).beside (others.edges.mono ?_), ?_, others.stop⟩
  · exact fun edge keeps => ⟨.inl keeps.1.inOption, bodies keeps⟩
  · exact fun edge keeps => ⟨.inr rfl, fun body count label => bodies keeps body count label⟩
  · rintro edge ⟨reached, inside⟩
    refine ⟨reached.imp Owns.inOthers id, fun body count label => ?_⟩
    have := inside body count label
    simp only [Site.beside] at this
    simp only [layouts_option, Array.size_append]
    omega
  · intro layout member
    rcases Array.mem_append.mp member with inFirst | inSecond
    · exact (tidy.layouts layout inFirst).imp Owns.inOption Owns.inOption
    · exact (others.layouts layout inSecond).imp Owns.inOthers Owns.inOthers

theorem Owns.inChoice {id : StateId}
    (owns : fragment.Owns { site with nextState := site.nextState + 1 } id) :
    (fragment.choice offset).Owns site id := by
  simp only [Owns, size_choice] at owns ⊢
  omega

theorem tidy_choice
    (aside : fragment.Aside { site with nextState := site.nextState + 1 } site.fresh) :
    (fragment.choice offset).Tidy site := by
  refine ⟨(aside.edges.mono ?_).choice, fun layout member => ?_,
    .inr ⟨0, { offset := offset }, aside.stop, found_choice_zero, rfl, rfl⟩⟩
  · rintro edge ⟨owns | atGoal, bodies⟩
    · exact ⟨owns.inChoice, bodies⟩
    · refine ⟨?_, bodies⟩
      rw [atGoal]
      simp only [Owns, size_choice, Site.fresh]
      omega
  · exact (aside.layouts layout member).imp Owns.inChoice Owns.inChoice

theorem ready_body : site.body.start.index < site.body.nextState := Nat.lt_succ_self _

theorem Owns.repeated {id : StateId} (owns : fragment.Owns site.body id) :
    (fragment.repeated site record count offset).Owns site id ∧
      id ≠ (fragment.repeated site record count offset).stop := by
  simp only [Owns, Site.body, size_repeated, stop_repeated] at owns ⊢
  refine ⟨by omega, ?_⟩
  rintro rfl
  simp only at owns
  omega

theorem tidy_repeated (tidy : fragment.Tidy site.body) (start : record.start = site.body.start)
    (stop : record.stop = fragment.stop) :
    (fragment.repeated site record count offset).Tidy site := by
  have inside : site.nextState ≤ site.body.start.index ∧
      site.body.start.index < site.nextState + (3 + fragment.states.size + 1) := by
    simp only [Site.body]
    omega
  refine ⟨(tidy.edges.mono ?_).repeated ?_, ?_, .inr ⟨_, _, stop_repeated, exit_repeated, rfl, rfl⟩⟩
  · rintro edge ⟨owns, bodies⟩
    refine ⟨owns.repeated.1, fun body count label => ?_⟩
    have := bodies body count label
    simp only [Site.body] at this
    simp only [layouts_repeated, Array.size_append, size_toArray, length_singleton]
    omega
  · refine ⟨?_, fun body count label => ?_⟩
    · simp only [Owns, size_repeated]
      omega
    · simp only [Label.rep.injEq] at label
      simp only [← label.1, layouts_repeated, Array.size_append, size_toArray, length_singleton]
      omega
  · intro layout member
    rcases Array.mem_append.mp member with isOwn | inside
    · rw [mem_singleton.mp (mem_toArray.mp isOwn), start, stop]
      have behind := tidy.start_le ready_body
      have before := tidy.stop_lt ready_body
      simp only [Owns, size_repeated]
      simp only [Site.body] at behind before ⊢
      omega
    · exact ⟨(tidy.layouts layout inside).1.repeated.1, (tidy.layouts layout inside).2.repeated.1⟩

end Fragment

namespace Pattern

open Fragment

variable {body part option : Pattern} {options rest : List Pattern}

theorem compile_alt_eq_ok (compiled : (alt options).compile site = .ok fragment) :
    ((alt options).size.getD 0 = 0 ∧
      (anyHasValue options ∧ fragment = nothing site ∨
        anyHasValue options = false ∧ fragment = deadEnd site)) ∨
    ((alt options).size.getD 0 ≠ 0 ∧
      ∃ others, compileAlt options { site with nextState := site.nextState + 1 } site.fresh =
        .ok others ∧
          fragment = others.choice (Extent.satAdd site.offset ((alt options).size.getD 0))) := by
  simp only [compile] at compiled
  split at compiled
  · rename_i noBytes
    refine .inl ⟨noBytes, ?_⟩
    rw [Except.ok.injEq] at compiled
    rw [← compiled]
    cases anyHasValue options <;> simp
  · rename_i bytes
    split at compiled
    · simp at compiled
    · rename_i others isOthers
      rw [Except.ok.injEq] at compiled
      exact .inr ⟨bytes, others, isOthers, compiled.symm⟩

theorem compile_rep_eq_ok (compiled : (rep body count).compile site = .ok fragment) :
    ∃ inner, body.compile site.body = .ok inner ∧
      fragment = inner.repeated site (body.record site.body inner) count
        (Extent.satAdd site.offset (Extent.satMul (body.size.getD 0) count.least)) := by
  simp only [compile] at compiled
  split at compiled
  · simp at compiled
  · rename_i inner isInner
    rw [Except.ok.injEq] at compiled
    exact ⟨inner, isInner, compiled.symm⟩

theorem compileSeq_cons_eq_ok (compiled : compileSeq (part :: rest) site = .ok fragment) :
    ∃ first second, part.compile site = .ok first ∧
      compileSeq rest (site.after first (Extent.satAdd site.offset (part.size.getD 0))) =
        .ok second ∧
      fragment = first.followedBy site second := by
  simp only [compileSeq] at compiled
  split at compiled
  · simp at compiled
  · rename_i first isFirst
    split at compiled
    · simp at compiled
    · rename_i second isSecond
      rw [Except.ok.injEq] at compiled
      exact ⟨first, second, isFirst, isSecond, compiled.symm⟩

theorem compileAlt_cons_eq_ok (compiled : compileAlt (option :: rest) site goal = .ok fragment) :
    ∃ first others, option.compile site = .ok first ∧ first.stop ≠ site.start ∧
      compileAlt rest (site.beside first) goal = .ok others ∧
      fragment = (first.retarget goal).beside others := by
  simp only [compileAlt] at compiled
  split at compiled
  · simp at compiled
  · rename_i first isFirst
    split at compiled
    · simp at compiled
    · rename_i moves
      split at compiled
      · simp at compiled
      · rename_i others isOthers
        rw [Except.ok.injEq] at compiled
        exact ⟨first, others, isFirst, moves, isOthers, compiled.symm⟩

mutual

theorem tidy_compile : (pattern : Pattern) → {site : Site} → {fragment : Fragment} →
    site.start.index < site.nextState → pattern.compile site = .ok fragment → fragment.Tidy site
  | leaf token, site, fragment, _, compiled => by
    simp only [compile, Except.ok.injEq] at compiled
    rw [← compiled]
    exact tidy_token
  | seq parts, site, fragment, ready, compiled => by
    simp only [compile] at compiled
    exact tidy_compileSeq parts ready compiled
  | alt options, site, fragment, ready, compiled => by
    rcases compile_alt_eq_ok compiled with ⟨_, ⟨_, rfl⟩ | ⟨_, rfl⟩⟩ | ⟨_, _, isOthers, rfl⟩
    · exact tidy_nothing
    · exact tidy_deadEnd
    · exact tidy_choice (aside_compileAlt options (Nat.lt_succ_of_lt ready) isOthers)
  | rep body count, site, fragment, _, compiled => by
    rcases compile_rep_eq_ok compiled with ⟨_, isInner, rfl⟩
    exact tidy_repeated (tidy_compile body ready_body isInner) rfl rfl

theorem tidy_compileSeq : (parts : List Pattern) → {site : Site} → {fragment : Fragment} →
    site.start.index < site.nextState → compileSeq parts site = .ok fragment → fragment.Tidy site
  | [], site, fragment, _, compiled => by
    simp only [compileSeq, Except.ok.injEq] at compiled
    rw [← compiled]
    exact tidy_nothing
  | part :: rest, site, fragment, ready, compiled => by
    rcases compileSeq_cons_eq_ok compiled with ⟨_, _, isFirst, isSecond, rfl⟩
    have tidy := tidy_compile part ready isFirst
    exact tidy.followedBy ready (tidy_compileSeq rest (tidy.stop_lt ready) isSecond)

theorem aside_compileAlt : (options : List Pattern) → {site : Site} → {goal : StateId} →
    {fragment : Fragment} → site.start.index < site.nextState →
    compileAlt options site goal = .ok fragment → fragment.Aside site goal
  | [], site, goal, fragment, _, compiled => by
    simp only [compileAlt, Except.ok.injEq] at compiled
    rw [← compiled]
    exact ⟨⟨by simp, by simp⟩, by simp, rfl⟩
  | option :: rest, site, goal, fragment, ready, compiled => by
    rcases compileAlt_cons_eq_ok compiled with ⟨_, _, isFirst, _, isOthers, rfl⟩
    exact .beside (tidy_compile option ready isFirst)
      (aside_compileAlt rest (Nat.lt_add_right _ ready) isOthers)

end

end Pattern

namespace Arena

variable {arena larger : Arena} {id : LayoutId} {pattern : Pattern}

def newSite (arena : Arena) : Site where
  start := ⟨arena.states.size⟩
  offset := 0
  nextState := arena.states.size + 1
  nextLayout := arena.layouts.size

def install (arena : Arena) (id : LayoutId) (pattern : Pattern) (fragment : Fragment) : Arena where
  states := arena.states ++ fragment.close arena.newSite
  layouts :=
    arena.layouts.setIfInBounds id.index (pattern.record arena.newSite fragment) ++ fragment.layouts

theorem ready_newSite : arena.newSite.start.index < arena.newSite.nextState := Nat.lt_succ_self _

theorem define_eq :
    arena.define id pattern = (pattern.compile arena.newSite).map (arena.install id pattern) := by
  simp only [define, newSite]
  split <;> simp [*, Except.map, install, newSite]

theorem define_eq_ok (defined : arena.define id pattern = .ok larger) :
    ∃ fragment, pattern.compile arena.newSite = .ok fragment ∧
      larger.states = arena.states ++ fragment.close arena.newSite ∧
      larger.layouts = arena.layouts.setIfInBounds id.index
        (pattern.record arena.newSite fragment) ++ fragment.layouts := by
  rw [define_eq] at defined
  rcases compiled : pattern.compile arena.newSite with _ | fragment
  · simp [compiled, Except.map] at defined
  · simp only [compiled, Except.map, Except.ok.injEq] at defined
    subst defined
    exact ⟨fragment, rfl, rfl, rfl⟩

theorem size_states_define
    (isStates : larger.states = arena.states ++ fragment.close arena.newSite) :
    larger.states.size = arena.newSite.nextState + fragment.states.size := by
  simp only [isStates, Array.size_append, Fragment.size_close, newSite]
  omega

section

variable
  (isLayouts : larger.layouts = arena.layouts.setIfInBounds id.index record ++ fragment.layouts)
include isLayouts

theorem size_layouts_define :
    larger.layouts.size = arena.newSite.nextLayout + fragment.layouts.size := by
  simp [isLayouts, newSite]

theorem layout_define (inside : id.index < arena.layouts.size) :
    larger.layout id = record ∧
      (∀ other, other.index < arena.layouts.size → other ≠ id →
        larger.layout other = arena.layout other) ∧
      ∀ rest layout, fragment.layouts[rest]? = some layout →
        larger.layout ⟨arena.layouts.size + rest⟩ = layout := by
  refine ⟨?_, ?_, ?_⟩
  · simp [layout, isLayouts, Array.getElem?_append, inside]
  · rintro ⟨other⟩ old different
    have elsewhere : id.index ≠ other := by
      rintro rfl
      exact different rfl
    simp only at old
    simp [layout, isLayouts, Array.getElem?_append, old, elsewhere]
  · intro rest layout found
    have behind : ¬ arena.layouts.size + rest < arena.layouts.size := by omega
    simp [Arena.layout, isLayouts, Array.getElem?_append, found, behind]

end

theorem layout_reserve_of_lt (inside : id.index < arena.layouts.size) :
    arena.reserve.2.layout id = arena.layout id := by
  simp [reserve, layout, Array.getElem?_push, Nat.ne_of_lt inside]

theorem layout_reserve_self :
    arena.reserve.2.layout ⟨arena.layouts.size⟩ = reserved arena.states.size := by
  simp [reserve, layout]

end Arena

end Recast
