import Recast.Proofs.Arena.Indexed
import Recast.Proofs.Inclusion.Correspondence

/-!
# Twins

Layouts of two arenas are twins if they were defined by patterns that mirror each other, with twins
as referents that were defined earlier (`Arena.Twins`). Several layouts may have the same twin.
Layouts that are reserved and still to be defined are hidden, and have no twins. A layout
corresponds to its twin in all that the check looks at (`Arena.Twins.exists_correspondence`).
-/

namespace Recast

open Position Arena

variable {plot plotToo : Plot} {fewer : LayoutId → Prop} {laterToo : Arena}

namespace Arena

/-- The layout was defined by the pattern, which turned the arena `base` into `made`. What was added
then is there as it was, and not hidden. -/
structure Defines (arena : Arena) (hidden : LayoutId → Prop) (id : LayoutId) (pattern : Pattern)
    (base made : Arena) : Prop where
  defined : base.define id pattern = .ok made
  inside : id.index < base.layouts.size
  indexed : made.WellIndexed
  shown : ¬ hidden id
  states : ∀ index state, base.states.size ≤ index → made.states[index]? = some state →
    arena.states[index]? = some state
  layouts : ∀ index layout, base.layouts.size ≤ index → made.layouts[index]? = some layout →
    ¬ hidden ⟨index⟩ ∧ arena.layouts[index]? = some layout
  own : arena.layouts[id.index]? = made.layouts[id.index]?

/-- All is there later as it was, but for hidden layouts. Of what was there only hidden layouts are
hidden then. -/
structure Retains (arena later : Arena) (hidden fewer : LayoutId → Prop) : Prop where
  states : ∀ (index : Nat) state, arena.states[index]? = some state →
    later.states[index]? = some state
  layouts : ∀ id : LayoutId, ¬ hidden id → id.index < arena.layouts.size →
    ¬ fewer id ∧ later.layouts[id.index]? = arena.layouts[id.index]?

def veil (id : LayoutId) (hidden : LayoutId → Prop) : LayoutId → Prop :=
  fun layout => hidden layout ∨ layout = id

def Precedes (arena : Arena) (earlier later : LayoutId) : Prop :=
  (arena.start earlier).index < (arena.start later).index

/-- Related layouts were defined by patterns that mirror each other, with related layouts as
referents. -/
def Twinning (first second : Arena) (hidden hiddenToo : LayoutId → Prop)
    (related : LayoutId → LayoutId → Prop) : Prop :=
  ∀ id image, related id image → ∃ pattern other base made baseToo madeToo,
    first.Defines hidden id pattern base made ∧
      second.Defines hiddenToo image other baseToo madeToo ∧
    pattern.Mirrors (fun referent referentToo => related referent referentToo ∧
      first.Precedes referent id ∧ second.Precedes referentToo image) other

def Twins (first second : Arena) (hidden hiddenToo : LayoutId → Prop) (id image : LayoutId) :
    Prop :=
  ∃ related, first.Twinning second hidden hiddenToo related ∧ related id image

variable {first second arena later : Arena} {hidden hiddenToo : LayoutId → Prop}
  {id image : LayoutId} {pattern other : Pattern} {base made baseToo madeToo : Arena}
  {referents : LayoutId → LayoutId → Prop}

theorem twinning_twins :
    first.Twinning second hidden hiddenToo (first.Twins second hidden hiddenToo) := by
  rintro id image ⟨related, twinning, isRelated⟩
  rcases twinning id image isRelated with
    ⟨pattern, other, base, made, baseToo, madeToo, defines, definesToo, mirrors⟩
  refine ⟨pattern, other, base, made, baseToo, madeToo, defines, definesToo, mirrors.mono ?_⟩
  exact fun _ _ => And.imp_left fun isRelatedToo => ⟨related, twinning, isRelatedToo⟩

namespace Defines

section Defined

variable (defines : arena.Defines hidden id pattern base made)
include defines

theorem start_eq : arena.start id = ⟨base.states.size⟩ ∧ (arena.layout id).size = pattern.size := by
  rcases define_eq_ok defines.defined with ⟨_, _, _, isLayouts⟩
  have same : arena.layout id = made.layout id := by rw [layout, layout, defines.own]
  rw [start, same, (layout_define isLayouts defines.inside).1]
  exact ⟨rfl, rfl⟩

theorem id_lt : id.index < arena.layouts.size := by
  rcases define_eq_ok defines.defined with ⟨fragment, _, _, isLayouts⟩
  have found : arena.layouts[id.index]? = some (pattern.record base.newSite fragment) := by
    rw [defines.own, isLayouts]
    simp [Array.getElem?_append, defines.inside]
  exact (Array.getElem?_eq_some_iff.mp found).1

theorem states_lt : base.states.size < made.states.size := by
  rcases define_eq_ok defines.defined with ⟨_, _, isStates, _⟩
  rw [isStates]
  simp [Fragment.close]

theorem start_lt : (arena.start id).index < arena.states.size := by
  have found :=
    defines.states base.states.size _ (Nat.le_refl _) (Array.getElem?_eq_getElem defines.states_lt)
  rw [defines.start_eq.1]
  exact (Array.getElem?_eq_some_iff.mp found).1

theorem mono (retains : arena.Retains later hidden fewer) :
    later.Defines fewer id pattern base made where
  defined := defines.defined
  inside := defines.inside
  indexed := defines.indexed
  shown := (retains.layouts id defines.shown defines.id_lt).1
  states index state isNew found :=
    retains.states index state (defines.states index state isNew found)
  layouts index layout isNew found := by
    rcases defines.layouts index layout isNew found with ⟨shown, isLayout⟩
    rcases retains.layouts ⟨index⟩ shown (Array.getElem?_eq_some_iff.mp isLayout).1 with
      ⟨shownThen, same⟩
    exact ⟨shownThen, same.trans isLayout⟩
  own := (retains.layouts id defines.shown defines.id_lt).2.trans defines.own

end Defined

def origins (base baseToo : Arena) : Origins :=
  ⟨base.states.size, baseToo.states.size, base.layouts.size, baseToo.layouts.size⟩

theorem sites_origins (base baseToo : Arena) :
    (origins base baseToo).Sites base.newSite baseToo.newSite :=
  ⟨⟨0, rfl, rfl⟩, rfl, ⟨1, rfl, rfl⟩, ⟨0, rfl, rfl⟩⟩

theorem exists_of_forall₂ {α β : Type} {related : α → β → Prop} {items : Array α} {others : Array β}
    (each : List.Forall₂ related items.toList others.toList) {index : Nat}
    (inside : index < items.size) :
    ∃ item otherItem, items[index]? = some item ∧ others[index]? = some otherItem ∧
      related item otherItem := by
  have insideToo : index < others.size := Nat.lt_of_lt_of_eq inside each.length_eq
  refine ⟨items[index], others[index], Array.getElem?_eq_getElem inside,
    Array.getElem?_eq_getElem insideToo, ?_⟩
  exact each.get inside insideToo

section

variable (defines : first.Defines hidden id pattern base made)
  (definesToo : second.Defines hiddenToo image other baseToo madeToo)
  (mirrors : pattern.Mirrors referents other)
include defines definesToo mirrors

theorem exists_fragments :
    ∃ fragment fragmentToo, (origins base baseToo).Fragments referents fragment fragmentToo ∧
      made.states = base.states ++ fragment.close base.newSite ∧
      madeToo.states = baseToo.states ++ fragmentToo.close baseToo.newSite ∧
      made.layouts = base.layouts.setIfInBounds id.index (pattern.record base.newSite fragment) ++
        fragment.layouts ∧
      madeToo.layouts = baseToo.layouts.setIfInBounds image.index
        (other.record baseToo.newSite fragmentToo) ++ fragmentToo.layouts := by
  rcases define_eq_ok defines.defined with ⟨fragment, compiled, isStates, isLayouts⟩
  rcases define_eq_ok definesToo.defined with ⟨fragmentToo, compiledToo, isStatesToo, isLayoutsToo⟩
  have compiles := mirrors.compile (sites_origins base baseToo)
  rw [compiled, compiledToo] at compiles
  cases compiles with
  | ok same => exact ⟨fragment, fragmentToo, same, isStates, isStatesToo, isLayouts, isLayoutsToo⟩

theorem state_corresponds {state stateToo : StateId}
    (same : (origins base baseToo).State state stateToo) (inside : state.index < made.states.size) :
    ∃ found foundToo, made.states[state.index]? = some found ∧ first.state state = found ∧
      madeToo.states[stateToo.index]? = some foundToo ∧ second.state stateToo = foundToo ∧
      State.Corresponds (origins base baseToo).State (origins base baseToo).Body referents found
        foundToo := by
  rcases exists_fragments defines definesToo mirrors with
    ⟨fragment, fragmentToo, fragments, isStates, isStatesToo, _, _⟩
  rcases same with ⟨distance, isState, isStateToo⟩
  simp only [origins] at isState isStateToo
  have near : distance < (fragment.close base.newSite).size := by
    rw [isStates, Array.size_append] at inside
    omega
  rcases exists_of_forall₂ (fragments.close (sites_origins base baseToo)) near with
    ⟨found, foundToo, isFound, isFoundToo, corresponds⟩
  have here : made.states[state.index]? = some found := by
    rw [isStates, isState, Array.getElem?_append_right (Nat.le_add_right _ _),
      Nat.add_sub_cancel_left, isFound]
  have hereToo : madeToo.states[stateToo.index]? = some foundToo := by
    rw [isStatesToo, isStateToo, Array.getElem?_append_right (Nat.le_add_right _ _),
      Nat.add_sub_cancel_left, isFoundToo]
  refine ⟨found, foundToo, here, ?_, hereToo, ?_, corresponds⟩
  · rw [Arena.state, defines.states _ _ (by omega) here, Option.getD_some]
  · rw [Arena.state, definesToo.states _ _ (by omega) hereToo, Option.getD_some]

theorem body_corresponds {body bodyToo : LayoutId} (same : (origins base baseToo).Body body bodyToo)
    (inside : body.index < made.layouts.size) :
    ∃ found foundToo, made.layouts[body.index]? = some found ∧ first.layout body = found ∧
      madeToo.layouts[bodyToo.index]? = some foundToo ∧ second.layout bodyToo = foundToo ∧
      Layout.Corresponds (origins base baseToo).State found foundToo := by
  rcases exists_fragments defines definesToo mirrors with
    ⟨fragment, fragmentToo, fragments, _, _, isLayouts, isLayoutsToo⟩
  rcases same with ⟨distance, isBody, isBodyToo⟩
  simp only [origins] at isBody isBodyToo
  have near : distance < fragment.layouts.size := by
    rw [isLayouts, Array.size_append, Array.size_setIfInBounds] at inside
    omega
  rcases exists_of_forall₂ fragments.layouts near with
    ⟨found, foundToo, isFound, isFoundToo, corresponds⟩
  have here : made.layouts[body.index]? = some found := by
    rw [isLayouts, isBody, Array.getElem?_append_right (by simp), Array.size_setIfInBounds,
      Nat.add_sub_cancel_left, isFound]
  have hereToo : madeToo.layouts[bodyToo.index]? = some foundToo := by
    rw [isLayoutsToo, isBodyToo, Array.getElem?_append_right (by simp), Array.size_setIfInBounds,
      Nat.add_sub_cancel_left, isFoundToo]
  refine ⟨found, foundToo, here, ?_, hereToo, ?_, corresponds⟩
  · rw [layout, (defines.layouts _ _ (by omega) here).2, Option.getD_some]
  · rw [layout, (definesToo.layouts _ _ (by omega) hereToo).2, Option.getD_some]

variable (charts : first.Charts plot fun _ => True)
  (chartsToo : second.Charts plotToo fun _ => True)

def correspondence : Correspondence first second referents where
  plot := plot
  plotToo := plotToo
  states state stateToo := (origins base baseToo).State state stateToo ∧
    state.index < made.states.size
  bodies body bodyToo := (origins base baseToo).Body body bodyToo ∧ body.index < made.layouts.size
  charts := charts
  chartsToo := chartsToo
  edges := by
    rintro state stateToo ⟨same, inside⟩
    rcases state_corresponds defines definesToo mirrors same inside with
      ⟨found, foundToo, here, isFound, _, isFoundToo, corresponds⟩
    rw [edges, edges, isFound, isFoundToo]
    refine forall₂_imp_of_mem (fun edge edgeToo member _ sameEdge => ?_) corresponds.edges
    have member' := Array.mem_of_getElem? here
    refine ⟨?_, sameEdge.target, defines.indexed.targets found member' edge member⟩
    rcases edge with ⟨label, target⟩
    rcases edgeToo with ⟨labelToo, targetToo⟩
    rcases sameEdge with ⟨sameLabel, _⟩
    cases sameLabel with
    | token mirrors => exact .token mirrors
    | rep sameBody count =>
      exact .rep ⟨sameBody, defines.indexed.bodies found member' _ member _ count rfl⟩ count
  accepting := by
    rintro state stateToo ⟨same, inside⟩
    rcases state_corresponds defines definesToo mirrors same inside with
      ⟨found, foundToo, _, isFound, _, isFoundToo, corresponds⟩
    rw [isFound, isFoundToo, corresponds.accepting]
  start := by
    rintro body bodyToo ⟨same, inside⟩
    rcases body_corresponds defines definesToo mirrors same inside with
      ⟨found, foundToo, here, isFound, _, isFoundToo, corresponds⟩
    rw [start, start, isFound, isFoundToo]
    exact ⟨corresponds.start, defines.indexed.starts found (Array.mem_of_getElem? here)⟩
  stop := by
    rintro body bodyToo ⟨same, inside⟩
    rcases body_corresponds defines definesToo mirrors same inside with
      ⟨found, foundToo, here, isFound, _, isFoundToo, corresponds⟩
    rw [stop, stop, isFound, isFoundToo]
    exact ⟨corresponds.stop, defines.indexed.stops found (Array.mem_of_getElem? here)⟩
  size := by
    rintro body bodyToo ⟨same, inside⟩
    rcases body_corresponds defines definesToo mirrors same inside with
      ⟨found, foundToo, _, isFound, _, isFoundToo, corresponds⟩
    rw [isFound, isFoundToo, corresponds.size]
  statesOrdered := by
    rintro _ _ _ _ ⟨⟨_, isLeft, isLeftToo⟩, _⟩ ⟨⟨_, isRight, isRightToo⟩, _⟩
    rw [isLeft, isLeftToo, isRight, isRightToo]
    simp only [Nat.compare_eq_ite_lt, Nat.add_lt_add_iff_left]
  bodiesOrdered := by
    rintro _ _ _ _ ⟨⟨_, isLeft, isLeftToo⟩, _⟩ ⟨⟨_, isRight, isRightToo⟩, _⟩
    rw [isLeft, isLeftToo, isRight, isRightToo]
    simp only [Nat.compare_eq_ite_lt, Nat.add_lt_add_iff_left]

theorem tracks_root :
    (correspondence defines definesToo mirrors charts chartsToo).Tracks (.root first id)
      (.root second image) := by
  have start := defines.start_eq.1
  have startToo := definesToo.start_eq.1
  refine ⟨⟨⟨⟨0, ?_, ?_⟩, ?_⟩, .nil⟩, ⟨id, within_root charts defines.id_lt⟩,
    image, within_root chartsToo definesToo.id_lt⟩
  · simp [root, start, origins]
  · simp [root, startToo, origins]
  · simp only [root, start]
    exact defines.states_lt

end

end Defines

namespace Twins

section Twins

variable (twins : first.Twins second hidden hiddenToo id image)
include twins

theorem symm : second.Twins first hiddenToo hidden image id := by
  refine ⟨flip (first.Twins second hidden hiddenToo), fun id image twins => ?_, twins⟩
  rcases twinning_twins image id twins with
    ⟨pattern, other, base, made, baseToo, madeToo, defines, definesToo, mirrors⟩
  refine ⟨other, pattern, baseToo, madeToo, base, made, definesToo, defines, mirrors.symm.mono ?_⟩
  rintro _ _ ⟨twinsToo, precedes, precedesToo⟩
  exact ⟨twinsToo, precedesToo, precedes⟩

theorem exists_defines : ∃ pattern base made, first.Defines hidden id pattern base made := by
  rcases twinning_twins id image twins with
    ⟨pattern, _, base, made, _, _, defines, _⟩
  exact ⟨pattern, base, made, defines⟩

theorem id_lt : id.index < first.layouts.size := by
  rcases twins.exists_defines with ⟨_, _, _, defines⟩
  exact defines.id_lt

theorem shown : ¬ hidden id := by
  rcases twins.exists_defines with ⟨_, _, _, defines⟩
  exact defines.shown

theorem start_lt : (first.start id).index < first.states.size := by
  rcases twins.exists_defines with ⟨_, _, _, defines⟩
  exact defines.start_lt

theorem start_eq (retains : first.Retains later hidden fewer) :
    later.start id = first.start id := by
  rw [start, start, layout, layout, (retains.layouts id twins.shown twins.id_lt).2]

/-- A layout corresponds to its twin, with earlier twins as referents. -/
theorem exists_correspondence {bound boundToo : Nat} (charts : first.Charts plot fun _ => True)
    (chartsToo : second.Charts plotToo fun _ => True) (below : (first.start id).index ≤ bound)
    (belowToo : (second.start image).index ≤ boundToo) :
    ∃ relation : Correspondence first second fun referent referentToo =>
        first.Twins second hidden hiddenToo referent referentToo ∧
        (first.start referent).index < bound ∧
          (second.start referentToo).index < boundToo,
      relation.Tracks (.root first id) (.root second image) := by
  rcases twinning_twins id image twins with
    ⟨pattern, other, base, made, baseToo, madeToo, defines, definesToo, mirrors⟩
  have mirrorsBelow := mirrors.mono fun _ _ earlier =>
    And.imp_right (And.imp (fun precedes => Nat.lt_of_lt_of_le precedes below)
      fun precedes => Nat.lt_of_lt_of_le precedes belowToo) earlier
  exact ⟨defines.correspondence definesToo mirrorsBelow charts chartsToo,
    defines.tracks_root definesToo mirrorsBelow charts chartsToo⟩

theorem size_eq : (first.layout id).size = (second.layout image).size := by
  rcases twinning_twins id image twins with
    ⟨pattern, other, base, made, baseToo, madeToo, defines, definesToo, mirrors⟩
  rw [defines.start_eq.2, definesToo.start_eq.2, mirrors.size_eq]

end Twins

theorem mono {fewerToo : LayoutId → Prop} (retains : first.Retains later hidden fewer)
    (retainsToo : second.Retains laterToo hiddenToo fewerToo)
    (twins : first.Twins second hidden hiddenToo id image) :
    later.Twins laterToo fewer fewerToo id image := by
  refine ⟨first.Twins second hidden hiddenToo, fun id image twins => ?_, twins⟩
  rcases twinning_twins id image twins with
    ⟨pattern, other, base, made, baseToo, madeToo, defines, definesToo, mirrors⟩
  refine ⟨pattern, other, base, made, baseToo, madeToo, defines.mono retains,
    definesToo.mono retainsToo, mirrors.mono ?_⟩
  rintro _ _ ⟨earlier, _, _⟩
  refine ⟨earlier, ?_, ?_⟩
  · rwa [Precedes, earlier.start_eq retains, twins.start_eq retains]
  · rwa [Precedes, earlier.symm.start_eq retainsToo, twins.symm.start_eq retainsToo]

theorem self (twins : first.Twins second hidden hiddenToo id image) :
    first.Twins first hidden hidden id id := by
  refine ⟨fun id image => id = image ∧ ∃ twin, first.Twins second hidden hiddenToo id twin, ?_, rfl,
    image, twins⟩
  rintro id _ ⟨rfl, twin, twinsToo⟩
  rcases twinning_twins id twin twinsToo with
    ⟨pattern, other, base, made, baseToo, madeToo, defines, definesToo, mirrors⟩
  refine ⟨pattern, pattern, base, made, base, made, defines, defines, mirrors.self ?_⟩
  rintro _ referentToo ⟨twins, precedes, _⟩
  exact ⟨⟨rfl, referentToo, twins⟩, precedes, precedes⟩

end Twins

namespace Retains

variable {last : Arena} {fewest : LayoutId → Prop}

theorem refl (arena : Arena) (hidden : LayoutId → Prop) : arena.Retains arena hidden hidden :=
  ⟨fun _ _ found => found, fun _ shown _ => ⟨shown, rfl⟩⟩

theorem trans (retains : arena.Retains later hidden fewer)
    (retainsThen : later.Retains last fewer fewest) :
    arena.Retains last hidden fewest where
  states index state found := retainsThen.states index state (retains.states index state found)
  layouts id shown inside := by
    rcases retains.layouts id shown inside with ⟨shownThen, same⟩
    have found := same.trans (Array.getElem?_eq_getElem inside)
    rcases retainsThen.layouts id shownThen (Array.getElem?_eq_some_iff.mp found).1 with
      ⟨shownLast, sameLast⟩
    exact ⟨shownLast, sameLast.trans same⟩

theorem hide (retains : arena.Retains later (fun _ => False) fun _ => False)
    (hidden : LayoutId → Prop) :
    arena.Retains later hidden hidden :=
  ⟨retains.states, fun id shown inside => ⟨shown, (retains.layouts id not_false inside).2⟩⟩

theorem layouts_le (retains : arena.Retains later (fun _ => False) fewer) :
    arena.layouts.size ≤ later.layouts.size := by
  by_contra less
  have inside := Nat.lt_of_not_le less
  have found :=
    (retains.layouts ⟨later.layouts.size⟩ not_false inside).2.trans
      (Array.getElem?_eq_getElem inside)
  exact Nat.lt_irrefl _ (Array.getElem?_eq_some_iff.mp found).1

theorem reserve (arena : Arena) (hidden : LayoutId → Prop) :
    arena.Retains arena.reserve.2 hidden (veil ⟨arena.layouts.size⟩ hidden) where
  states index state found := by
    rw [Arena.reserve, Array.getElem?_append_left (Array.getElem?_eq_some_iff.mp found).1]
    exact found
  layouts id shown inside := by
    refine ⟨?_, ?_⟩
    · rintro (isHidden | rfl)
      · exact shown isHidden
      · exact Nat.lt_irrefl _ inside
    · simp [Arena.reserve, Array.getElem?_push, Nat.ne_of_lt inside]

theorem define (hidden : LayoutId → Prop) (defined : arena.define id pattern = .ok later) :
    arena.Retains later (veil id hidden) hidden := by
  rcases define_eq_ok defined with ⟨_, _, isStates, isLayouts⟩
  constructor
  · intro _ _ found
    rw [isStates, Array.getElem?_append_left (Array.getElem?_eq_some_iff.mp found).1]
    exact found
  · intro layout shown inside
    rw [veil, not_or] at shown
    have different : id.index ≠ layout.index := by
      rintro same
      cases id
      cases layout
      exact shown.2 (congrArg LayoutId.mk same.symm)
    refine ⟨shown.1, ?_⟩
    rw [isLayouts, Array.getElem?_append_left (by simpa using inside)]
    simp [different]

end Retains

theorem defines_define (hidden : LayoutId → Prop) (inside : id.index < first.layouts.size)
    (indexed : later.WellIndexed) (shown : ¬ hidden id)
    (old : ∀ id, hidden id → id.index < first.layouts.size)
    (defined : first.define id pattern = .ok later) :
    later.Defines hidden id pattern first later where
  defined := defined
  inside := inside
  indexed := indexed
  shown := shown
  states _ _ _ found := found
  layouts _ _ isNew found := ⟨fun isHidden => absurd (old _ isHidden) (Nat.not_lt.mpr isNew), found⟩
  own := rfl

theorem WellIndexed.define_of_mirrors (indexed : first.WellIndexed)
    (defined : first.define id pattern = .ok later)
    (mirrors : pattern.Mirrors (first.Twins second hidden hiddenToo) other) :
    later.WellIndexed := by
  refine indexed.define (mirrors.leaves fun _ _ same => ?_) defined
  rintro _ rfl
  cases same with
  | reference _ _ twins =>
    rcases define_eq_ok defined with ⟨_, _, _, isLayouts⟩
    rw [isLayouts, Array.size_append, Array.size_setIfInBounds]
    exact Nat.lt_add_right _ twins.id_lt

theorem related_define (mirrors : pattern.Mirrors referents other) :
    Verdict.Related (fun _ _ => True) (first.define id pattern) (second.define image other) := by
  have compiles := mirrors.compile (Defines.sites_origins first second)
  rw [define_eq, define_eq]
  revert compiles
  generalize pattern.compile first.newSite = compiled
  generalize other.compile second.newSite = compiledToo
  intro compiles
  cases compiles with
  | ok => exact .ok trivial
  | error defect => exact .error defect

theorem Twins.define (indexed : first.WellIndexed) (indexedToo : second.WellIndexed)
    (inside : id.index < first.layouts.size) (insideToo : image.index < second.layouts.size)
    (mirrors : pattern.Mirrors (first.Twins second (veil id hidden) (veil image hiddenToo)) other)
    (defined : first.define id pattern = .ok later)
    (definedToo : second.define image other = .ok laterToo) (shown : ¬ hidden id)
    (shownToo : ¬ hiddenToo image)
    (old : ∀ layout, hidden layout → layout.index < first.layouts.size)
    (oldToo : ∀ layout, hiddenToo layout → layout.index < second.layouts.size) :
    later.Twins laterToo hidden hiddenToo id image := by
  have retains : first.Retains later (veil id hidden) hidden := .define hidden defined
  have retainsToo : second.Retains laterToo (veil image hiddenToo) hiddenToo :=
    .define hiddenToo definedToo
  refine ⟨fun layout twin => later.Twins laterToo hidden hiddenToo layout twin ∨ layout = id ∧
    twin = image, ?_, .inr ⟨rfl, rfl⟩⟩
  rintro layout twin (twins | ⟨rfl, rfl⟩)
  · rcases twinning_twins layout twin twins with
      ⟨pattern, other, base, made, baseToo, madeToo, defines, definesToo, mirrors⟩
    refine ⟨pattern, other, base, made, baseToo, madeToo, defines, definesToo, mirrors.mono ?_⟩
    exact fun _ _ => And.imp_left .inl
  · have flipped := mirrors.symm.mono fun _ _ twins => twins.symm
    have defines :=
      defines_define hidden inside (indexed.define_of_mirrors defined mirrors) shown old defined
    have definesToo :=
      defines_define hiddenToo insideToo (indexedToo.define_of_mirrors definedToo flipped) shownToo
        oldToo definedToo
    refine ⟨pattern, other, first, later, second, laterToo, defines, definesToo, mirrors.mono ?_⟩
    intro _ _ twins
    refine ⟨.inl (twins.mono retains retainsToo), ?_, ?_⟩
    · rw [Precedes, twins.start_eq retains, defines.start_eq.1]
      exact twins.start_lt
    · rw [Precedes, twins.symm.start_eq retainsToo, definesToo.start_eq.1]
      exact twins.symm.start_lt

end Arena

end Recast
