import Recast.Arena.Automaton
import Recast.Proofs.Pattern.Mirrors

/-!
# Patterns at two places

Patterns that mirror each other become the same states and layouts at any two places, but for the
layouts of referents and for the numbers: two numbers stand for each other if they are equally far
behind the two points from which numbers are given out (`Origins`, `Pattern.Mirrors.compile`).
-/

namespace Recast

open List Pattern Extent Layout

/-- Verdicts with the same defect, or with related values. -/
inductive Verdict.Related {α β : Type} (related : α → β → Prop) : Except Defect α →
    Except Defect β → Prop
  | ok {value : α} {image : β} (isRelated : related value image) :
      Related related (.ok value) (.ok image)
  | error (defect : Defect) : Related related (.error defect) (.error defect)

section Definition

variable (states : StateId → StateId → Prop) (bodies referents : LayoutId → LayoutId → Prop)

inductive Label.Corresponds : Label → Label → Prop
  | token {letter image : Token} (mirrors : letter.Mirrors referents image) :
      Corresponds (.token letter) (.token image)
  | rep {body image : LayoutId} (isImage : bodies body image) (count : Count) :
      Corresponds (.rep body count) (.rep image count)

structure Edge.Corresponds (edge image : Edge) : Prop where
  label : edge.label.Corresponds bodies referents image.label
  target : states edge.target image.target

structure State.Corresponds (state image : State) : Prop where
  offset : state.offset = image.offset
  accepting : state.accepting = image.accepting
  edges : Forall₂ (Edge.Corresponds states bodies referents) state.edges image.edges

structure Layout.Corresponds (layout image : Layout) : Prop where
  start : states layout.start image.start
  stop : states layout.stop image.stop
  size : layout.size = image.size

end Definition

/-- The points from which the numbers of states and of layouts are given out, on either side. -/
structure Origins where
  states : Nat
  statesToo : Nat
  layouts : Nat
  layoutsToo : Nat

namespace Origins

variable (origins : Origins) (referents : LayoutId → LayoutId → Prop)

def State (state image : StateId) : Prop :=
  ∃ distance, state.index = origins.states + distance ∧ image.index = origins.statesToo + distance

def Body (layout image : LayoutId) : Prop :=
  ∃ distance, layout.index = origins.layouts + distance ∧
    image.index = origins.layoutsToo + distance

abbrev Edges (edges images : List Edge) : Prop :=
  Forall₂ (Edge.Corresponds origins.State origins.Body referents) edges images

abbrev States (states images : Array Recast.State) : Prop :=
  Forall₂ (State.Corresponds origins.State origins.Body referents) states.toList images.toList

abbrev Layouts (layouts images : Array Layout) : Prop :=
  Forall₂ (Corresponds origins.State) layouts.toList images.toList

structure Sites (site image : Site) : Prop where
  start : origins.State site.start image.start
  offset : site.offset = image.offset
  fresh : origins.State site.fresh image.fresh
  layout : origins.Body ⟨site.nextLayout⟩ ⟨image.nextLayout⟩

structure Fragments (fragment image : Fragment) : Prop where
  leaving : origins.Edges referents fragment.leaving image.leaving
  states : origins.States referents fragment.states image.states
  layouts : origins.Layouts fragment.layouts image.layouts
  stop : origins.State fragment.stop image.stop

end Origins

theorem forall₂_modify {α β : Type} {related : α → β → Prop} {items : List α} {others : List β}
    {change : α → α} {changeToo : β → β} (index : Nat)
    (kept : ∀ item other, related item other → related (change item) (changeToo other))
    (each : Forall₂ related items others) :
    Forall₂ related (items.modify index change) (others.modify index changeToo) := by
  induction each generalizing index with
  | nil => simp
  | cons first rest ih =>
    cases index with
    | zero => exact .cons (kept _ _ first) rest
    | succ index => exact .cons first (ih index)

namespace Origins

variable {origins : Origins} {referents : LayoutId → LayoutId → Prop} {site siteToo : Site}
  {first second image imageToo : Fragment} {edges edgesToo : List Edge}

section Numbers

variable {left right leftToo rightToo : StateId}

section

variable (same : origins.State left leftToo)
include same

theorem State.eq_iff (sameToo : origins.State right rightToo) :
    left = right ↔ leftToo = rightToo := by
  rcases left with ⟨left⟩
  rcases right with ⟨right⟩
  rcases leftToo with ⟨leftToo⟩
  rcases rightToo with ⟨rightToo⟩
  rcases same with ⟨distance, isLeft, isLeftToo⟩
  rcases sameToo with ⟨distanceToo, isRight, isRightToo⟩
  simp only [StateId.mk.injEq] at *
  omega

theorem State.sub_eq (sameToo : origins.State right rightToo) :
    left.index - right.index = leftToo.index - rightToo.index := by
  rcases same with ⟨distance, isLeft, isLeftToo⟩
  rcases sameToo with ⟨distanceToo, isRight, isRightToo⟩
  omega

theorem State.add (more : Nat) : origins.State ⟨left.index + more⟩ ⟨leftToo.index + more⟩ := by
  rcases same with ⟨distance, isLeft, isLeftToo⟩
  exact ⟨distance + more, by simp only [isLeft, Nat.add_assoc],
    by simp only [isLeftToo, Nat.add_assoc]⟩

end

theorem Body.add {layout other : LayoutId} (same : origins.Body layout other) (more : Nat) :
    origins.Body ⟨layout.index + more⟩ ⟨other.index + more⟩ := by
  rcases same with ⟨distance, isLayout, isOther⟩
  exact ⟨distance + more, by simp only [isLayout, Nat.add_assoc],
    by simp only [isOther, Nat.add_assoc]⟩

end Numbers

theorem States.size_eq {states images : Array Recast.State}
    (same : origins.States referents states images) :
    states.size = images.size :=
  same.length_eq

theorem Layouts.size_eq {layouts images : Array Layout} (same : origins.Layouts layouts images) :
    layouts.size = images.size :=
  same.length_eq

theorem States.append {states images more moreToo : Array Recast.State}
    (same : origins.States referents states images)
    (sameToo : origins.States referents more moreToo) :
    origins.States referents (states ++ more) (images ++ moreToo) := by
  simp only [States, Array.toList_append]
  exact rel_append same sameToo

theorem Layouts.append {layouts images more moreToo : Array Layout}
    (same : origins.Layouts layouts images) (sameToo : origins.Layouts more moreToo) :
    origins.Layouts (layouts ++ more) (images ++ moreToo) := by
  simp only [Layouts, Array.toList_append]
  exact rel_append same sameToo

theorem States.modify {states images : Array Recast.State}
    {change changeToo : Recast.State → Recast.State} (index : Nat)
    (kept : ∀ state image, State.Corresponds origins.State origins.Body referents state image →
      State.Corresponds origins.State origins.Body referents (change state) (changeToo image))
    (same : origins.States referents states images) :
    origins.States referents (states.modify index change) (images.modify index changeToo) := by
  simp only [States, Array.toList_modify]
  exact forall₂_modify index kept same

theorem states_single {state image : Recast.State}
    (same : State.Corresponds origins.State origins.Body referents state image) :
    origins.States referents #[state] #[image] :=
  .cons same .nil

theorem states_reserved : origins.States referents reservedStates reservedStates :=
  .cons ⟨rfl, rfl, .nil⟩ (.cons ⟨rfl, rfl, .nil⟩ .nil)

section Sites

variable (sites : origins.Sites site siteToo)
include sites

theorem Sites.after (same : origins.Fragments referents first image) (offset : Nat) :
    origins.Sites (site.after first offset) (siteToo.after image offset) where
  start := same.stop
  offset := rfl
  fresh := by
    simp only [Site.after, Site.fresh, ← same.states.size_eq]
    exact sites.fresh.add _
  layout := by
    simp only [Site.after, ← same.layouts.size_eq]
    exact sites.layout.add _

theorem Sites.beside (same : origins.Fragments referents first image) :
    origins.Sites (site.beside first) (siteToo.beside image) where
  start := sites.start
  offset := sites.offset
  fresh := (sites.after same 0).fresh
  layout := (sites.after same 0).layout

theorem Sites.body : origins.Sites site.body siteToo.body where
  start := sites.fresh.add 2
  offset := rfl
  fresh := sites.fresh.add 3
  layout := sites.layout.add 1

theorem Sites.skip (more : Nat) :
    origins.Sites { site with nextState := site.nextState + more }
      { siteToo with nextState := siteToo.nextState + more } where
  start := sites.start
  offset := sites.offset
  fresh := sites.fresh.add more
  layout := sites.layout

end Sites

section Fragments

section Sites

variable (sites : origins.Sites site siteToo)
include sites

theorem fragments_nothing : origins.Fragments referents (.nothing site) (.nothing siteToo) :=
  ⟨.nil, .nil, .nil, sites.start⟩

theorem fragments_deadEnd : origins.Fragments referents (.deadEnd site) (.deadEnd siteToo) :=
  ⟨.nil, states_single ⟨sites.offset, rfl, .nil⟩, .nil, sites.fresh⟩

theorem fragments_edge {label labelToo : Label}
    (same : label.Corresponds origins.Body referents labelToo) (offset : Nat) :
    origins.Fragments referents (.edge site label offset) (.edge siteToo labelToo offset) :=
  ⟨.cons ⟨same, sites.fresh⟩ .nil, states_single ⟨rfl, rfl, .nil⟩, .nil, sites.fresh⟩

end Sites

theorem edges_retarget {source sourceToo target targetToo : StateId}
    (same : origins.State source sourceToo) (sameToo : origins.State target targetToo)
    (each : origins.Edges referents edges edgesToo) :
    origins.Edges referents (Fragment.retargetEdges source target edges)
      (Fragment.retargetEdges sourceToo targetToo edgesToo) := by
  simp only [Fragment.retargetEdges, Edges, forall₂_map_left_iff, forall₂_map_right_iff]
  refine each.imp fun _ _ corresponds => ?_
  simp only [State.eq_iff corresponds.target same]
  split
  · exact ⟨corresponds.label, sameToo⟩
  · exact corresponds

theorem Fragments.retarget {target targetToo : StateId}
    (same : origins.Fragments referents first image) (sameToo : origins.State target targetToo) :
    origins.Fragments referents (first.retarget target) (image.retarget targetToo) where
  leaving := edges_retarget same.stop sameToo same.leaving
  states := by
    simp only [Fragment.retarget, States, Array.toList_map, forall₂_map_left_iff,
      forall₂_map_right_iff]
    exact same.states.imp fun _ _ corresponds =>
      ⟨corresponds.offset, corresponds.accepting,
        edges_retarget same.stop sameToo corresponds.edges⟩
  layouts := same.layouts
  stop := sameToo

theorem Fragments.beside (same : origins.Fragments referents first image)
    (sameToo : origins.Fragments referents second imageToo) :
    origins.Fragments referents (first.beside second) (image.beside imageToo) where
  leaving := rel_append same.leaving sameToo.leaving
  states := same.states.append sameToo.states
  layouts := same.layouts.append sameToo.layouts
  stop := sameToo.stop

variable (sites : origins.Sites site siteToo)
include sites

section

variable (same : origins.Fragments referents first image)
include same

theorem Fragments.extendStop (each : origins.Edges referents edges edgesToo) :
    origins.Fragments referents (first.extendStop site edges)
      (image.extendStop siteToo edgesToo) := by
  have sameIndex : first.stop.index - site.nextState = image.stop.index - siteToo.nextState :=
    same.stop.sub_eq sites.fresh
  simp only [Fragment.extendStop, State.eq_iff same.stop sites.start, sameIndex]
  split
  · exact ⟨rel_append same.leaving each, same.states, same.layouts, same.stop⟩
  · refine ⟨same.leaving, same.states.modify _ fun _ _ corresponds => ?_, same.layouts, same.stop⟩
    exact ⟨corresponds.offset, corresponds.accepting, rel_append corresponds.edges each⟩

theorem Fragments.followedBy (sameToo : origins.Fragments referents second imageToo) :
    origins.Fragments referents (first.followedBy site second)
      (image.followedBy siteToo imageToo) := by
  have extended := same.extendStop sites sameToo.leaving
  exact ⟨extended.leaving, extended.states.append sameToo.states,
    extended.layouts.append sameToo.layouts, sameToo.stop⟩

theorem Fragments.close : origins.States referents (first.close site) (image.close siteToo) := by
  simp only [Fragment.close, same.stop.sub_eq sites.start]
  have start : origins.States referents #[{ offset := site.offset, edges := first.leaving }]
      #[{ offset := siteToo.offset, edges := image.leaving }] :=
      states_single ⟨sites.offset, rfl, same.leaving⟩
  refine States.modify _ (fun _ _ corresponds => ?_) (start.append same.states)
  exact ⟨corresponds.offset, rfl, corresponds.edges⟩

end

theorem Fragments.record {pattern other : Pattern} (mirrors : pattern.Mirrors referents other)
    (same : origins.Fragments referents first image) :
    Corresponds origins.State (pattern.record site first) (other.record siteToo image) :=
  ⟨sites.start, same.stop, mirrors.size_eq⟩

end Fragments

end Origins

namespace Pattern

variable {origins : Origins} {referents : LayoutId → LayoutId → Prop}

/-- Two patterns become fragments that correspond, or have the same defect. -/
abbrev Compiles (origins : Origins) (referents : LayoutId → LayoutId → Prop) :
    Except Defect Fragment → Except Defect Fragment → Prop :=
  Verdict.Related (origins.Fragments referents)

theorem compiles_rep {body image : Pattern} {count : Count} {site siteToo : Site}
    (sites : origins.Sites site siteToo) (mirrors : body.Mirrors referents image)
    (compiles : Compiles origins referents (body.compile site.body) (image.compile siteToo.body)) :
    Compiles origins referents ((rep body count).compile site)
      ((rep image count).compile siteToo) := by
  rw [compile, compile]
  revert compiles
  generalize body.compile site.body = verdict
  generalize image.compile siteToo.body = verdictToo
  intro compiles
  cases compiles with
  | error defect => exact .error defect
  | @ok fragment fragmentToo same =>
    have states := Origins.states_reserved.append (same.close sites.body)
    have single : origins.Layouts #[body.record site.body fragment]
        #[image.record siteToo.body fragmentToo] :=
      .cons (same.record sites.body mirrors) .nil
    have offset : satAdd site.offset (satMul (body.size.getD 0) count.least) =
        satAdd siteToo.offset (satMul (image.size.getD 0) count.least) := by
      rw [sites.offset, mirrors.size_eq]
    simp only [offset, states.size_eq]
    have behind := sites.skip (reservedStates ++ fragmentToo.close siteToo.body).size
    have label : Label.Corresponds origins.Body referents (.rep ⟨site.nextLayout⟩ count)
        (.rep ⟨siteToo.nextLayout⟩ count) := .rep sites.layout count
    have exit := Origins.fragments_edge behind label
      (satAdd siteToo.offset (satMul (image.size.getD 0) count.least))
    exact .ok ⟨exit.leaving, states.append exit.states, single.append same.layouts, exit.stop⟩

mutual

theorem Mirrors.compile :
    {pattern image : Pattern} → pattern.Mirrors referents image → {site siteToo : Site} →
    origins.Sites site siteToo → Compiles origins referents (pattern.compile site)
      (image.compile siteToo)
  | .leaf token, .leaf other, .leaf mirrors, site, siteToo, sites => by
    rw [compile, compile, sites.offset, mirrors.width_eq]
    exact .ok (Origins.fragments_edge sites (.token mirrors) _)
  | .seq _, .seq _, .seq each, site, siteToo, sites => by
    rw [compile, compile]
    exact each.compileSeq sites
  | .alt options, .alt images, .alt each, site, siteToo, sites => by
    have sameSize : (alt options).size = (alt images).size := each.largestSize_eq
    rw [compile, compile, sameSize, each.anyHasValue_eq]
    split
    · split
      · exact .ok (Origins.fragments_nothing sites)
      · exact .ok (Origins.fragments_deadEnd sites)
    · have inner := each.compileAlt (sites.skip 1) sites.fresh
      dsimp only
      revert inner
      generalize compileAlt options _ _ = verdict
      generalize compileAlt images _ _ = verdictToo
      intro inner
      cases inner with
      | error defect => exact .error defect
      | ok same =>
        refine .ok ⟨same.leaving, .append (Origins.states_single ⟨?_, rfl, .nil⟩) same.states,
          same.layouts, same.stop⟩
        rw [sites.offset]
  | .rep _ _, .rep _ _, .rep mirrors count, site, siteToo, sites =>
    compiles_rep sites mirrors (mirrors.compile sites.body)

theorem MirrorEach.compileSeq : {parts images : List Pattern} → MirrorEach referents parts images →
    {site siteToo : Site} → origins.Sites site siteToo →
    Compiles origins referents (compileSeq parts site) (compileSeq images siteToo)
  | [], [], .nil, site, siteToo, sites => by
    rw [compileSeq, compileSeq]
    exact .ok (Origins.fragments_nothing sites)
  | part :: rest, image :: images, .cons mirrors others, site, siteToo, sites => by
    have front := mirrors.compile sites
    rw [compileSeq, compileSeq, sites.offset, mirrors.size_eq]
    revert front
    generalize part.compile site = verdict
    generalize image.compile siteToo = verdictToo
    intro front
    cases front with
    | error defect => exact .error defect
    | @ok _ _ same =>
      have back := others.compileSeq (sites.after same (satAdd siteToo.offset (image.size.getD 0)))
      simp only
      revert back
      generalize compileSeq rest _ = verdict
      generalize compileSeq images _ = verdictToo
      intro back
      cases back with
      | error defect => exact .error defect
      | ok sameToo => exact .ok (same.followedBy sites sameToo)

theorem MirrorEach.compileAlt :
    {options images : List Pattern} → MirrorEach referents options images →
    {site siteToo : Site} → {stop stopToo : StateId} → origins.Sites site siteToo →
    origins.State stop stopToo →
    Compiles origins referents (compileAlt options site stop) (compileAlt images siteToo stopToo)
  | [], [], .nil, site, siteToo, stop, stopToo, sites, sameStop => by
    rw [compileAlt, compileAlt]
    exact .ok ⟨.nil, .nil, .nil, sameStop⟩
  | option :: rest, image :: images, .cons mirrors others, site, siteToo, stop, stopToo, sites,
      sameStop => by
    have front := mirrors.compile sites
    rw [compileAlt, compileAlt]
    revert front
    generalize option.compile site = verdict
    generalize image.compile siteToo = verdictToo
    intro front
    cases front with
    | error defect => exact .error defect
    | @ok _ _ same =>
      have back := others.compileAlt (sites.beside same) sameStop
      simp only [Origins.State.eq_iff same.stop sites.start, sites.offset]
      split
      · exact .error _
      · revert back
        generalize compileAlt rest _ _ = verdict
        generalize compileAlt images _ _ = verdictToo
        intro back
        cases back with
        | error defect => exact .error defect
        | ok sameToo => exact .ok ((same.retarget sameStop).beside sameToo)

end

end Pattern

end Recast
