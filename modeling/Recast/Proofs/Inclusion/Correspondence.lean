import Recast.Proofs.Arena.Corresponds
import Recast.Proofs.Inclusion.Searches
import Recast.Proofs.Position.Companions

/-!
# Corresponding positions

A part of one arena may be found again in another one: edges lead to corresponding states over the
same tokens, but for the layouts of referents, and numbers that correspond come in the same order
(`Correspondence`). Then all that is found out about a position is found out in the same order about
the one that corresponds to it.
-/

namespace Recast

open Position List

variable {run runToo : Run}

section Lists

variable {α β : Type} {related : α → β → Prop} {items : List α} {others : List β}

theorem exists_of_mem_right (each : Forall₂ related items others) {other : β}
    (member : other ∈ others) : ∃ item ∈ items, related item other :=
  exists_of_mem_left (Forall₂.flip each) member

theorem forall₂_imp_of_mem {weaker : α → β → Prop}
    (imp : ∀ item other, item ∈ items → other ∈ others → related item other → weaker item other)
    (each : Forall₂ related items others) : Forall₂ weaker items others := by
  induction each with
  | nil => exact .nil
  | cons first _ ih =>
    refine .cons (imp _ _ mem_cons_self mem_cons_self first)
      (ih fun item other member isOther => ?_)
    exact imp item other (mem_cons_of_mem _ member) (mem_cons_of_mem _ isOther)

def Ordered (related : α → β → Prop) (key : α → List Nat) (keyToo : β → List Nat) : Prop :=
  ∀ left right image other, related left image → related right other →
    compare (key left) (key right) = compare (keyToo image) (keyToo other)

theorem forall₂_of_ascending {key : α → List Nat} {keyToo : β → List Nat}
    (ordered : Ordered related key keyToo)
    (ascending : items.Pairwise fun left right => compare (key left) (key right) = .lt)
    (ascendingToo : others.Pairwise fun left right => compare (keyToo left) (keyToo right) = .lt)
    (forth : ∀ item ∈ items, ∃ other ∈ others, related item other)
    (back : ∀ other ∈ others, ∃ item ∈ items, related item other) :
    Forall₂ related items others := by
  induction items generalizing others with
  | nil =>
    cases others with
    | nil => exact .nil
    | cons other =>
      rcases back other mem_cons_self with ⟨_, member, _⟩
      cases member
  | cons item _ ih =>
    rcases others with _ | ⟨other, _⟩
    · rcases forth item mem_cons_self with ⟨_, member, _⟩
      cases member
    rw [pairwise_cons] at ascending ascendingToo
    have least : related item other := by
      rcases back other mem_cons_self with ⟨found, isFound, isRelated⟩
      rcases mem_cons.mp isFound with rfl | later
      · exact isRelated
      · -- The first item would correspond to something before the first of the others.
        rcases forth item mem_cons_self with ⟨image, isImage, itemRelated⟩
        have smaller := ascending.1 found later
        rw [ordered _ _ _ _ itemRelated isRelated] at smaller
        rcases mem_cons.mp isImage with rfl | isLater
        · simp at smaller
        · have larger := Std.OrientedCmp.gt_of_lt (ascendingToo.1 image isLater)
          rw [smaller] at larger
          cases larger
    refine .cons least (ih ascending.2 ascendingToo.2 ?_ ?_)
    · intro later isLater
      rcases forth later (mem_cons_of_mem _ isLater) with ⟨image, isImage, isRelated⟩
      rcases mem_cons.mp isImage with rfl | inRest
      · have smaller := ascending.1 later isLater
        rw [ordered _ _ _ _ least isRelated] at smaller
        simp at smaller
      · exact ⟨image, inRest, isRelated⟩
    · intro image isImage
      rcases back image (mem_cons_of_mem _ isImage) with ⟨found, isFound, isRelated⟩
      rcases mem_cons.mp isFound with rfl | inRest
      · have smaller := ascendingToo.1 image isImage
        rw [← ordered _ _ _ _ least isRelated] at smaller
        simp at smaller
      · exact ⟨found, inRest, isRelated⟩

theorem forall₂_eraseDups [DecidableEq α] [DecidableEq β]
    (same : ∀ left right image other, related left image → related right other →
      (left = right ↔ image = other)) (each : Forall₂ related items others) :
    Forall₂ related items.eraseDups others.eraseDups := by
  generalize length : items.length = bound
  induction bound using Nat.strongRecOn generalizing items others with
  | ind bound ih =>
    cases each with
    | nil => simp
    | @cons item other items others first rest =>
      rw [eraseDups_cons, eraseDups_cons]
      have shorter := length_filter_le (fun found => !found == item) items
      rw [length_cons] at length
      refine .cons first (ih _ (by omega) (rel_filter ?_ rest) rfl)
      intro _ _ isRelated
      simpa using not_congr (same _ _ _ _ isRelated first)

end Lists

section Mirrors

variable (states : StateId → StateId → Prop) (bodies : LayoutId → LayoutId → Prop)

structure Loop.Mirrors (source destination : Loop) : Prop where
  body : bodies source.body destination.body
  exit : states source.exit destination.exit
  toCome : source.toCome = destination.toCome

structure Position.Mirrors (source destination : Position) : Prop where
  state : states source.state destination.state
  loops : Forall₂ (Loop.Mirrors states bodies) source.loops destination.loops

structure Run.Mirrors (source destination : Run) : Prop where
  body : bodies source.body destination.body
  count : source.count = destination.count
  exit : states source.exit destination.exit
  outer : Forall₂ (Loop.Mirrors states bodies) source.outer destination.outer

end Mirrors

/-- States and layouts of one arena correspond to those of another one. Layouts correspond as bodies
of repeats; which ones correspond as referents is given. -/
structure Correspondence (first second : Arena) (referents : LayoutId → LayoutId → Prop) where
  plot : Plot
  plotToo : Plot
  states : StateId → StateId → Prop
  bodies : LayoutId → LayoutId → Prop
  charts : first.Charts plot fun _ => True
  chartsToo : second.Charts plotToo fun _ => True
  edges : ∀ {state image}, states state image →
    Forall₂ (Edge.Corresponds states bodies referents) (first.edges state) (second.edges image)
  accepting : ∀ {state image}, states state image →
    (first.state state).accepting = (second.state image).accepting
  start : ∀ {body image}, bodies body image → states (first.start body) (second.start image)
  stop : ∀ {body image}, bodies body image → states (first.stop body) (second.stop image)
  size : ∀ {body image}, bodies body image → (first.layout body).size = (second.layout image).size
  statesOrdered : ∀ {left right image other}, states left image → states right other →
    compare left.index right.index = compare image.index other.index
  bodiesOrdered : ∀ {left right image other}, bodies left image → bodies right other →
    compare left.index right.index = compare image.index other.index

namespace Correspondence

structure Reads {α : Type} (referents : LayoutId → LayoutId → Prop) (behind : α → α → Prop)
    (read image : Token × α) : Prop where
  token : read.1.Mirrors referents image.1
  behind : behind read.2 image.2

structure Aheads (referents : LayoutId → LayoutId → Prop) (positions : Position → Position → Prop)
    (ahead image : Ahead) : Prop where
  mayEnd : ahead.mayEnd = image.mayEnd
  reads : Forall₂ (Reads referents positions) ahead.reads image.reads

variable {first second : Arena} {referents : LayoutId → LayoutId → Prop}
  (relation : Correspondence first second referents) {position image next other : Position}

abbrev Positions (position image : Position) : Prop :=
  position.Mirrors relation.states relation.bodies image

structure Tracks (position image : Position) : Prop where
  positions : relation.Positions position image
  within : ∃ root, position.Within first relation.plot root
  withinToo : ∃ root, image.Within second relation.plotToo root

section Symmetry

theorem Edge.Corresponds.symm {states : StateId → StateId → Prop}
    {bodies : LayoutId → LayoutId → Prop} {edge edgeToo : Edge}
    (same : edge.Corresponds states bodies referents edgeToo) :
    edgeToo.Corresponds (flip states) (flip bodies) (flip referents) edge := by
  rcases edge with ⟨_, _⟩
  rcases edgeToo with ⟨_, _⟩
  rcases same with ⟨sameLabel, sameTarget⟩
  refine ⟨?_, sameTarget⟩
  simp only at sameLabel
  cases sameLabel with
  | @rep body image isImage count =>
    have isImageToo : flip bodies image body := isImage
    exact .rep isImageToo count
  | token mirrors => exact .token mirrors.symm

def symm : Correspondence second first (flip referents) where
  plot := relation.plotToo
  plotToo := relation.plot
  states := flip relation.states
  bodies := flip relation.bodies
  charts := relation.chartsToo
  chartsToo := relation.charts
  edges same := Forall₂.flip ((relation.edges same).imp fun _ _ => Edge.Corresponds.symm)
  accepting same := (relation.accepting same).symm
  start := relation.start
  stop := relation.stop
  size same := (relation.size same).symm
  statesOrdered same sameToo := (relation.statesOrdered same sameToo).symm
  bodiesOrdered same sameToo := (relation.bodiesOrdered same sameToo).symm

variable {relation}

theorem Tracks.symm (tracks : relation.Tracks position image) :
    relation.symm.Tracks image position := by
  refine ⟨⟨tracks.positions.state, Forall₂.flip (tracks.positions.loops.imp ?_)⟩, tracks.withinToo,
    tracks.within⟩
  exact fun _ _ same => ⟨same.body, same.exit, same.toCome.symm⟩

end Symmetry

theorem compare_cons {left right image other : Nat} {lefts rights images others : List Nat}
    (head : compare left right = compare image other)
    (tail : compare lefts rights = compare images others) :
    compare (left :: lefts) (right :: rights) = compare (image :: images) (other :: others) := by
  have cons (left right : Nat) (lefts rights : List Nat) : compare (left :: lefts)
      (right :: rights) = (compare left right).then (compare lefts rights) :=
      List.compareLex_cons_cons
  rw [cons, cons, head, tail]

theorem ordered_loops {loops loopsToo images imagesToo : List Loop}
    (same : Forall₂ (Loop.Mirrors relation.states relation.bodies) loops images)
    (sameToo : Forall₂ (Loop.Mirrors relation.states relation.bodies) loopsToo imagesToo) :
    compare (loops.flatMap Loop.key) (loopsToo.flatMap Loop.key) =
      compare (images.flatMap Loop.key) (imagesToo.flatMap Loop.key) := by
  induction same generalizing loopsToo imagesToo with
  | nil =>
    cases sameToo with
    | nil | cons => rfl
  | cons head _ ih =>
    cases sameToo with
    | nil => rfl
    | cons headToo restToo =>
      simp only [flatMap_cons, Loop.key_eq, cons_append, nil_append, head.toCome, headToo.toCome]
      apply compare_cons (relation.bodiesOrdered head.body headToo.body)
      apply compare_cons (relation.statesOrdered head.exit headToo.exit)
      exact compare_cons rfl (compare_cons rfl (ih restToo))

theorem ordered : Ordered relation.Positions key key := by
  intro _ _ _ _ same sameToo
  refine compare_cons (relation.statesOrdered same.state sameToo.state) ?_
  exact relation.ordered_loops (forall₂_reverse_iff.mpr same.loops)
    (forall₂_reverse_iff.mpr sameToo.loops)

theorem eq_iff (same : relation.Positions position image)
    (sameToo : relation.Positions next other) : position = next ↔ image = other := by
  have keys (left right : Position) : left = right ↔ compare left.key right.key = .eq := by
    rw [Std.LawfulEqCmp.compare_eq_iff_eq]
    exact ⟨congrArg key, key_injective⟩
  rw [keys, keys, relation.ordered _ _ _ _ same sameToo]

theorem state_eq_iff {left right image other : StateId} (same : relation.states left image)
    (sameToo : relation.states right other) : left = right ↔ image = other := by
  have numbers := relation.statesOrdered same sameToo
  rcases left with ⟨_⟩
  rcases right with ⟨_⟩
  rcases image with ⟨_⟩
  rcases other with ⟨_⟩
  simp only [StateId.mk.injEq] at numbers ⊢
  rw [← Nat.compare_eq_eq, ← Nat.compare_eq_eq, numbers]

section Ahead

variable {positions : Position → Position → Prop}

omit relation in
theorem Aheads.append {ahead image more moreToo : Ahead}
    (same : Aheads referents positions ahead image)
    (sameToo : Aheads referents positions more moreToo) :
    Aheads referents positions (ahead ++ more) (image ++ moreToo) where
  mayEnd := by rw [Ahead.mayEnd_append, Ahead.mayEnd_append, same.mayEnd, sameToo.mayEnd]
  reads := rel_append same.reads sameToo.reads

omit relation in
theorem aheads_concat {all images : List Ahead}
    (each : Forall₂ (Aheads referents positions) all images) :
    Aheads referents positions (Ahead.concat all) (Ahead.concat images) := by
  induction each with
  | nil => exact ⟨rfl, .nil⟩
  | cons head _ ih => exact head.append ih

section Same

variable (same : relation.Positions position image)
include same

theorem finishedRound? :
    Option.Rel (fun round imageRound =>
        round.1.Mirrors relation.states relation.bodies imageRound.1 ∧
          Forall₂ (Loop.Mirrors relation.states relation.bodies) round.2 imageRound.2)
      (position.finishedRound? first) (image.finishedRound? second) := by
  rcases position with ⟨state, loops⟩
  rcases image with ⟨stateToo, loopsToo⟩
  rcases same with ⟨isState, isLoops⟩
  simp only at isState isLoops
  simp only [finishedRound?]
  cases isLoops with
  | nil => exact .none
  | cons head rest =>
    have atStop := relation.state_eq_iff isState (relation.stop head.body)
    simp only
    split
    · rename_i isStop
      rw [if_pos (atStop.mp isStop)]
      exact .some ⟨head, rest⟩
    · rename_i notStop
      rw [if_neg fun isStop => notStop (atStop.mpr isStop)]
      exact .none

theorem enter {edge edgeToo : Edge}
    (sameEdge : edge.Corresponds relation.states relation.bodies referents edgeToo) :
    Forall₂ relation.Positions (position.enter first edge) (image.enter second edgeToo) := by
  rcases edge with ⟨_, _⟩
  rcases edgeToo with ⟨_, _⟩
  rcases sameEdge with ⟨sameLabel, sameTarget⟩
  simp only at sameLabel sameTarget
  cases sameLabel with
  | token => exact .nil
  | rep isImage =>
    simp only [Position.enter]
    refine rel_append ?_ ?_
    · split
      · exact .cons ⟨relation.start isImage, .cons ⟨isImage, sameTarget, rfl⟩ same.loops⟩ .nil
      · exact .nil
    · split
      · exact .cons ⟨sameTarget, same.loops⟩ .nil
      · exact .nil

theorem silent : Forall₂ relation.Positions (position.silent first) (image.silent second) := by
  have rounds := relation.finishedRound? same
  rw [Position.silent, Position.silent]
  generalize position.finishedRound? first = round at rounds
  generalize image.finishedRound? second = imageRound at rounds
  cases rounds with
  | none =>
    have edges := rel_reverse (relation.edges same.state)
    exact rel_flatMap edges fun _ _ sameEdge => relation.enter same sameEdge
  | @some round imageRound sameRound =>
    rcases round with ⟨_, _⟩
    rcases imageRound with ⟨_, _⟩
    rcases sameRound with ⟨sameLoop, sameOuter⟩
    simp only at sameLoop sameOuter
    simp only [afterRound, sameLoop.toCome]
    refine rel_append ?_ ?_
    · split
      · exact .cons ⟨relation.start sameLoop.body,
          .cons ⟨sameLoop.body, sameLoop.exit, rfl⟩ sameOuter⟩ .nil
      · exact .nil
    · split
      · exact .cons ⟨sameLoop.exit, sameOuter⟩ .nil
      · exact .nil

theorem ownAhead :
    Aheads referents relation.Positions (position.ownAhead first) (image.ownAhead second) := by
  refine ⟨?_, ?_⟩
  · have noLoops : position.loops.isEmpty = image.loops.isEmpty := by
      rcases position with ⟨_, _⟩
      rcases image with ⟨_, _⟩
      cases same.loops <;> rfl
    simp only [Position.ownAhead, noLoops, relation.accepting same.state]
  · refine rel_filterMap ?_ (relation.edges same.state)
    rintro ⟨_, _⟩ ⟨_, _⟩ ⟨sameLabel, sameTarget⟩
    simp only at sameLabel sameTarget
    cases sameLabel with
    | token mirrors => exact .some ⟨mirrors, sameTarget, same.loops⟩
    | rep => exact .none

end Same

theorem aheadWithin (depth : Nat) (same : relation.Positions position image) :
    Aheads referents relation.Positions (aheadWithin first depth position)
      (aheadWithin second depth image) := by
  induction depth generalizing position image with
  | zero => exact ⟨rfl, .nil⟩
  | succ _ ih =>
    have beyond := aheads_concat (rel_map (fun _ _ sameNext => ih sameNext) (relation.silent same))
    have rounds := relation.finishedRound? same
    rw [aheadWithin, aheadWithin]
    generalize position.finishedRound? first = round at rounds
    generalize image.finishedRound? second = imageRound at rounds
    cases rounds with
    | none => exact (relation.ownAhead same).append beyond
    | some => exact beyond

variable (tracks : relation.Tracks position image)
include tracks

theorem ahead : Aheads referents relation.Tracks (position.ahead first) (image.ahead second) := by
  rcases tracks.within with ⟨root, within⟩
  rcases tracks.withinToo with ⟨rootToo, withinToo⟩
  let depth := position.silentDepth first + image.silentDepth second
  have same := relation.aheadWithin depth tracks.positions
  rw [aheadWithin_eq_ahead relation.charts within (Nat.le_add_right _ _ : _ ≤ depth),
    aheadWithin_eq_ahead relation.chartsToo withinToo (Nat.le_add_left _ _ : _ ≤ depth)] at same
  refine ⟨same.mayEnd, forall₂_imp_of_mem ?_ same.reads⟩
  rintro ⟨_, _⟩ ⟨_, _⟩ member memberToo ⟨sameToken, samePosition⟩
  have reads := (mem_reads_ahead relation.charts within).mp member
  have readsToo := (mem_reads_ahead relation.chartsToo withinToo).mp memberToo
  exact ⟨sameToken, samePosition, ⟨root, reads.within relation.charts within⟩,
    rootToo, readsToo.within relation.chartsToo withinToo⟩

theorem exists_reads {token : Token} (reads : Position.Reads first position token next) :
    ∃ tokenToo nextToo, Position.Reads second image tokenToo nextToo ∧
      token.Mirrors referents tokenToo ∧ relation.Tracks next nextToo := by
  rcases tracks.within with ⟨_, within⟩
  rcases tracks.withinToo with ⟨_, withinToo⟩
  have member := (mem_reads_ahead relation.charts within).mpr reads
  rcases exists_of_mem_left (relation.ahead tracks).reads member with
    ⟨⟨tokenToo, nextToo⟩, memberToo, sameToken, sameNext⟩
  exact ⟨tokenToo, nextToo, (mem_reads_ahead relation.chartsToo withinToo).mp memberToo, sameToken,
    sameNext⟩

theorem ends_iff : Ends first position ↔ Ends second image := by
  rcases tracks.within with ⟨_, within⟩
  rcases tracks.withinToo with ⟨_, withinToo⟩
  rw [← mayEnd_ahead relation.charts within, ← mayEnd_ahead relation.chartsToo withinToo,
    (relation.ahead tracks).mayEnd]

end Ahead

section Padding

omit relation in
theorem mirrors_uninit {token tokenToo : Token} (mirrors : token.Mirrors referents tokenToo) :
    token = .cell .uninit ↔ tokenToo = .cell .uninit := by
  cases mirrors <;> simp

theorem afterUninit (tracks : relation.Tracks position image) :
    Forall₂ relation.Tracks (position.afterUninit first) (image.afterUninit second) := by
  refine rel_filterMap ?_ (relation.ahead tracks).reads
  rintro ⟨_, _⟩ ⟨_, _⟩ ⟨sameToken, sameNext⟩
  simp only [mirrors_uninit sameToken]
  split
  · exact .some sameNext
  · exact .none

theorem passUninit (width : Nat) {positions images : List Position}
    (each : Forall₂ relation.Tracks positions images) :
    Forall₂ relation.Tracks (passUninit first width positions)
      (passUninit second width images) := by
  induction width generalizing positions images with
  | zero => exact each
  | succ _ ih =>
    cases each with
    | nil => exact .nil
    | cons head rest =>
      rw [Position.passUninit, Position.passUninit]
      · refine ih (forall₂_eraseDups ?_ (rel_flatMap (.cons head rest) ?_))
        · intro _ _ _ _ same sameToo
          exact relation.eq_iff same.positions sameToo.positions
        · exact fun _ _ tracks => relation.afterUninit tracks
      · simp
      · simp

theorem companions : Companions first second (Token.Mirrors referents) relation.Tracks where
  forth tracks reads := relation.exists_reads tracks reads
  back tracks reads := by
    rcases relation.symm.exists_reads tracks.symm reads with
      ⟨token, next, readsFirst, mirrors, tracksNext⟩
    exact ⟨token, next, readsFirst, mirrors.symm, tracksNext.symm⟩
  ends tracks := relation.ends_iff tracks
  padding := mirrors_uninit

theorem endsInPadding (tracks : relation.Tracks position image) :
    position.endsInPadding first = image.endsInPadding second := by
  rcases tracks.within with ⟨_, within⟩
  rcases tracks.withinToo with ⟨_, withinToo⟩
  rw [Bool.eq_iff_iff, endsInPadding_iff relation.charts within,
    endsInPadding_iff relation.chartsToo withinToo]
  exact ⟨relation.companions.pads tracks, relation.symm.companions.pads tracks.symm⟩

end Padding

theorem runAgain {states : StateId → StateId → Prop} {bodies : LayoutId → LayoutId → Prop}
    {loop loopToo : Loop} {outer outerToo : List Loop}
    (sameLoop : loop.Mirrors states bodies loopToo)
    (sameOuter : Forall₂ (Loop.Mirrors states bodies) outer outerToo) :
    Option.Rel (Run.Mirrors states bodies)
      (if loop.toCome.mayStop then none else some ⟨loop.body, loop.toCome, loop.exit, outer⟩)
      (if loopToo.toCome.mayStop then none else some
        ⟨loopToo.body, loopToo.toCome, loopToo.exit, outerToo⟩) := by
  rw [sameLoop.toCome]
  split
  · exact .none
  · exact .some ⟨sameLoop.body, rfl, sameLoop.exit, sameOuter⟩

theorem run? (same : relation.Positions position image) :
    Option.Rel (Run.Mirrors relation.states relation.bodies) (position.run? first)
      (image.run? second) := by
  have rounds := relation.finishedRound? same
  have edges := relation.edges same.state
  rw [Position.run?, Position.run?]
  generalize first.edges position.state = own at edges
  generalize second.edges image.state = ownToo at edges
  generalize position.finishedRound? first = round at rounds
  generalize image.finishedRound? second = imageRound at rounds
  rcases edges with _ | ⟨⟨sameLabel, sameTarget⟩, rest⟩
  · cases rounds with
    | none => exact .none
    | some sameRound => exact runAgain sameRound.1 sameRound.2
  · rename_i edge edgeToo _ _
    rcases edge with ⟨_, _⟩
    rcases edgeToo with ⟨_, _⟩
    simp only at sameLabel sameTarget
    cases rest with
    | cons =>
      cases rounds with
      | none => cases sameLabel <;> exact .none
      | some sameRound => cases sameLabel <;> exact runAgain sameRound.1 sameRound.2
    | nil =>
      cases sameLabel with
      | rep isImage => exact .some ⟨isImage, rfl, sameTarget, same.loops⟩
      | token =>
        cases rounds with
        | none => exact .none
        | some sameRound => exact runAgain sameRound.1 sameRound.2

theorem after (rounds : Nat) (same : run.Mirrors relation.states relation.bodies runToo) :
    relation.Positions (run.after first rounds) (runToo.after second rounds) := by
  simp only [Run.after, same.count]
  split
  · exact ⟨same.exit, same.outer⟩
  · exact ⟨relation.stop same.body, .cons ⟨same.body, same.exit, rfl⟩ same.outer⟩

section

variable (tracks : relation.Tracks position image)
  (same : run.Mirrors relation.states relation.bodies runToo) (starts : Starts first position run)
  (startsToo : Starts second image runToo)
include tracks same starts startsToo

theorem tracks_after {rounds : Nat} (some : rounds ≠ 0) :
    relation.Tracks (run.after first rounds) (runToo.after second rounds) := by
  rcases Nat.exists_eq_succ_of_ne_zero some with ⟨begun, rfl⟩
  rcases tracks.within with ⟨root, within⟩
  rcases tracks.withinToo with ⟨rootToo, withinToo⟩
  exact ⟨relation.after _ same, ⟨root, within_after relation.charts starts within begun⟩,
    rootToo, within_after relation.chartsToo startsToo withinToo begun⟩

theorem tracks_body : relation.Tracks (.root first run.body) (.root second runToo.body) := by
  rcases tracks.within with ⟨_, within⟩
  rcases tracks.withinToo with ⟨_, withinToo⟩
  have inside := starts.body_lt relation.charts within
  have insideToo := startsToo.body_lt relation.chartsToo withinToo
  exact ⟨⟨relation.start same.body, .nil⟩, ⟨_, within_root relation.charts inside⟩,
    _, within_root relation.chartsToo insideToo⟩

end

end Correspondence

end Recast
