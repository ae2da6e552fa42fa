import Recast.Proofs.Inclusion.Correspondence
import Recast.Proofs.Inclusion.Survey

/-!
# Checks of corresponding layouts

Where the layouts of one check correspond to those of another one, footholds at corresponding
positions lead to footholds at corresponding positions, in the same order
(`Correspondence.footing_distinct`), and pairings demand corresponding pairings, if inquiries about
corresponding referents are answered alike (`Terms.parallel_step`). How the progress of the two
checks is related is left open (`Tie`).
-/

namespace Recast

open Position List Foothold Correspondence Check

variable {first second : Arena} {referents : LayoutId → LayoutId → Prop} {foothold : Foothold}
  {footholds images : List Foothold} {prospects : Prospects} {terms : Terms}
  {budgets : Filter Budget} {tie : Tie} {entry entryToo : Entry} {position : Position}
  {map mapToo : Std.TreeMap (List Nat) Foothold}

section Lists

variable {α β : Type} {related : α → β → Prop} {items : List α} {others : List β}

section

variable {test : α → Bool} {testToo : β → Bool}
  (same : ∀ item other, related item other → test item = testToo other)
  (each : Forall₂ related items others)
include same each

theorem any_eq_any : items.any test = others.any testToo := by
  induction each with
  | nil => rfl
  | cons head _ ih => simp [same _ _ head, ih]

theorem all_eq_all : items.all test = others.all testToo := by
  induction each with
  | nil => rfl
  | cons head _ ih => simp [same _ _ head, ih]

end

theorem isEmpty_eq_isEmpty (each : Forall₂ related items others) :
    items.isEmpty = others.isEmpty := by
  cases each <;> rfl

theorem eq_of_forall₂_eq {more : List α} (each : Forall₂ Eq items more) : items = more := by
  rwa [forall₂_eq_eq_eq] at each

theorem eq_iff_of_forall₂
    (same : ∀ left right image other, related left image → related right other →
      (left = right ↔ image = other)) {more : List α} {moreToo : List β}
    (each : Forall₂ related items others) (eachToo : Forall₂ related more moreToo) :
    items = more ↔ others = moreToo := by
  induction each generalizing more moreToo with
  | nil => cases eachToo <;> simp
  | cons head _ ih =>
    cases eachToo with
    | nil => simp
    | cons headToo restToo =>
      rw [cons.injEq, cons.injEq, same _ _ _ _ head headToo, ih restToo]

end Lists

namespace Correspondence

variable (relation : Correspondence first second referents)

structure Footing (foothold image : Foothold) : Prop where
  tracks : relation.Tracks foothold.position image.position
  guarded : foothold.guarded = image.guarded

section Distinct

/-- At the keys of corresponding positions there are corresponding footholds, or none. -/
def Maps (map mapToo : Std.TreeMap (List Nat) Foothold) : Prop :=
  ∀ position image, relation.Tracks position image →
    Option.Rel relation.Footing map[position.key]? mapToo[image.key]?

variable {relation} {image : Foothold}

theorem Maps.addTo (maps : relation.Maps map mapToo) (footing : relation.Footing foothold image) :
    relation.Maps (addTo map foothold) (addTo mapToo image) := by
  intro position positionToo tracks
  rw [getElem?_addTo, getElem?_addTo]
  have key_eq_iff (left right : Position) : left.key = right.key ↔ left = right :=
    ⟨key_injective, congrArg key⟩
  have before := maps position positionToo tracks
  simp only [key_eq_iff, relation.eq_iff footing.tracks.positions tracks.positions]
  split
  · generalize map[position.key]? = found at before
    generalize mapToo[positionToo.key]? = foundToo at before
    cases before with
    | none => exact .some footing
    | some same => exact .some ⟨same.tracks, by simp only [footing.guarded, same.guarded]⟩
  · exact before

theorem Maps.foldl (maps : relation.Maps map mapToo)
    (each : Forall₂ relation.Footing footholds images) :
    relation.Maps (footholds.foldl Foothold.addTo map) (images.foldl Foothold.addTo mapToo) := by
  induction each generalizing map mapToo with
  | nil => exact maps
  | cons head _ ih => exact ih (maps.addTo head)

end Distinct

end Correspondence

namespace Foothold

theorem mem_distinct : foothold ∈ distinct footholds ↔
    (footholds.foldl addTo ∅)[foothold.position.key]? = some foothold := by
  have keyed := keyed_empty.foldl footholds
  rw [distinct_eq, mem_map]
  constructor
  · rintro ⟨⟨key, found⟩, member, rfl⟩
    rw [Std.TreeMap.mem_toList_iff_getElem?_eq_some] at member
    rw [keyed key found member]
    exact member
  · intro found
    exact ⟨(_, foothold), Std.TreeMap.mem_toList_iff_getElem?_eq_some.mpr found, rfl⟩

theorem ascending_distinct (footholds : List Foothold) :
    (distinct footholds).Pairwise fun left right =>
      compare left.position.key right.position.key = .lt := by
  have keyed := keyed_empty.foldl footholds
  rw [distinct_eq, pairwise_map]
  have ascending : (footholds.foldl addTo ∅).toList.Pairwise _ := Std.TreeMap.ordered_keys_toList
  refine ascending.imp_of_mem ?_
  rintro ⟨key, foothold⟩ ⟨otherKey, other⟩ member otherMember before
  rw [Std.TreeMap.mem_toList_iff_getElem?_eq_some] at member otherMember
  rw [keyed key foothold member, keyed otherKey other otherMember]
  exact before

theorem exists_position_of_mem_distinct (member : foothold ∈ distinct footholds) :
    ∃ origin ∈ footholds, origin.position = foothold.position := by
  have inside : foothold.position ∈ positions (distinct footholds) := ⟨foothold, member, rfl⟩
  rwa [positions_distinct] at inside

end Foothold

namespace Correspondence

variable {relation : Correspondence first second referents}

theorem footing_distinct (each : Forall₂ relation.Footing footholds images) :
    Forall₂ relation.Footing (distinct footholds) (distinct images) := by
  have maps : relation.Maps (footholds.foldl addTo ∅) (images.foldl addTo ∅) := by
    refine Maps.foldl (fun _ _ _ => ?_) each
    simp only [Std.TreeMap.getElem?_emptyc]
    exact .none
  refine forall₂_of_ascending (fun _ _ _ _ same sameToo =>
    relation.ordered _ _ _ _ same.tracks.positions sameToo.tracks.positions)
    (ascending_distinct footholds) (ascending_distinct images) ?_ ?_
  · intro _ member
    rcases exists_position_of_mem_distinct member with ⟨_, isOrigin, samePosition⟩
    rcases exists_of_mem_left each isOrigin with ⟨originToo, _, footing⟩
    have found := maps _ _ footing.tracks
    rw [samePosition, mem_distinct.mp member] at found
    generalize isFound : (images.foldl addTo ∅)[originToo.position.key]? = foundToo at found
    cases found with
    | @some _ image same =>
      refine ⟨image, mem_distinct.mpr ?_, same⟩
      have keyed := keyed_empty.foldl images
      rw [keyed _ _ isFound]
      exact isFound
  · intro _ member
    rcases exists_position_of_mem_distinct member with ⟨_, isOriginToo, samePosition⟩
    rcases exists_of_mem_right each isOriginToo with ⟨origin, _, footing⟩
    have found := maps _ _ footing.tracks
    rw [samePosition, mem_distinct.mp member] at found
    generalize isFound : (footholds.foldl addTo ∅)[origin.position.key]? = foundToo at found
    cases found with
    | @some foothold _ same =>
      refine ⟨foothold, mem_distinct.mpr ?_, same⟩
      have keyed := keyed_empty.foldl footholds
      rw [keyed _ _ isFound]
      exact isFound

theorem assumptionOf (each : Forall₂ relation.Footing footholds images) :
    assumptionOf footholds = assumptionOf images := by
  simp only [Foothold.assumptionOf, isEmpty_eq_isEmpty each,
    all_eq_all (fun _ _ footing => footing.guarded) each]

section Prospects

structure Prospecting (relation : Correspondence first second referents)
    (prospects image : Prospects) : Prop where
  mayEnd : prospects.mayEnd = image.mayEnd
  isOver : prospects.isOver = image.isOver
  isOverPlainly : prospects.isOverPlainly = image.isOverPlainly
  reads : Forall₂ (Reads referents relation.Footing) prospects.reads image.reads
  markers : Forall₂ (fun marker markerToo => marker.1 = markerToo.1 ∧
    relation.Footing marker.2 markerToo.2) prospects.markers image.markers

section

variable {image : Foothold} (footing : relation.Footing foothold image)
include footing

theorem isOver :
    (Outlook.ofFoothold first foothold).isOver = (Outlook.ofFoothold second image).isOver := by
  have ahead := relation.ahead footing.tracks
  simp only [Outlook.isOver, Outlook.ofFoothold, ahead.mayEnd, isEmpty_eq_isEmpty ahead.reads]

theorem reads :
    Forall₂ (Reads referents relation.Footing) (Outlook.ofFoothold first foothold).reads
      (Outlook.ofFoothold second image).reads := by
  refine rel_map ?_ (relation.ahead footing.tracks).reads
  rintro ⟨_, _⟩ ⟨_, _⟩ ⟨sameToken, tracks⟩
  exact ⟨sameToken, tracks, footing.guarded⟩

end

theorem prospecting (each : Forall₂ relation.Footing footholds images) :
    relation.Prospecting (.ofFootholds first footholds) (.ofFootholds second images) := by
  have allReads : Forall₂ (Reads referents relation.Footing)
      ((footholds.map (Outlook.ofFoothold first)).flatMap Outlook.reads)
      ((images.map (Outlook.ofFoothold second)).flatMap Outlook.reads) := by
    rw [flatMap_map, flatMap_map]
    exact rel_flatMap each fun _ _ footing => reads footing
  refine ⟨?_, ?_, ?_, ?_, ?_⟩
  · simp only [Prospects.ofFootholds, any_map]
    exact any_eq_any (fun _ _ footing => (relation.ahead footing.tracks).mayEnd) each
  · simp only [Prospects.ofFootholds, any_map]
    exact any_eq_any (fun _ _ footing => isOver footing) each
  · simp only [Prospects.ofFootholds, any_map]
    refine any_eq_any (fun foothold image footing => ?_) each
    have sameGuard : (Outlook.ofFoothold first foothold).foothold.guarded =
        (Outlook.ofFoothold second image).foothold.guarded := footing.guarded
    simp only [Function.comp_apply, isOver footing, sameGuard]
  · refine rel_filter ?_ allReads
    rintro ⟨_, _⟩ ⟨_, _⟩ ⟨sameToken, _⟩
    cases sameToken <;> exact Iff.rfl
  · refine rel_filterMap ?_ allReads
    rintro ⟨_, _⟩ ⟨_, _⟩ ⟨sameToken, footing⟩
    cases sameToken with
    | cell | reference => exact .none
    | marker => exact .some ⟨rfl, footing⟩

variable {image : Prospects}

section

variable (same : relation.Prospecting prospects image)
include same

theorem Prospecting.readable : prospects.readable = image.readable := by
  refine rel_foldl (P := Eq) ?_ rfl same.reads
  rintro _ _ rfl ⟨_, _⟩ ⟨_, _⟩ ⟨sameToken, _⟩
  cases sameToken <;> rfl

theorem Prospecting.otherOffers : prospects.otherOffers = image.otherOffers := by
  rw [Prospects.otherOffers, Prospects.otherOffers]
  refine congrArg eraseDups (congrArg₂ (· ++ ·) (eq_of_forall₂_eq ?_) (eq_of_forall₂_eq ?_))
  · refine rel_filterMap ?_ same.reads
    rintro ⟨_, _⟩ ⟨_, _⟩ ⟨sameToken, _⟩
    cases sameToken with
    | cell contents =>
      cases contents with
      | init => exact .none
      | uninit => exact .some rfl
    | @reference source destination sameForm _ _ =>
      have sameAccess := congrArg Guarantee.access sameForm
      have sameAlign := congrArg Guarantee.align sameForm
      simp only [sameAccess, sameAlign]
      exact .some rfl
    | marker => exact .none
  · refine rel_map ?_ same.markers
    rintro ⟨_, _⟩ ⟨_, _⟩ ⟨sameName, _⟩
    exact congrArg Offer.sealed sameName

theorem Prospecting.offer : prospects.offer = image.offer := by
  simp only [Prospects.offer, same.readable, same.otherOffers, same.mayEnd]

end

end Prospects

structure Entries (relation : Correspondence first second referents) (entry image : Entry) :
    Prop where
  footholds : Forall₂ relation.Footing entry.footholds image.footholds
  prospects : relation.Prospecting entry.prospects image.prospects
  barred : entry.barred = image.barred

theorem Entries.refusal {image : Entry} (same : relation.Entries entry image) (found : Offer) :
    entry.refusal found = image.refusal found := by
  simp only [Entry.refusal, same.barred, same.prospects.offer]

section Footing

variable (each : Forall₂ relation.Footing footholds images)
include each

theorem freshMarkers :
    Forall₂ (fun marker markerToo => marker.1 = markerToo.1 ∧
        relation.Footing marker.2 markerToo.2)
      (Entry.freshMarkers footholds (.ofFootholds first footholds))
      (Entry.freshMarkers images (.ofFootholds second images)) := by
  refine rel_filter ?_ (prospecting each).markers
  rintro ⟨_, _⟩ ⟨_, _⟩ ⟨_, nextFooting⟩
  refine Bool.eq_iff_iff.mp (all_eq_all (fun _ _ footing => ?_) each)
  exact decide_eq_decide.mpr
    (not_congr (relation.eq_iff footing.tracks.positions nextFooting.tracks.positions))

theorem head_freshMarkers :
    (Entry.freshMarkers footholds (.ofFootholds first footholds)).head?.map Prod.fst =
      (Entry.freshMarkers images (.ofFootholds second images)).head?.map Prod.fst := by
  have fresh := freshMarkers each
  generalize Entry.freshMarkers footholds (.ofFootholds first footholds) = markers at fresh
  generalize Entry.freshMarkers images (.ofFootholds second images) = markersToo at fresh
  cases fresh with
  | nil => rfl
  | cons head => exact congrArg some head.1

theorem entered :
    Forall₂ relation.Footing (Entry.entered first footholds) (Entry.entered second images) := by
  refine footing_distinct (rel_append each (rel_map ?_ (freshMarkers each)))
  rintro ⟨_, _⟩ ⟨_, _⟩ ⟨_, footing⟩
  exact ⟨footing.tracks, rfl⟩

end Footing

theorem entries_enter (allowed : Bool) (rounds : Nat)
    (each : Forall₂ relation.Footing footholds images) :
    relation.Entries (Entry.enter first allowed rounds footholds)
      (Entry.enter second allowed rounds images) := by
  have prospects := prospecting each
  have barred := head_freshMarkers each
  induction rounds generalizing footholds images with
  | zero =>
    rw [Entry.enter, Entry.enter]
    simp only [barred]
    split
    · exact ⟨each, prospects, rfl⟩
    · exact ⟨each, prospects, rfl⟩
  | succ _ ih =>
    rw [Entry.enter, Entry.enter]
    simp only [barred]
    split
    · have onward := entered each
      exact ih onward (prospecting onward) (head_freshMarkers onward)
    · exact ⟨each, prospects, rfl⟩

theorem located (each : Forall₂ relation.Footing footholds images) :
    Located first relation.plot (positions footholds) := by
  rintro _ ⟨_, member, rfl⟩
  rcases exists_of_mem_left each member with ⟨_, _, footing⟩
  exact footing.tracks.within

theorem located_image (each : Forall₂ relation.Footing footholds images) :
    Located second relation.plotToo (positions images) := by
  rintro _ ⟨_, member, rfl⟩
  rcases exists_of_mem_right each member with ⟨_, _, footing⟩
  exact footing.tracks.withinToo

end Correspondence

namespace Terms

variable {destination : Correspondence terms.arena second referents}

abbrev inArena (terms : Terms) (arena : Arena) : Terms :=
  { terms with arena }

theorem entries_enter (each : Forall₂ destination.Footing footholds images) :
    destination.Entries (terms.enter footholds) ((terms.inArena second).enter images) := by
  let rounds := terms.arena.states.size + second.states.size + 1
  have located := located each
  have locatedToo := located_image each
  have same := Correspondence.entries_enter terms.assumed.safety rounds each
  rw [Entry.enter_eq destination.charts located (by omega : terms.arena.states.size ≤ rounds),
    Entry.enter_eq destination.chartsToo locatedToo
      (by omega : second.states.size ≤ rounds)] at same
  rw [enter, enter, Entry.enter_eq destination.charts located (Nat.le_succ _),
    Entry.enter_eq destination.chartsToo locatedToo (Nat.le_succ _)]
  exact same

end Terms

section Results

variable {α β γ δ : Type} {related : α → β → Prop} {relatedToo : γ → δ → Prop}

/-- Verdicts with related values, or on the same mismatch. -/
inductive Verdicts (related : α → β → Prop) : Except Diagnostic α → Except Diagnostic β → Prop
  | ok {value : α} {image : β} (same : related value image) :
      Verdicts related (.ok value) (.ok image)
  | error (diagnostic : Diagnostic) : Verdicts related (.error diagnostic) (.error diagnostic)

/-- How the progress of one check is tied to that of another one. What is counted does not matter.
-/
structure Tie where
  tied : Progress → Progress → Prop
  count {progress other : Progress} (add : Tally → Tally) : tied progress other →
    tied { progress with tally := add progress.tally } { other with tally := add other.tally }

def Tie.equal : Tie where
  tied := Eq
  count add same := by rw [same]

namespace Check

variable {step : Budget → Check α} {stepToo : Budget → Check β}

/-- Results with related values, or with the same mismatch, after tied progress. -/
inductive Results (tie : Tie) (related : α → β → Prop) :
    EStateM.Result Diagnostic Progress α → EStateM.Result Diagnostic Progress β → Prop
  | ok {value : α} {image : β} {later laterToo : Progress} (same : related value image)
      (tied : tie.tied later laterToo) : Results tie related (.ok value later) (.ok image laterToo)
  | error (diagnostic : Diagnostic) {later laterToo : Progress} (tied : tie.tied later laterToo) :
      Results tie related (.error diagnostic later) (.error diagnostic laterToo)

/-- From tied progress on, two steps come to related results, each with the budgets in question. -/
def Parallel (budgets : Filter Budget) (tie : Tie) (related : α → β → Prop)
    (step : Budget → Check α) (stepToo : Budget → Check β) : Prop :=
  ∀ progress other, tie.tied progress other → ∃ result resultToo,
    (∀ᶠ budget in budgets, step budget progress = result) ∧
    (∀ᶠ budget in budgets, stepToo budget other = resultToo) ∧ Results tie related result resultToo

theorem parallel_const {step : Check α} {stepToo : Check β}
    (results : ∀ progress other, tie.tied progress other →
      Results tie related (step progress) (stepToo other)) :
    Parallel budgets tie related (fun _ => step) (fun _ => stepToo) :=
  fun progress other tied => ⟨_, _, .of_forall fun _ => rfl, .of_forall fun _ => rfl,
    results progress other tied⟩

theorem parallel_pure {value : α} {image : β} (same : related value image) :
    Parallel budgets tie related (fun _ => pure value) (fun _ => pure image) :=
  parallel_const fun _ _ tied => .ok same tied

theorem parallel_throw (diagnostic : Diagnostic) :
    Parallel budgets tie related (fun _ => throw diagnostic) (fun _ => throw diagnostic) :=
  parallel_const fun _ _ tied => .error diagnostic tied

theorem parallel_ofExcept {verdict : Except Diagnostic α} {verdictToo : Except Diagnostic β}
    (same : Verdicts related verdict verdictToo) :
    Parallel budgets tie related (fun _ => ofExcept verdict) (fun _ => ofExcept verdictToo) := by
  cases same with
  | ok same => exact parallel_pure same
  | error diagnostic => exact parallel_throw diagnostic

theorem parallel_count (add : Tally → Tally) :
    Parallel budgets tie Eq (fun _ => count add) (fun _ => count add) :=
  parallel_const fun _ _ tied => .ok rfl (tie.count add tied)

section

variable (steps : Parallel budgets tie related step stepToo)
include steps

theorem Parallel.bind {next : Budget → α → Check γ} {nextToo : Budget → β → Check δ}
    (onward : ∀ value image, related value image →
      Parallel budgets tie relatedToo (fun budget => next budget value) fun budget =>
        nextToo budget image) :
    Parallel budgets tie relatedToo (fun budget => step budget >>= next budget)
      fun budget => stepToo budget >>= nextToo budget := by
  intro progress other tied
  rcases steps progress other tied with ⟨_, _, isResult, isResultToo, results⟩
  cases results with
  | error diagnostic tiedThen =>
    refine ⟨_, _, isResult.mono fun budget same => ?_, isResultToo.mono fun _ same => ?_,
      .error diagnostic tiedThen⟩ <;>
      simp only [Bind.bind, EStateM.bind, same]
  | ok same tiedThen =>
    rcases onward _ _ same _ _ tiedThen with ⟨last, lastToo, isLast, isLastToo, lasts⟩
    refine ⟨last, lastToo, ?_, ?_, lasts⟩
    · filter_upwards [isResult, isLast] with budget first second
      simpa only [Bind.bind, EStateM.bind, first] using second
    · filter_upwards [isResultToo, isLastToo] with budget first second
      simpa only [Bind.bind, EStateM.bind, first] using second

theorem Parallel.attempt :
    Parallel budgets tie (Verdicts related) (fun budget => attempt (step budget))
      fun budget => attempt (stepToo budget) := by
  intro progress other tied
  rcases steps progress other tied with ⟨_, _, isResult, isResultToo, results⟩
  cases results with
  | error diagnostic tiedThen =>
    refine ⟨_, _, isResult.mono fun budget same => ?_, isResultToo.mono fun _ same => ?_,
      .ok (.error diagnostic) tiedThen⟩ <;> simp only [Check.attempt, same]
  | ok same tiedThen =>
    refine ⟨_, _, isResult.mono fun budget isOk => ?_, isResultToo.mono fun _ isOk => ?_,
      .ok (.ok same) tiedThen⟩ <;>
      simp only [Check.attempt, isOk]

theorem Parallel.congr {other : Budget → Check α} {otherToo : Budget → Check β}
    (same : ∀ progress, ∀ᶠ budget in budgets, other budget progress = step budget progress)
    (sameToo : ∀ progress, ∀ᶠ budget in budgets,
      otherToo budget progress = stepToo budget progress) :
    Parallel budgets tie related other otherToo := by
  intro progress later tied
  rcases steps progress later tied with ⟨result, resultToo, isResult, isResultToo, results⟩
  refine ⟨result, resultToo, ?_, ?_, results⟩
  · filter_upwards [same progress, isResult] with budget first second
    exact first.trans second
  · filter_upwards [sameToo later, isResultToo] with budget first second
    exact first.trans second

end

theorem parallel_refl (step : Check α) :
    Parallel budgets .equal Eq (fun _ => step) fun _ => step := by
  refine parallel_const fun progress other same => ?_
  rw [show progress = other from same]
  cases step other with
  | ok => exact .ok rfl rfl
  | error diagnostic => exact .error diagnostic rfl

theorem Parallel.eq {step stepToo : Check α} (budget : Budget)
    (steps : Parallel (pure budget) .equal Eq (fun _ => step) fun _ => stepToo) :
    step = stepToo := by
  funext progress
  rcases steps progress progress rfl with ⟨result, resultToo, isResult, isResultToo, results⟩
  have same : result = resultToo := by
    cases results with
    | ok same tied => rw [same, tied]
    | error _ tied => rw [tied]
  calc step progress = result := Filter.eventually_pure.mp isResult
    _ = resultToo := same
    _ = stepToo progress := (Filter.eventually_pure.mp isResultToo).symm

end Check

end Results

namespace Correspondence

/-- The same pairings at corresponding positions of the source and of the destination. -/
structure Pairings (source destination : Correspondence first second referents)
    (pairing image : Pairing) : Prop where
  source : source.Tracks pairing.source image.source
  footholds : Forall₂ destination.Footing pairing.footholds image.footholds
  distinct : (pairing.footholds.map Foothold.position).Nodup

structure Onwards (source destination : Correspondence first second referents)
    (onward image : Onward) : Prop where
  exercised : onward.exercised = image.exercised
  next : Forall₂ (fun demand demandToo => demand.1 = demandToo.1 ∧
    Pairings source destination demand.2 demandToo.2) onward.next image.next

variable {source destination : Correspondence first second referents}

theorem onwards_nil : Onwards source destination {} {} := ⟨rfl, .nil⟩

theorem Onwards.append {onward onwardToo image imageToo : Onward}
    (same : Onwards source destination onward image)
    (sameToo : Onwards source destination onwardToo imageToo) :
    Onwards source destination (onward ++ onwardToo) (image ++ imageToo) where
  exercised := congrArg₂ (· ∪ ·) same.exercised sameToo.exercised
  next := rel_append same.next sameToo.next

theorem onwards_distinct {image : Position} (tracks : source.Tracks position image)
    (each : Forall₂ destination.Footing footholds images) (exercised : Assumptions)
    (distance : Nat) :
    Onwards source destination { exercised, next := [(distance, ⟨position, distinct footholds⟩)] }
      { exercised, next := [(distance, ⟨image, distinct images⟩)] } :=
  ⟨rfl, .cons ⟨rfl, tracks, footing_distinct each, nodup_distinct _⟩ .nil⟩

structure Classes (destination : Correspondence first second referents) (part image : ByteClass) :
    Prop where
  values : part.values = image.values
  footholds : Forall₂ destination.Footing part.footholds image.footholds

theorem classes_split {imageFoothold : Foothold} {part image : ByteClass} (accepted : ByteSet)
    (footing : destination.Footing foothold imageFoothold) (same : destination.Classes part image) :
    Forall₂ destination.Classes (part.split accepted foothold)
      (image.split accepted imageFoothold) := by
  refine rel_filter (fun _ _ sameToo => ?_) (.cons ⟨?_, ?_⟩ (.cons ⟨?_, ?_⟩ .nil))
  · simp only [sameToo.values]
  · simp only [same.values]
  · exact .cons footing same.footholds
  · simp only [same.values]
  · exact same.footholds

theorem classes_partition {reads images : List (Token × Foothold)} (values : ByteSet)
    (each : Forall₂ (Reads referents destination.Footing) reads images) :
    Forall₂ destination.Classes (ByteClass.partition values reads)
      (ByteClass.partition values images) := by
  refine rel_foldl (P := Forall₂ destination.Classes) ?_ (.cons ⟨rfl, .nil⟩ .nil) each
  rintro _ _ sameClasses ⟨_, _⟩ ⟨_, _⟩ ⟨sameToken, footing⟩
  cases sameToken with
  | cell => exact rel_flatMap sameClasses fun _ _ => classes_split _ footing
  | reference | marker => exact sameClasses

theorem Prospecting.behindValues {image : Prospects}
    (same : destination.Prospecting prospects image) :
    Forall₂ destination.Footing prospects.behindValues image.behindValues := by
  refine rel_filterMap ?_ same.reads
  rintro ⟨_, _⟩ ⟨_, _⟩ ⟨sameToken, footing⟩
  cases sameToken with
  | cell contents =>
    cases contents with
    | init => exact .some footing
    | uninit => exact .none
  | reference | marker => exact .none

section Matching

variable {image : Position}

section

variable (same : destination.Entries entry entryToo) (tracks : source.Tracks position image)
include same tracks

theorem Entries.matchUninit :
    Verdicts (Onwards source destination) (entry.matchUninit position)
      (entryToo.matchUninit image) := by
  rw [Entry.matchUninit, Entry.matchUninit]
  generalize isBehind : entry.prospects.reads.filterMap _ = kept
  generalize isBehindToo : entryToo.prospects.reads.filterMap _ = keptToo
  have behind : Forall₂ destination.Footing kept keptToo := by
    rw [← isBehind, ← isBehindToo]
    refine rel_filterMap ?_ same.prospects.reads
    rintro ⟨_, _⟩ ⟨_, _⟩ ⟨sameToken, footing⟩
    simp only [mirrors_uninit sameToken]
    split
    · exact .some footing
    · exact .none
  simp only [isEmpty_eq_isEmpty behind, same.refusal, assumptionOf behind]
  split
  · exact .error _
  · exact .ok (onwards_distinct tracks behind _ _)

theorem Entries.matchMarker (each : Forall₂ destination.Footing footholds images) (name : String) :
    Onwards source destination (entry.matchMarker position footholds name)
      (entryToo.matchMarker image images name) := by
  refine onwards_distinct tracks (rel_append each (rel_filterMap ?_ same.prospects.markers)) _ _
  rintro ⟨_, _⟩ ⟨_, _⟩ ⟨sameName, footing⟩
  simp only at sameName
  simp only [sameName]
  split
  · exact .some footing
  · exact .none

end

end Matching

end Correspondence

namespace Terms

variable {source destination : Correspondence terms.arena second referents} {image : Position}
  {nested nestedToo : Budget → Nested}

open Correspondence (Pairings Onwards)

section Cells

variable (same : destination.Entries entry entryToo)
include same

theorem parallel_matchClass {part imagePart : ByteClass}
    (samePart : destination.Classes part imagePart) :
    Verdicts (fun found foundToo => found.1 = foundToo.1 ∧
        Forall₂ destination.Footing found.2 foundToo.2 ∧ (found.2.map Foothold.position).Nodup)
      (terms.matchClass entry part) ((terms.inArena second).matchClass entryToo imagePart) := by
  have behind := same.prospects.behindValues
  simp only [matchClass, isEmpty_eq_isEmpty samePart.footholds, isEmpty_eq_isEmpty behind,
    assumptionOf samePart.footholds, assumptionOf behind, same.refusal,
    samePart.values]
  split
  · exact .ok ⟨rfl, footing_distinct samePart.footholds, nodup_distinct _⟩
  · split
    · exact .ok ⟨rfl, footing_distinct behind, nodup_distinct _⟩
    · exact .error _

theorem parallel_matchClasses {classes imageClasses : List ByteClass}
    (tracks : source.Tracks position image)
    (each : Forall₂ destination.Classes classes imageClasses) :
    Verdicts (Onwards source destination) (terms.matchClasses entry position classes)
      ((terms.inArena second).matchClasses entryToo image imageClasses) := by
  induction each with
  | nil => exact .ok onwards_nil
  | cons head _ ih =>
    have first := parallel_matchClass same head
    rw [matchClasses, matchClasses]
    generalize terms.matchClass entry _ = found at first
    generalize (terms.inArena second).matchClass entryToo _ = foundToo at first
    cases first with
    | error diagnostic => exact .error diagnostic
    | @ok found foundToo sameFound =>
      rcases found with ⟨exercised, footholds⟩
      rcases foundToo with ⟨_, images⟩
      rcases sameFound with ⟨sameExercised, footing, distinct⟩
      simp only at sameExercised footing distinct
      subst sameExercised
      simp only
      generalize terms.matchClasses entry position _ = rest at ih
      generalize (terms.inArena second).matchClasses entryToo image _ = restToo at ih
      cases ih with
      | error diagnostic => exact .error diagnostic
      | ok others =>
        have head : Onwards source destination { exercised, next := [(1, ⟨position, footholds⟩)] }
            { exercised, next := [(1, ⟨image, images⟩)] } :=
          ⟨rfl, .cons ⟨rfl, tracks, footing, distinct⟩ .nil⟩
        exact .ok (head.append others)

theorem parallel_matchBytes (tracks : source.Tracks position image) (values : ByteSet) :
    Verdicts (Onwards source destination) (terms.matchBytes entry position values)
      ((terms.inArena second).matchBytes entryToo image values) :=
  parallel_matchClasses same tracks (classes_partition values same.prospects.reads)

end Cells

section References

variable {left leftToo : Reference}

def AnsweredAlike (budgets : Filter Budget) (tie : Tie) (referents : LayoutId → LayoutId → Prop)
    (nested nestedToo : Budget → Nested) : Prop :=
  ∀ left right leftToo rightToo, referents left leftToo → referents right rightToo →
    Parallel budgets tie Eq (fun budget => nested budget left right)
      fun budget => nestedToo budget leftToo rightToo

theorem parallel_compareReferents {left right leftToo rightToo : LayoutId}
    (answers : AnsweredAlike budgets tie referents nested nestedToo) (same : referents left leftToo)
    (sameToo : referents right rightToo) :
    Parallel budgets tie Eq (fun budget => compareReferents (nested budget) left right)
      fun budget => compareReferents (nestedToo budget) leftToo rightToo := by
  refine (answers _ _ _ _ same sameToo).attempt.bind fun _ _ sameVerdict => ?_
  cases sameVerdict with
  | ok sameValue => exact parallel_pure sameValue
  | error => exact parallel_throw _

theorem parallel_compareReferences {right rightToo : Reference}
    (answers : AnsweredAlike budgets tie referents nested nestedToo)
    (same : Token.Mirrors referents (.reference left) (.reference leftToo))
    (sameToo : Token.Mirrors referents (.reference right) (.reference rightToo)) :
    Parallel budgets tie Eq (fun budget => terms.compareReferences (nested budget) left right)
      fun budget => (terms.inArena second).compareReferences (nestedToo budget) leftToo
        rightToo := by
  rcases left with ⟨_, _, _⟩
  rcases right with ⟨guaranteeToo, _, _⟩
  rcases leftToo with ⟨_, _, _⟩
  rcases rightToo with ⟨_, _, _⟩
  rcases same with _ | ⟨sameForm, sameWidth, sameReferent⟩
  rcases sameToo with _ | ⟨sameFormToo, sameWidthToo, sameReferentToo⟩
  simp only at sameForm sameWidth sameReferent sameFormToo sameWidthToo sameReferentToo
  subst sameForm sameWidth sameFormToo sameWidthToo
  have verdicts {α : Type} (verdict : Except Diagnostic α) : Verdicts Eq verdict verdict := by
    cases verdict with
    | ok => exact .ok rfl
    | error diagnostic => exact .error diagnostic
  simp only [compareReferences]
  refine (parallel_ofExcept (verdicts _)).bind fun _ _ _ => ?_
  refine (parallel_ofExcept (verdicts _)).bind fun _ _ sameAligned => ?_
  refine (parallel_ofExcept (verdicts _)).bind fun _ _ sameOutlived => ?_
  refine (parallel_compareReferents answers sameReferent sameReferentToo).bind fun _ _ sameForth =>
    ?_
  subst sameAligned sameOutlived sameForth
  cases guaranteeToo.access with
  | shared => exact parallel_pure rfl
  | exclusive =>
    refine (parallel_compareReferents answers sameReferentToo sameReferent).bind fun _ _ sameBack =>
      ?_
    exact parallel_pure (by rw [sameBack])

/-- What the references of the destination make of one of the source corresponds. -/
structure Coverages (destination : Correspondence terms.arena second referents)
    (coverage coverageToo : Coverage) : Prop where
  exercised : coverage.exercised = coverageToo.exercised
  footholds : Forall₂ destination.Footing coverage.footholds coverageToo.footholds
  failure : coverage.failure = coverageToo.failure

theorem parallel_tryReferences {reads readsToo : List (Token × Foothold)}
    (answers : AnsweredAlike budgets tie referents nested nestedToo)
    (same : Token.Mirrors referents (.reference left) (.reference leftToo))
    (each : Forall₂ (Reads referents destination.Footing) reads readsToo) :
    Parallel budgets tie (Coverages destination)
      (fun budget => terms.tryReferences (nested budget) left reads)
      fun budget => (terms.inArena second).tryReferences (nestedToo budget) leftToo readsToo := by
  induction each with
  | nil => exact parallel_pure ⟨rfl, .nil, rfl⟩
  | @cons read readToo _ _ head _ ih =>
    rcases read with ⟨_, _⟩
    rcases readToo with ⟨_, _⟩
    rcases head with ⟨sameToken, footing⟩
    simp only at sameToken footing
    cases sameToken with
    | cell | marker => exact ih
    | @reference _ _ sameForm sameWidth sameReferent =>
      simp only [tryReferences]
      have compares := @parallel_compareReferences second _ terms _ _ _ _ _ _ _ _ answers same
        (.reference sameForm sameWidth sameReferent)
      refine compares.attempt.bind fun _ _ sameVerdict => ?_
      refine ih.bind fun _ _ sameOthers => ?_
      cases sameVerdict with
      | ok sameExercised =>
        refine parallel_pure ⟨?_, .cons footing sameOthers.footholds, sameOthers.failure⟩
        simp only [sameExercised, sameOthers.exercised]
      | error =>
        exact parallel_pure ⟨sameOthers.exercised, sameOthers.footholds, rfl⟩

theorem parallel_matchReference (answers : AnsweredAlike budgets tie referents nested nestedToo)
    (sameEntry : destination.Entries entry entryToo) (tracks : source.Tracks position image)
    (same : Token.Mirrors referents (.reference left) (.reference leftToo)) :
    Parallel budgets tie (Onwards source destination)
      (fun budget => terms.matchReference (nested budget) entry position left)
      fun budget => (terms.inArena second).matchReference (nestedToo budget) entryToo image
        leftToo := by
  simp only [matchReference]
  refine (parallel_tryReferences answers same sameEntry.prospects.reads).bind
    fun coverage coverageToo sameCoverage => ?_
  rcases same with _ | ⟨sameForm, sameWidth, _⟩
  have sameAccess := congrArg Guarantee.access sameForm
  have sameAlign := congrArg Guarantee.align sameForm
  have forgotten : Forall₂ destination.Footing (entry.footholds.flatMap fun foothold =>
        (passUninit terms.arena left.width [foothold.position]).map foothold.moveTo)
      (entryToo.footholds.flatMap fun foothold =>
        (passUninit second leftToo.width [foothold.position]).map foothold.moveTo) := by
    refine rel_flatMap sameEntry.footholds fun _ _ footing => ?_
    rw [sameWidth]
    refine rel_map ?_ (destination.passUninit leftToo.width (.cons footing.tracks .nil))
    exact fun _ _ onward => ⟨onward, footing.guarded⟩
  have behind := rel_append sameCoverage.footholds forgotten
  simp only [sameCoverage.exercised, sameCoverage.failure, sameEntry.refusal, sameAccess, sameAlign]
  rw [← sameWidth] at behind ⊢
  rw [isEmpty_eq_isEmpty behind, assumptionOf behind]
  split
  · exact parallel_throw _
  · exact parallel_pure (onwards_distinct tracks behind _ _)

end References

section Step

variable {pairing pairingToo : Pairing}

theorem parallel_matchTokens {reads readsToo : List (Token × Position)}
    (answers : AnsweredAlike budgets tie referents nested nestedToo)
    (same : destination.Entries entry entryToo)
    (eachFoothold : Forall₂ destination.Footing footholds images)
    (each : Forall₂ (Reads referents source.Tracks) reads readsToo) :
    Parallel budgets tie (Onwards source destination)
      (fun budget => terms.matchTokens (nested budget) entry footholds reads)
      fun budget => (terms.inArena second).matchTokens (nestedToo budget) entryToo images
        readsToo := by
  induction each with
  | nil => exact parallel_pure onwards_nil
  | @cons read readToo _ _ head _ ih =>
    rcases read with ⟨token, next⟩
    rcases readToo with ⟨tokenToo, nextToo⟩
    rcases head with ⟨sameToken, tracks⟩
    simp only at sameToken tracks
    have first : Parallel budgets tie (Onwards source destination)
        (fun budget => terms.matchToken (nested budget) entry footholds next token)
        fun budget => (terms.inArena second).matchToken (nestedToo budget) entryToo images nextToo
        tokenToo := by
      cases sameToken with
      | cell contents =>
        cases contents with
        | init values => exact parallel_ofExcept (parallel_matchBytes same tracks values)
        | uninit => exact parallel_ofExcept (same.matchUninit tracks)
      | reference sameForm sameWidth sameReferent =>
        exact parallel_matchReference answers same tracks
          (.reference sameForm sameWidth sameReferent)
      | marker name => exact parallel_pure (same.matchMarker tracks eachFoothold name)
    simp only [matchTokens]
    refine first.bind fun _ _ sameFirst => ih.bind fun _ _ sameOthers => ?_
    exact parallel_pure (sameFirst.append sameOthers)

theorem parallel_walkStep (answers : AnsweredAlike budgets tie referents nested nestedToo)
    (same : Pairings source destination pairing pairingToo) :
    Parallel budgets tie (Onwards source destination)
      (fun budget => terms.walkStep (nested budget) pairing)
      fun budget => (terms.inArena second).walkStep (nestedToo budget) pairingToo := by
  have ahead := source.ahead same.source
  have entries := entries_enter same.footholds
  have padded :=
    any_eq_any (fun _ _ footing => destination.endsInPadding footing.tracks) entries.footholds
  simp only [walkStep, entries.prospects.isOver, entries.prospects.isOverPlainly, ahead.mayEnd,
    entries.prospects.mayEnd, entries.prospects.offer, padded]
  split
  · exact parallel_pure ⟨rfl, .nil⟩
  · split
    · exact parallel_throw _
    · exact parallel_matchTokens answers entries same.footholds ahead.reads

theorem parallel_runStep? (same : Pairings source destination pairing pairingToo) :
    Option.Rel (Onwards source destination) (terms.runStep? pairing)
      ((terms.inArena second).runStep? pairingToo) := by
  rcases pairing with ⟨position, footholds⟩
  rcases pairingToo with ⟨positionToo, footholdsToo⟩
  have tracks := same.source
  have each := same.footholds
  clear same
  simp only at tracks each
  rcases each with _ | ⟨footing, _ | _⟩
  · exact .none
  · rename_i foothold footholdToo
    have sourceRun := source.run? tracks.positions
    have destinationRun := destination.run? footing.tracks.positions
    simp only [runStep?]
    generalize isRun : position.run? terms.arena = run at sourceRun
    generalize isRunToo : positionToo.run? second = runToo at sourceRun
    generalize isOther : foothold.position.run? terms.arena = other at destinationRun
    generalize isOtherToo : footholdToo.position.run? second = otherToo at destinationRun
    rcases sourceRun with sameRun | _
    · rcases destinationRun with sameOther | _
      · simp only [sameRun.count, sameOther.count, source.size sameRun.body,
          destination.size sameOther.body]
        split
        · exact .none
        · exact .none
        · split
          · rename_i conditions
            have startsToo : Starts second positionToo _ := ⟨isRunToo, by omega⟩
            have starts : Starts terms.arena position _ :=
              ⟨isRun, by rw [sameRun.count]; exact startsToo.goesOn⟩
            have beginsToo : Starts second footholdToo.position _ := ⟨isOtherToo, by omega⟩
            have begins : Starts terms.arena foothold.position _ :=
              ⟨isOther, by rw [sameOther.count]; exact beginsToo.goesOn⟩
            have element : destination.Footing (foothold.moveTo _) (footholdToo.moveTo _) :=
              ⟨destination.tracks_body footing.tracks sameOther begins beginsToo, footing.guarded⟩
            have rest : destination.Footing (foothold.moveTo _) (footholdToo.moveTo _) :=
              ⟨destination.tracks_after footing.tracks sameOther begins beginsToo conditions.2,
                footing.guarded⟩
            refine .some ⟨rfl, .cons ⟨rfl, ?_, .cons element .nil, nodup_singleton _⟩
              (.cons ⟨rfl, ?_, .cons rest .nil, nodup_singleton _⟩ .nil)⟩
            · exact source.tracks_body tracks sameRun starts startsToo
            · exact source.tracks_after tracks sameRun starts startsToo conditions.2
          · exact .none
      · exact .none
    · exact .none
  · exact .none

/-- A pairing demands what corresponds to the demands of the pairing that corresponds to it. -/
theorem parallel_step (answers : AnsweredAlike budgets tie referents nested nestedToo)
    (same : Pairings source destination pairing pairingToo) :
    Parallel budgets tie (Onwards source destination)
      (fun budget => terms.step (nested budget) pairing)
      fun budget => (terms.inArena second).step (nestedToo budget) pairingToo := by
  have runs := parallel_runStep? same
  simp only [step]
  generalize terms.runStep? pairing = onward at runs
  generalize (terms.inArena second).runStep? pairingToo = onwardToo at runs
  cases runs with
  | none => exact parallel_walkStep answers same
  | some sameOnward => exact (parallel_count _).bind fun _ _ _ => parallel_pure sameOnward

end Step

end Terms

end Recast
