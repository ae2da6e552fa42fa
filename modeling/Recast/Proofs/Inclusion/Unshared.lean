import Recast.Proofs.Inclusion.Alongside
import Recast.Proofs.Inclusion.Twins
import Recast.Proofs.Inclusion.Verdict

/-!
# Checks between twins

A layout that has a twin refers to layouts that were defined earlier. So an inquiry about two such
layouts is never under way when it is made again within itself, and its outcome is the one that it
would have from the start (`Terms.Decides`). So inquiries about twins have the same outcome
(`Terms.exists_outcome`).
-/

namespace Recast

open Position Check Budget

variable {levels levelsToo : Budget → Nat}

def Budget.Deepens (levels : Budget → Nat) : Prop :=
  ∀ least, ∀ᶠ budget in growing, least ≤ levels budget

theorem Budget.deepens_maxDepth : Deepens maxDepth :=
  fun least => (grows_growing least).mono fun _ => And.right

namespace Terms

variable {terms : Terms} {second : Arena} {hidden hiddenToo : LayoutId → Prop} {inquiry : Inquiry}
  {outcome other : Outcome} {progress : Progress} {bound : Nat}

/-- The place of the later one of two layouts, in the order of definition. -/
def rank (terms : Terms) (inquiry : Inquiry) : Nat :=
  max (terms.arena.start inquiry.1).index (terms.arena.start inquiry.2).index

/-- With ever larger budgets, the inquiry has the outcome from the start. -/
def Decides (terms : Terms) (inquiry : Inquiry) (outcome : Outcome) : Prop :=
  ∀ levels, Deepens levels → ∃ later, ∀ᶠ budget in growing,
    { terms with budget }.includesBy terms.step (levels budget) inquiry.1 inquiry.2 {} =
      ofExcept outcome later

/-- What is decided would be so from the start, and what is under way is of a given rank at least.
-/
structure Ready (terms : Terms) (bound : Nat) (progress : Progress) : Prop where
  decided : ∀ inquiry outcome, progress.decided.lookup inquiry = some outcome →
    terms.Decides inquiry outcome
  underWay : ∀ inquiry ∈ progress.underWay, bound ≤ terms.rank inquiry

/-- With ever larger budgets, the inquiry has the outcome, whatever progress was made before. -/
def Concludes (terms : Terms) (inquiry : Inquiry) (outcome : Outcome) : Prop :=
  ∀ bound, terms.rank inquiry < bound → ∀ progress, terms.Ready bound progress →
    ∀ levels, Deepens levels → ∃ later, terms.Ready bound later ∧ ∀ᶠ budget in growing,
      { terms with budget }.includesBy terms.step (levels budget) inquiry.1 inquiry.2 progress =
        ofExcept outcome later

/-- With ever larger budgets, the survey has the outcome, whatever progress was made before. -/
def Surveys (terms : Terms) (inquiry : Inquiry) (outcome : Outcome) : Prop :=
  ∀ progress, terms.Ready (terms.rank inquiry) progress → ∀ levels, Deepens levels →
    ∃ later, terms.Ready (terms.rank inquiry) later ∧ ∀ᶠ budget in growing,
      { terms with budget }.survey
        (terms.step ({ terms with budget }.includesBy terms.step (levels budget))) inquiry.1
        inquiry.2 progress = ofExcept outcome later

def readiness (terms : Terms) (second : Arena) (bound boundToo : Nat) : Tie where
  tied progress other := terms.Ready bound progress ∧ (terms.inArena second).Ready boundToo other
  count _ ready := ⟨⟨ready.1.decided, ready.1.underWay⟩, ready.2.decided, ready.2.underWay⟩

theorem ready_start (terms : Terms) (bound : Nat) : terms.Ready bound {} :=
  ⟨fun _ _ found => by simp at found, fun _ member => by simp at member⟩

theorem outcome_unique {result : Budget → EStateM.Result Diagnostic Progress Assumptions}
    {later laterToo : Progress}
    (eventually : ∀ᶠ budget in growing, result budget = ofExcept outcome later)
    (eventuallyToo : ∀ᶠ budget in growing, result budget = ofExcept other laterToo) :
    outcome = other := by
  have same : ∀ᶠ budget in growing, outcome = other := by
    filter_upwards [eventually, eventuallyToo] with budget isOutcome isOther
    rw [isOutcome] at isOther
    cases outcome <;> cases other <;> cases isOther <;> rfl
  rwa [← forLarge_iff, forLarge_const] at same

theorem Decides.unique (decides : terms.Decides inquiry outcome)
    (decidesToo : terms.Decides inquiry other) :
    outcome = other := by
  rcases decides _ deepens_maxDepth with ⟨_, eventually⟩
  rcases decidesToo _ deepens_maxDepth with ⟨_, eventuallyToo⟩
  exact outcome_unique eventually eventuallyToo

theorem Ready.begin (ready : terms.Ready bound progress) (below : terms.rank inquiry < bound) :
    terms.Ready (terms.rank inquiry) (progress.begin inquiry) := by
  refine ⟨ready.decided, fun other member => ?_⟩
  rcases List.mem_cons.mp member with rfl | before
  · exact le_rfl
  · exact le_of_lt (lt_of_lt_of_le below (ready.underWay other before))

theorem Ready.finish {after : Progress} (ready : terms.Ready bound progress) {low : Nat}
    (readyAfter : terms.Ready low after) (decides : terms.Decides inquiry outcome) :
    terms.Ready bound (progress.finish after inquiry outcome) := by
  have closed : terms.Ready bound { after with
      underWay := progress.underWay, reliance := progress.reliance
      decided := (inquiry, outcome) :: after.decided } := by
    refine ⟨fun other found isFound => ?_, ready.underWay⟩
    rcases lookup_cons_eq_some isFound with ⟨rfl, rfl⟩ | before
    · exact decides
    · exact readyAfter.decided other found before
  cases outcome with
  | error => exact closed
  | ok =>
    rcases isReliance : after.reliance with _ | _ <;> simp only [Progress.finish, isReliance]
    · exact closed
    · split
      · exact ⟨readyAfter.decided, ready.underWay⟩
      · exact closed

section

variable (surveys : terms.Surveys inquiry outcome)
include surveys

theorem Surveys.concludes_new (below : terms.rank inquiry < bound)
    (ready : terms.Ready bound progress) (undecided : progress.decided.lookup inquiry = none)
    (deepens : Deepens levels) :
    ∃ after, terms.Ready (terms.rank inquiry) after ∧ ∀ᶠ budget in growing,
      { terms with budget }.includesBy terms.step (levels budget) inquiry.1 inquiry.2 progress =
        ofExcept outcome (progress.finish after inquiry outcome) := by
  have isNew : progress.depth? inquiry = none := by
    rw [Progress.depth_eq_none]
    exact fun member => absurd (ready.underWay inquiry member) (Nat.not_le.mpr below)
  have deeper (least : Nat) : ∀ᶠ budget in growing, least ≤ levels budget - 1 :=
    (deepens (least + 1)).mono fun _ => Nat.le_sub_one_of_lt
  rcases surveys (progress.begin inquiry) (ready.begin below) _ deeper with
    ⟨after, readyAfter, eventually⟩
  refine ⟨after, readyAfter, ?_⟩
  filter_upwards [eventually, deepens 1] with budget isOutcome some
  rw [includesBy_of_new undecided isNew (Nat.ne_of_gt some), isOutcome]
  cases outcome <;> rfl

theorem Surveys.decides : terms.Decides inquiry outcome := by
  intro _ deepens
  rcases surveys.concludes_new (Nat.lt_succ_self _) (terms.ready_start _) rfl deepens with
    ⟨_, _, eventually⟩
  exact ⟨_, eventually⟩

theorem Surveys.concludes : terms.Concludes inquiry outcome := by
  intro _ below progress ready _ deepens
  rcases undecided : progress.decided.lookup inquiry with _ | found
  · rcases surveys.concludes_new below ready undecided deepens with ⟨_, readyAfter, eventually⟩
    exact ⟨_, ready.finish readyAfter surveys.decides, eventually⟩
  · have same := (ready.decided inquiry found undecided).unique surveys.decides
    refine ⟨progress.countRepeat, ⟨ready.decided, ready.underWay⟩, .of_forall fun _ => ?_⟩
    rw [includesBy_of_decided undecided, same]

end

section Twins

variable {image : Inquiry} {boundToo : Nat} {plot plotToo : Plot}

def TwinInquiries (terms : Terms) (second : Arena) (hidden hiddenToo : LayoutId → Prop)
    (inquiry image : Inquiry) : Prop :=
  terms.arena.Twins second hidden hiddenToo inquiry.1 image.1 ∧
    terms.arena.Twins second hidden hiddenToo inquiry.2 image.2

theorem parallel_of_concludes (concludes : terms.Concludes inquiry outcome)
    (concludesToo : (terms.inArena second).Concludes image outcome)
    (below : terms.rank inquiry < bound) (belowToo : (terms.inArena second).rank image < boundToo)
    (deepens : Deepens levels) (deepensToo : Deepens levelsToo) :
    Parallel growing (terms.readiness second bound boundToo) Eq
      (fun budget => { terms with budget }.includesBy terms.step (levels budget) inquiry.1
        inquiry.2)
      fun budget => ({ terms with budget }.inArena second).includesBy (terms.inArena second).step
        (levelsToo budget) image.1 image.2 := by
  rintro progress progressToo ⟨ready, readyToo⟩
  rcases concludes bound below progress ready levels deepens with ⟨_, readyLater, eventually⟩
  rcases concludesToo boundToo belowToo progressToo readyToo levelsToo deepensToo with
    ⟨laterToo, readyLaterToo, eventuallyToo⟩
  refine ⟨_, _, eventually, eventuallyToo, ?_⟩
  cases outcome with
  | ok => exact .ok rfl ⟨readyLater, readyLaterToo⟩
  | error diagnostic => exact .error diagnostic ⟨readyLater, readyLaterToo⟩

def AlikeBelow (terms : Terms) (second : Arena) (hidden hiddenToo : LayoutId → Prop)
    (bound boundToo : Nat) : Prop :=
  ∀ inquiry image, terms.TwinInquiries second hidden hiddenToo inquiry image →
    terms.rank inquiry < bound → (terms.inArena second).rank image < boundToo →
    ∃ outcome, terms.Concludes inquiry outcome ∧ (terms.inArena second).Concludes image outcome

theorem parallel_survey_of_twins (charts : terms.arena.Charts plot fun _ => True)
    (chartsToo : second.Charts plotToo fun _ => True)
    (twins : terms.TwinInquiries second hidden hiddenToo inquiry image)
    (alike : terms.AlikeBelow second hidden hiddenToo (terms.rank inquiry)
      ((terms.inArena second).rank image))
    (deepens : Deepens levels) (deepensToo : Deepens levelsToo) :
    Parallel growing
      (terms.readiness second (terms.rank inquiry) ((terms.inArena second).rank image)) Eq
      (fun budget => { terms with budget }.survey
        (terms.step ({ terms with budget }.includesBy terms.step (levels budget))) inquiry.1
          inquiry.2)
      fun budget => ({ terms with budget }.inArena second).survey
        ((terms.inArena second).step (({ terms with budget }.inArena second).includesBy
          (terms.inArena second).step (levelsToo budget))) image.1 image.2 := by
  rcases twins.1.exists_correspondence charts chartsToo
    (Nat.le_max_left _ (terms.arena.start inquiry.2).index)
    (Nat.le_max_left _ (second.start image.2).index) with ⟨_, isSource⟩
  rcases twins.2.exists_correspondence charts chartsToo
    (Nat.le_max_right (terms.arena.start inquiry.1).index _)
    (Nat.le_max_right (second.start image.1).index _) with ⟨_, isDestination⟩
  refine parallel_survey grows_growing ?_ isSource isDestination
  rintro left right leftToo rightToo ⟨twinsLeft, below, belowToo⟩
    ⟨twinsRight, belowRight, belowRightToo⟩
  have low := Nat.max_lt.mpr ⟨below, belowRight⟩
  have lowToo := Nat.max_lt.mpr ⟨belowToo, belowRightToo⟩
  rcases alike (left, right) (leftToo, rightToo) ⟨twinsLeft, twinsRight⟩ low lowToo with
    ⟨outcome, concludes, concludesToo⟩
  exact parallel_of_concludes concludes concludesToo low lowToo deepens deepensToo

theorem exists_outcome_of_results {tie : Tie}
    {result resultToo : EStateM.Result Diagnostic Progress Assumptions}
    (results : Results tie Eq result resultToo) :
    ∃ outcome later laterToo, result = ofExcept outcome later ∧
      resultToo = ofExcept outcome laterToo ∧ tie.tied later laterToo := by
  cases results with
  | @ok exercised _ later laterToo same tied =>
    exact ⟨.ok exercised, later, laterToo, rfl, same ▸ rfl, tied⟩
  | @error diagnostic later laterToo tied =>
    exact ⟨.error diagnostic, later, laterToo, rfl, rfl, tied⟩

theorem surveys_of_start {later : Progress} (charts : terms.arena.Charts plot fun _ => True)
    (twins : terms.TwinInquiries terms.arena hidden hidden inquiry inquiry)
    (alike : terms.AlikeBelow terms.arena hidden hidden (terms.rank inquiry) (terms.rank inquiry))
    (start : ∀ᶠ budget in growing, { terms with budget }.survey
      (terms.step ({ terms with budget }.includesBy terms.step budget.maxDepth)) inquiry.1 inquiry.2
        {} =
        ofExcept outcome later) : terms.Surveys inquiry outcome := by
  intro progress ready _ deepens
  rcases parallel_survey_of_twins charts charts twins alike deepens deepens_maxDepth progress {}
    ⟨ready, terms.ready_start _⟩ with ⟨_, _, isResult, isResultToo, results⟩
  rcases exists_outcome_of_results results with ⟨_, after, _, rfl, rfl, tied⟩
  rw [outcome_unique start isResultToo]
  exact ⟨after, tied.1, isResult⟩

theorem AlikeBelow.mono {low lowToo : Nat} (below : low ≤ bound) (belowToo : lowToo ≤ boundToo)
    (alike : terms.AlikeBelow second hidden hiddenToo bound boundToo) :
    terms.AlikeBelow second hidden hiddenToo low lowToo :=
  fun inquiry image twins isLow isLowToo =>
    alike inquiry image twins (lt_of_lt_of_le isLow below) (lt_of_lt_of_le isLowToo belowToo)

theorem alikeBelow (bound : Nat) (charts : terms.arena.Charts plot fun _ => True)
    (chartsToo : second.Charts plotToo fun _ => True) :
    terms.AlikeBelow second hidden hiddenToo bound bound := by
  -- The outcome of an inquiry is fixed by comparing the check with itself, from the start and from
  -- later on.
  induction bound generalizing terms second hidden hiddenToo plot plotToo with
  | zero => exact fun _ _ _ low => absurd low (Nat.not_lt_zero _)
  | succ _ ih =>
    intro inquiry image twins low lowToo
    have below := Nat.le_of_lt_succ low
    have belowToo := Nat.le_of_lt_succ lowToo
    have depth := deepens_maxDepth
    have ready := terms.ready_start (terms.rank inquiry)
    have readyToo := (terms.inArena second).ready_start ((terms.inArena second).rank image)
    rcases parallel_survey_of_twins charts chartsToo twins
      ((ih charts chartsToo).mono below belowToo) depth depth {} {} ⟨ready, readyToo⟩ with
      ⟨_, _, isResult, isResultToo, results⟩
    rcases exists_outcome_of_results results with ⟨outcome, _, _, rfl, rfl, _⟩
    have surveys := surveys_of_start charts ⟨twins.1.self, twins.2.self⟩
      ((ih charts charts).mono below below) isResult
    have surveysToo := surveys_of_start chartsToo
      ⟨twins.1.symm.self, twins.2.symm.self⟩ ((ih chartsToo chartsToo).mono belowToo belowToo)
      isResultToo
    exact ⟨outcome, surveys.concludes, surveysToo.concludes⟩

theorem check_of_twins (charts : terms.arena.Charts plot fun _ => True)
    (chartsToo : second.Charts plotToo fun _ => True)
    (twins : terms.TwinInquiries second hidden hiddenToo inquiry image) :
    ForLarge fun budget => ({ terms with budget }.check inquiry.1 inquiry.2 {}).1 =
      (({ terms with budget }.inArena second).check image.1 image.2 {}).1 := by
  let bound := max (terms.rank inquiry) ((terms.inArena second).rank image) + 1
  have low : terms.rank inquiry < bound := Nat.lt_succ_of_le (Nat.le_max_left _ _)
  have lowToo : (terms.inArena second).rank image < bound :=
    Nat.lt_succ_of_le (Nat.le_max_right _ _)
  rcases alikeBelow bound charts chartsToo inquiry image twins low lowToo with
    ⟨outcome, concludes, concludesToo⟩
  rcases concludes bound low {} (ready_start _ _) _ deepens_maxDepth with ⟨later, _, eventually⟩
  rcases concludesToo bound lowToo {} (ready_start _ _) _ deepens_maxDepth with
    ⟨_, _, eventuallyToo⟩
  have first (terms : Terms) {inquiry : Inquiry} {later : Progress} {budget : Budget}
      (result : { terms with budget }.includesBy terms.step budget.maxDepth inquiry.1 inquiry.2 {} =
        ofExcept outcome later) : ({ terms with budget }.check inquiry.1 inquiry.2 {}).1 =
          outcome := by
    rw [check_eq_checkBy, checkBy, result]
    cases outcome <;> rfl
  rw [forLarge_iff]
  filter_upwards [eventually, eventuallyToo] with budget result resultToo
  rw [first terms result]
  exact (first (terms.inArena second) resultToo).symm

end Twins

end Terms

end Recast
