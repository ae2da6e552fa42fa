import Recast.Proofs.Inclusion.Survey

/-!
# Inquiries within each other

An inquiry is decided already, or under way, or it is surveyed with further inquiries inside. If an
account holds through each of these ways (`Account.Lawful`), all inquiries about layouts of an arena
are answered as it has it (`Terms.answers_includesBy`): those under way differ from each other, so
there are only so many.
-/

namespace Recast

open List Budget

variable {terms : Terms} {progress : Progress} {outcome : Outcome} {depth : Nat}
  {underWay : List Inquiry}

namespace Terms

variable {budget : Budget} {nested : Nested}

theorem matchClasses_budget (entry : Entry) (source : Position) (parts : List ByteClass) :
    { terms with budget }.matchClasses entry source parts =
      terms.matchClasses entry source parts := by
  induction parts with
  | nil => rfl
  | cons _ _ ih => rw [matchClasses, matchClasses, ih]; rfl

theorem tryReferences_budget (source : Reference) (reads : List (Token × Foothold)) :
    { terms with budget }.tryReferences nested source reads =
      terms.tryReferences nested source reads := by
  induction reads with
  | nil => rfl
  | cons read _ ih =>
    rcases read with ⟨token, _⟩
    cases token with
    | reference => rw [tryReferences, tryReferences, ih]; rfl
    | cell | marker => exact ih

theorem matchToken_budget (entry : Entry) (footholds : List Foothold) (source : Position)
    (token : Token) :
    { terms with budget }.matchToken nested entry footholds source token =
      terms.matchToken nested entry footholds source token := by
  cases token with
  | cell contents =>
    cases contents with
    | init => simp only [matchToken, matchBytes, matchClasses_budget]
    | uninit => rfl
  | reference => simp only [matchToken, matchReference, tryReferences_budget]
  | marker => rfl

theorem matchTokens_budget (entry : Entry) (footholds : List Foothold)
    (reads : List (Token × Position)) :
    { terms with budget }.matchTokens nested entry footholds reads =
      terms.matchTokens nested entry footholds reads := by
  induction reads with
  | nil => rfl
  | cons _ _ ih => rw [matchTokens, matchTokens, matchToken_budget, ih]

theorem walkStep_budget : { terms with budget }.walkStep = terms.walkStep := by
  funext nested pairing
  simp only [walkStep, matchTokens_budget]
  rfl

theorem step_budget : { terms with budget }.step = terms.step := by
  funext nested pairing
  simp only [step, walkStep_budget]
  rfl

end Terms

namespace Progress

variable {after : Progress} {inquiry : Inquiry}

theorem depth_eq_none : progress.depth? inquiry = none ↔ inquiry ∉ progress.underWay := by
  simp [depth?]

theorem later_relyOn (progress : Progress) (depth : Nat) :
    progress.Later (progress.relyOn depth) := by
  refine ⟨rfl, ?_⟩
  rintro inquiry ⟨place, outermost, isPlace, isOutermost, inside⟩
  refine ⟨place, min outermost depth, isPlace, ?_, by omega⟩
  simp [relyOn, isOutermost]

theorem relied_relyOn (isDepth : progress.depth? inquiry = some depth) :
    (progress.relyOn depth).Relied inquiry := by
  rcases isReliance : progress.reliance with _ | other
  · exact ⟨depth, depth, isDepth, by simp [relyOn, isReliance], le_rfl⟩
  · exact ⟨depth, min other depth, isDepth, by simp [relyOn, isReliance], by omega⟩

theorem later_finish : progress.Later (progress.finish after inquiry outcome) := by
  let outer := { after with underWay := progress.underWay, reliance := progress.reliance }
  have isOuter : progress.Later outer := ⟨rfl, fun _ => id⟩
  have isClosed : progress.Later { outer with decided := (inquiry, outcome) :: outer.decided } :=
    ⟨rfl, fun _ => id⟩
  simp only [finish]
  split
  · split
    · exact isOuter.trans (later_relyOn outer _)
    · exact isClosed
  · exact isClosed

end Progress

def Account.amid (account : Account) (underWay : List Inquiry) : Account where
  Sound progress := progress.underWay = underWay ∧ account.Sound progress
  Yes := account.Yes
  No := account.No
  sound_tally progress tally sound := ⟨sound.1, account.sound_tally progress tally sound.2⟩
  yes_later := account.yes_later
  no_later := account.no_later

/-- The account holds through all the ways in which inquiries are answered. -/
structure Account.Lawful (account : Account) (terms : Terms) (plot : Plot)
    (budgets : Filter Budget) (leaping : Prop) : Prop where
  short : ¬ Grows budgets → ∀ inquiry progress, account.No inquiry progress
  decidedYes : ∀ progress inquiry exercised, account.Sound progress →
    progress.decided.lookup inquiry = some (.ok exercised) → account.Yes inquiry exercised progress
  decidedNo : ∀ progress inquiry diagnostic, account.Sound progress →
    progress.decided.lookup inquiry = some (.error diagnostic) → account.No inquiry progress
  relied : ∀ progress inquiry depth, account.Sound progress → progress.depth? inquiry = some depth →
    account.Sound (progress.relyOn depth) ∧ account.Yes inquiry ∅ (progress.relyOn depth)
  begun : ∀ progress inquiry, account.Sound progress → account.Sound (progress.begin inquiry)
  accepted : ∀ progress after inquiry exercised, account.Sound progress → account.Sound after →
    after.underWay = inquiry :: progress.underWay → inquiry ∉ progress.underWay →
    terms.Accepted account plot leaping (terms.roots inquiry) exercised after →
    account.Sound (progress.finish after inquiry (.ok exercised)) ∧
      account.Yes inquiry exercised (progress.finish after inquiry (.ok exercised))
  refused : ∀ progress after inquiry diagnostic, account.Sound progress → account.Sound after →
    ¬ Grows budgets ∨ terms.Refused account leaping (terms.roots inquiry) after →
    account.Sound (progress.finish after inquiry (.error diagnostic)) ∧
      account.No inquiry (progress.finish after inquiry (.error diagnostic))

theorem Inquiry.begins {inquiry : Inquiry} {inside : Inquiry → Prop} (distinct : underWay.Nodup)
    (each : ∀ other ∈ underWay, inside other) (mayBegin : inside inquiry)
    (isUnderWay : progress.underWay = underWay) (isNew : progress.depth? inquiry = none) :
    (inquiry :: underWay).Nodup ∧ ∀ other ∈ inquiry :: underWay, inside other :=
  ⟨nodup_cons.mpr ⟨isUnderWay ▸ Progress.depth_eq_none.mp isNew, distinct⟩,
    forall_mem_cons.mpr ⟨mayBegin, each⟩⟩

theorem Inquiry.length_le {layouts : Nat} (distinct : underWay.Nodup)
    (inside : ∀ inquiry ∈ underWay, inquiry.1.index < layouts ∧ inquiry.2.index < layouts) :
    underWay.length ≤ layouts * layouts := by
  let indices (inquiry : Inquiry) : Nat × Nat := (inquiry.1.index, inquiry.2.index)
  have injective : Function.Injective indices := by
    rintro ⟨⟨source⟩, ⟨destination⟩⟩ ⟨⟨otherSource⟩, ⟨otherDestination⟩⟩ same
    simp_all [indices]
  have covered : (underWay.map indices).toFinset ⊆ Finset.range layouts ×ˢ Finset.range
      layouts := by
    intro _ member
    simp only [mem_toFinset, mem_map] at member
    rcases member with ⟨inquiry, isInquiry, rfl⟩
    simpa [indices] using inside inquiry isInquiry
  calc
    underWay.length = (underWay.map indices).toFinset.card := by
      rw [toFinset_card_of_nodup (distinct.map injective), length_map]
    _ ≤ (Finset.range layouts ×ˢ Finset.range layouts).card := Finset.card_le_card covered
    _ = layouts * layouts := by simp

namespace Terms

variable {account : Account} {budgets : Filter Budget} {plot : Plot} {proper : Token → Prop}
  {leaping : Prop} {step : Nested → Pairing → Check Onward} {levels : Budget → Nat}

/-- However the inquiries within are answered, the steps are evaluated as the account of it has it.
-/
def Steps (terms : Terms) (budgets : Filter Budget) (plot : Plot) (leaping : Prop)
    (step : Nested → Pairing → Check Onward) : Prop :=
  ∀ (account : Account) (nested : Budget → Nested),
    Answers account budgets terms.arena.layouts.size nested →
      terms.Evaluates account budgets plot leaping fun budget => step (nested budget)

theorem steps_step (budgets : Filter Budget) (charts : terms.arena.Plotted plot) :
    terms.Steps budgets plot True terms.step :=
  fun _ _ answers _ _ valid sound => ensures_step charts answers valid sound

theorem steps_walkStep (budgets : Filter Budget) (charts : terms.arena.Plotted plot) :
    terms.Steps budgets plot False terms.walkStep :=
  fun _ _ answers _ _ valid sound => ensures_walkStep_demanded charts answers valid sound

theorem levels_or_none (settled : Settled budgets)
    (enough : Grows budgets → ∀ least, ∀ᶠ budget in budgets, least ≤ levels budget) :
    (∀ᶠ budget in budgets, levels budget ≠ 0) ∨ ∃ budget, budgets = pure budget ∧
    levels budget = 0 := by
  rcases settled with ⟨budget, rfl⟩ | grows
  · by_cases none : levels budget = 0
    · exact .inr ⟨budget, rfl, none⟩
    · left
      rw [Filter.eventually_pure]
      exact none
  · left
    filter_upwards [enough grows 1] with budget large
    omega

theorem Accepted.of_amid {start : Pairing} {exercised : Assumptions}
    (accepted : terms.Accepted (account.amid underWay) plot leaping start exercised progress) :
    terms.Accepted account plot leaping start exercised progress :=
  fun upper isUpper => accepted upper ⟨isUpper.assumed, isUpper.safe, isUpper.outlives,
    isUpper.related⟩

theorem Refused.of_amid {start : Pairing}
    (refused : terms.Refused (account.amid underWay) leaping start progress) :
    terms.Refused account leaping start progress :=
  fun lower goal isLower => refused lower goal
    ⟨isLower.assumed, isLower.strict, isLower.outlives, isLower.related⟩

section Ways

variable {levels : Nat} {source destination : LayoutId}

theorem includesBy_of_decided
    (decided : progress.decided.lookup (source, destination) = some outcome) :
    terms.includesBy step levels source destination progress =
      Check.ofExcept outcome progress.countRepeat := by
  rw [includesBy.eq_def]
  simp only [decided]

theorem includesBy_of_underWay (undecided : progress.decided.lookup (source, destination) = none)
    (isDepth : progress.depth? (source, destination) = some depth) :
    terms.includesBy step levels source destination progress =
      .ok ∅ (progress.countCycle.relyOn depth) := by
  rw [includesBy.eq_def]
  simp only [undecided, isDepth]

theorem includesBy_stops (undecided : progress.decided.lookup (source, destination) = none)
    (isNew : progress.depth? (source, destination) = none) (none : levels = 0) :
    terms.includesBy step levels source destination progress =
      .error ⟨0, .budget terms.budget.maxDepth⟩ progress := by
  subst none
  rw [includesBy.eq_def]
  simp only [undecided, isNew]

def putDown (progress : Progress) (inquiry : Inquiry) :
    EStateM.Result Diagnostic Progress Assumptions → EStateM.Result Diagnostic Progress Assumptions
  | .ok exercised after => .ok exercised (progress.finish after inquiry (.ok exercised))
  | .error diagnostic after =>
    .error diagnostic (progress.finish after inquiry (.error diagnostic))

theorem includesBy_of_new (undecided : progress.decided.lookup (source, destination) = none)
    (isNew : progress.depth? (source, destination) = none) (some : levels ≠ 0) :
    terms.includesBy step levels source destination progress =
      putDown progress (source, destination)
        (terms.survey (step (terms.includesBy step (levels - 1))) source destination
          (progress.begin (source, destination))) := by
  rcases Nat.exists_eq_succ_of_ne_zero some with ⟨left, rfl⟩
  rw [includesBy.eq_def]
  simp only [undecided, isNew, Nat.succ_eq_add_one, Nat.add_sub_cancel]
  cases terms.survey (step (terms.includesBy step left)) source destination
    (progress.begin (source, destination)) <;> rfl

end Ways

section

variable (lawful : account.Lawful terms plot budgets leaping)
  (steps : terms.Steps budgets plot leaping step) (charts : terms.arena.Charts plot proper)
  (settled : Settled budgets)
include lawful steps charts settled

theorem ensures_new (inquiry : Inquiry) (inside : terms.Inside inquiry)
    (answers : Answers (account.amid (inquiry :: underWay)) budgets terms.arena.layouts.size
      fun budget => { terms with budget }.includesBy step (levels budget - 1))
    (sound : (account.amid underWay).Sound progress)
    (undecided : progress.decided.lookup inquiry = none) (isNew : progress.depth? inquiry = none)
    (some : ∀ᶠ budget in budgets, levels budget ≠ 0) :
    Check.Ensures (account.amid underWay) budgets
      (fun budget => { terms with budget }.includesBy step (levels budget) inquiry.1 inquiry.2)
      progress (account.Yes inquiry) (account.No inquiry) := by
  have evaluates := steps (account.amid (inquiry :: underWay)) _ answers
  have begun : (account.amid (inquiry :: underWay)).Sound (progress.begin inquiry) :=
    ⟨congrArg (inquiry :: ·) sound.1, lawful.begun progress inquiry sound.2⟩
  have fresh := Progress.depth_eq_none.mp isNew
  have goesFurther {after : Progress} {outcome : Outcome} : progress.Later
      (progress.finish after inquiry outcome) :=
    Progress.later_finish
  have unfolded (result : EStateM.Result Diagnostic Progress Assumptions)
      (surveyed : ∀ᶠ budget in budgets, { terms with budget }.survey
        (step ({ terms with budget }.includesBy step (levels budget - 1))) inquiry.1 inquiry.2
        (progress.begin inquiry) = result) :
      ∀ᶠ budget in budgets, { terms with budget }.includesBy step
        (levels budget) inquiry.1 inquiry.2 progress = putDown progress inquiry result := by
    filter_upwards [surveyed, some] with budget isResult positive
    rw [includesBy_of_new undecided isNew positive]
    exact congrArg (putDown progress inquiry) isResult
  rcases ensures_survey charts inside settled evaluates begun with
    ⟨⟨exercised, after⟩ | ⟨diagnostic, after⟩, eventually, goesOn, afterSound, outcome⟩
  · have finished := lawful.accepted progress after inquiry exercised sound.2 afterSound.2
      (afterSound.1.trans (congrArg (inquiry :: ·) sound.1.symm)) fresh (Accepted.of_amid outcome)
    exact ⟨_, unfolded _ eventually, goesFurther, ⟨goesFurther.underWay.trans sound.1, finished.1⟩,
      finished.2⟩
  · have finished := lawful.refused progress after inquiry diagnostic sound.2 afterSound.2
      (outcome.imp_right Refused.of_amid)
    exact ⟨_, unfolded _ eventually, goesFurther, ⟨goesFurther.underWay.trans sound.1, finished.1⟩,
      finished.2⟩

/-- All inquiries are answered as a lawful account has it. -/
theorem answers_includesBy {rounds : Nat}
    (enough : Grows budgets → ∀ least, ∀ᶠ budget in budgets, least ≤ levels budget)
    (distinct : underWay.Nodup) (inside : ∀ inquiry ∈ underWay, terms.Inside inquiry)
    (measure : terms.arena.layouts.size * terms.arena.layouts.size - underWay.length < rounds) :
    Answers (account.amid underWay) budgets terms.arena.layouts.size fun budget =>
      { terms with budget }.includesBy step (levels budget) := by
  induction rounds generalizing underWay levels with
  | zero => omega
  | succ rounds ih =>
    intro source destination progress sourceInside destinationInside sound
    rcases decided : progress.decided.lookup (source, destination) with _ | outcome
    · rcases isDepth : progress.depth? (source, destination) with _ | depth
      · rcases levels_or_none settled enough with some | ⟨budget, rfl, none⟩
        · rcases Inquiry.begins distinct inside ⟨sourceInside, destinationInside⟩ sound.1
            isDepth with
            ⟨distinctNext, insideNext⟩
          have few := Inquiry.length_le distinctNext insideNext
          refine ensures_new lawful steps charts settled (source, destination)
            ⟨sourceInside, destinationInside⟩ (ih ?_ distinctNext insideNext ?_) sound decided
            isDepth some
          · intro grows least
            filter_upwards [enough grows (least + 1)] with budget large
            omega
          · rw [length_cons] at few ⊢
            omega
        · refine ⟨.error ⟨0, .budget budget.maxDepth⟩ progress, ?_, .refl progress, sound, ?_⟩
          · rw [Filter.eventually_pure]
            exact includesBy_stops decided isDepth none
          · refine lawful.short (fun grows => ?_) _ _
            have large := enough grows 1
            rw [Filter.eventually_pure] at large
            omega
      · refine ⟨.ok ∅ (progress.countCycle.relyOn depth),
          .of_forall fun _ => includesBy_of_underWay decided isDepth, ?_⟩
        have counted : progress.Later progress.countCycle := .of_tally progress _
        have countedSound := account.sound_tally progress progress.countCycle.tally sound.2
        rcases lawful.relied progress.countCycle _ depth countedSound isDepth with ⟨relied, yes⟩
        exact ⟨counted.trans (Progress.later_relyOn _ depth), ⟨sound.1, relied⟩, yes⟩
    · have counted : progress.Later progress.countRepeat := .of_tally progress _
      have countedSound : (account.amid underWay).Sound progress.countRepeat :=
        (account.amid underWay).sound_tally progress progress.countRepeat.tally sound
      refine ⟨Check.ofExcept outcome progress.countRepeat,
        .of_forall fun _ => includesBy_of_decided decided, ?_⟩
      cases outcome with
      | ok exercised =>
        have yes := lawful.decidedYes progress _ exercised sound.2 decided
        exact ⟨counted, countedSound, account.yes_later _ _ _ _ counted yes⟩
      | error diagnostic =>
        have no := lawful.decidedNo progress _ diagnostic sound.2 decided
        exact ⟨counted, countedSound, account.no_later _ _ _ counted no⟩

end

end Terms

end Recast
