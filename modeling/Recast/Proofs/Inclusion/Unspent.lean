import Recast.Proofs.Inclusion.Acceptance

/-!
# Budgets that are not used up

A budget stops a check when too many pairings were evaluated, or when too many inquiries lie within
each other. The mismatch that is reported then may be another one, so the report does not tell
whether the budget was used up; the tally does. If a check has counted fewer pairings than it may,
and may go as deep as there are pairs of layouts, then it goes the same way with every larger budget
(`Terms.check_conclusive`). One step lemma compares the two checks at each place where they go on
(`Check.Alike`).
-/

namespace Recast

open Position List
open Foothold (positions)

variable {underWay : List Inquiry} {most limit more : Nat} {progress after : Progress}
  {terms : Terms} {plot : Plot} {budget : Budget} {leaping : Prop} {inquiry : Inquiry}

/-- These inquiries are under way, and no more pairings than so many have been counted. -/
structure Progress.Stands (underWay : List Inquiry) (most : Nat) (progress : Progress) : Prop where
  underWay : progress.underWay = underWay
  pairs : progress.tally.pairs ≤ most

namespace Check

variable {α β : Type} {step other : Check α}

def final : EStateM.Result Diagnostic Progress α → Progress
  | .ok _ later => later
  | .error _ later => later

/-- A result leaves the inquiries under way, and another result is the same, unless pairings have
been counted up to a limit by then. -/
structure Agrees (underWay : List Inquiry) (most limit : Nat) (progress : Progress)
    (result other : EStateM.Result Diagnostic Progress α) : Prop where
  stands : (final result).Stands underWay most
  counted : progress.tally.pairs ≤ (final result).tally.pairs
  same : (final result).tally.pairs < limit → other = result

def Alike (underWay : List Inquiry) (most limit : Nat) (step other : Check α) : Prop :=
  ∀ progress, progress.Stands underWay most →
    Agrees underWay most limit progress (step progress) (other progress)

theorem agrees_self {result : EStateM.Result Diagnostic Progress α}
    (stands : progress.Stands underWay most) (same : (final result).underWay = progress.underWay)
    (samePairs : (final result).tally.pairs = progress.tally.pairs) :
    Agrees underWay most limit progress result result :=
  ⟨⟨same.trans stands.underWay, samePairs.trans_le stands.pairs⟩, samePairs.ge, fun _ => rfl⟩

theorem alike_pure (value : α) : Alike underWay most limit (pure value) (pure value) :=
  fun _ stands => agrees_self stands rfl rfl

theorem alike_throw (diagnostic : Diagnostic) :
    Alike underWay most limit (throw diagnostic : Check α) (throw diagnostic) :=
  fun _ stands => agrees_self stands rfl rfl

theorem alike_ofExcept (result : Except Diagnostic α) :
    Alike underWay most limit (ofExcept result) (ofExcept result) := by
  cases result with
  | ok value => exact alike_pure value
  | error diagnostic => exact alike_throw diagnostic

theorem Agrees.bind {next onward : α → Check β}
    (first : Agrees underWay most limit progress (step progress) (other progress))
    (second : ∀ value later, step progress = .ok value later → later.Stands underWay most →
      Agrees underWay most limit later (next value later) (onward value later)) :
    Agrees underWay most limit progress ((step >>= next) progress)
      ((other >>= onward) progress) := by
  simp only [Bind.bind, EStateM.bind]
  rcases result : step progress with ⟨value, later⟩ | ⟨_, later⟩ <;> rw [result] at first
  · have isSecond := second value later result first.stands
    refine ⟨isSecond.stands, first.counted.trans isSecond.counted, fun few => ?_⟩
    rw [first.same (isSecond.counted.trans_lt few)]
    exact isSecond.same few
  · refine ⟨first.stands, first.counted, fun few => ?_⟩
    rw [first.same few]

theorem Alike.bind {next onward : α → Check β} (first : Alike underWay most limit step other)
    (second : ∀ value, Alike underWay most limit (next value) (onward value)) :
    Alike underWay most limit (step >>= next) (other >>= onward) :=
  fun progress stands => (first progress stands).bind fun value later _ => second value later

theorem Agrees.attempt
    (agrees : Agrees underWay most limit progress (step progress) (other progress)) :
    Agrees underWay most limit progress (attempt step progress) (attempt other progress) := by
  simp only [Check.attempt]
  rcases result : step progress with ⟨_, later⟩ | ⟨_, later⟩
  all_goals
    rw [result] at agrees
    refine ⟨agrees.stands, agrees.counted, fun few => ?_⟩
    rw [agrees.same few]

theorem Alike.attempt (alike : Alike underWay most limit step other) :
    Alike underWay most limit (attempt step) (attempt other) :=
  fun progress stands => (alike progress stands).attempt

theorem attempt_eq_ok {value : α} {later : Progress}
    (attempted : Check.attempt step progress = .ok (.ok value) later) :
    step progress = .ok value later := by
  simp only [Check.attempt] at attempted
  split at attempted
  · rename_i found
    simp only [EStateM.Result.ok.injEq, Except.ok.injEq] at attempted
    rw [found, attempted.1, attempted.2]
  · simp at attempted

theorem Agrees.count_bind {add : Tally → Tally} {next onward : Check α}
    (counts : progress.tally.pairs ≤ (add progress.tally).pairs)
    (agrees : Agrees underWay most limit { progress with tally := add progress.tally }
      (next { progress with tally := add progress.tally })
      (onward { progress with tally := add progress.tally })) :
    Agrees underWay most limit progress ((count add >>= fun _ => next) progress)
      ((count add >>= fun _ => onward) progress) where
  stands := agrees.stands
  counted := counts.trans agrees.counted
  same := agrees.same

theorem alike_count_bind {add : Tally → Tally} {next onward : Check α}
    (counts : ∀ tally, (add tally).pairs = tally.pairs)
    (alike : Alike underWay most limit next onward) :
    Alike underWay most limit (count add >>= fun _ => next) (count add >>= fun _ => onward) :=
  fun progress stands => .count_bind (counts progress.tally).ge
    (alike _ ⟨stands.underWay, (counts progress.tally).trans_le stands.pairs⟩)

end Check

def Account.idle : Account where
  Sound _ := True
  Yes _ _ _ := True
  No _ _ := True
  sound_tally _ _ _ := trivial
  yes_later _ _ _ _ _ _ := trivial
  no_later _ _ _ _ _ := trivial

theorem Account.lawful_idle {budgets : Filter Budget} :
    Account.idle.Lawful terms plot budgets leaping where
  short _ _ _ := trivial
  decidedYes _ _ _ _ _ := trivial
  decidedNo _ _ _ _ _ := trivial
  relied _ _ _ _ _ := ⟨trivial, trivial⟩
  begun _ _ _ := trivial
  accepted _ _ _ _ _ _ _ _ _ := ⟨trivial, trivial⟩
  refused _ _ _ _ _ _ _ := ⟨trivial, trivial⟩

theorem Budget.not_grows_pure (budget : Budget) : ¬ Budget.Grows (pure budget) := by
  intro grows
  have large := grows (budget.maxPairs + 1)
  rw [Filter.eventually_pure] at large
  omega

theorem Progress.tally_finish {outcome : Outcome} :
    (progress.finish after inquiry outcome).tally = after.tally := by
  simp only [Progress.finish]
  split
  · split <;> rfl
  · rfl

namespace Terms

open Check

variable {nested others : Nested} {pairing : Pairing}

def AnswerAlike (underWay : List Inquiry) (most limit : Nat) (inside : LayoutId → Prop)
    (nested others : Nested) : Prop :=
  ∀ source destination, inside source → inside destination →
    Alike underWay most limit (nested source destination) (others source destination)

section References

variable {inside : LayoutId → Prop} (answers : AnswerAlike underWay most limit inside nested others)

include answers

variable {source : Reference}

theorem alike_compareReferents {source destination : LayoutId} (sourceInside : inside source)
    (destinationInside : inside destination) :
    Alike underWay most limit (compareReferents nested source destination)
      (compareReferents others source destination) := by
  refine (answers source destination sourceInside destinationInside).attempt.bind ?_
  rintro (_ | _)
  · exact alike_throw _
  · exact alike_pure _

section

variable (sourceInside : inside source.referent)
include sourceInside

theorem alike_compareReferences {destination : Reference}
    (destinationInside : inside destination.referent) :
    Alike underWay most limit (terms.compareReferences nested source destination)
      (terms.compareReferences others source destination) := by
  simp only [compareReferences]
  refine (alike_ofExcept _).bind fun _ => ?_
  refine (alike_ofExcept _).bind fun _ => ?_
  refine (alike_ofExcept _).bind fun _ => ?_
  refine (alike_compareReferents answers sourceInside destinationInside).bind fun _ => ?_
  cases destination.access with
  | shared => exact alike_pure _
  | exclusive =>
    refine (alike_compareReferents answers destinationInside sourceInside).bind fun _ => ?_
    exact alike_pure _

theorem alike_tryReferences {reads : List (Token × Foothold)}
    (readsInside : ∀ target foothold, (.reference target, foothold) ∈ reads →
      inside target.referent) :
    Alike underWay most limit (terms.tryReferences nested source reads)
      (terms.tryReferences others source reads) := by
  induction reads with
  | nil => exact alike_pure _
  | cons first _ ih =>
    rcases first with ⟨token, foothold⟩
    have isRest := ih fun target found member =>
      readsInside target found (mem_cons_of_mem _ member)
    cases token with
    | cell | marker => exact isRest
    | reference target =>
      simp only [tryReferences]
      have targetInside := readsInside target foothold mem_cons_self
      refine (alike_compareReferences answers sourceInside targetInside).attempt.bind ?_
      intro verdict
      refine isRest.bind fun _ => ?_
      cases verdict with
      | ok | error => exact alike_pure _

theorem alike_matchReference {entry : Entry} {before : Position}
    (readsInside : ∀ target foothold, (.reference target, foothold) ∈ entry.prospects.reads →
      inside target.referent) :
    Alike underWay most limit (terms.matchReference nested entry before source)
      (terms.matchReference others entry before source) := by
  simp only [matchReference]
  refine (alike_tryReferences answers sourceInside readsInside).bind fun _ => ?_
  split
  · exact alike_throw _
  · exact alike_pure _

end

theorem alike_matchTokens {entry : Entry} {footholds : List Foothold}
    {reads : List (Token × Position)}
    (sourceInside : ∀ target next, (.reference target, next) ∈ reads → inside target.referent)
    (readsInside : ∀ target foothold, (.reference target, foothold) ∈ entry.prospects.reads →
      inside target.referent) :
    Alike underWay most limit (terms.matchTokens nested entry footholds reads)
      (terms.matchTokens others entry footholds reads) := by
  induction reads with
  | nil => exact alike_pure _
  | cons read _ ih =>
    rcases read with ⟨token, source⟩
    have first : Alike underWay most limit (terms.matchToken nested entry footholds source token)
        (terms.matchToken others entry footholds source token) := by
      cases token with
      | cell contents =>
        cases contents with
        | init | uninit => exact alike_ofExcept _
      | reference => exact alike_matchReference answers (sourceInside _ _ mem_cons_self) readsInside
      | marker => exact alike_pure _
    refine first.bind fun _ => ?_
    refine (ih fun target next member => sourceInside target next (mem_cons_of_mem _ member)).bind
      ?_
    exact fun _ => alike_pure _

theorem alike_step
    (sourceInside : ∀ target next,
      (.reference target, next) ∈ (pairing.source.ahead terms.arena).reads → inside target.referent)
        (readsInside : ∀ target foothold,
      (.reference target, foothold) ∈ (terms.enter pairing.footholds).prospects.reads →
        inside target.referent) :
    Alike underWay most limit (terms.step nested pairing) (terms.step others pairing) := by
  simp only [step]
  rcases terms.runStep? pairing with _ | _
  · simp only [walkStep]
    split
    · exact alike_pure _
    · split
      · exact alike_throw _
      · exact alike_matchTokens answers sourceInside readsInside
  · exact alike_count_bind (fun _ => rfl) (alike_pure _)

end References

theorem alike_step_of_valid (charts : terms.arena.Plotted plot)
    (answers : AnswerAlike underWay most limit (·.index < terms.arena.layouts.size) nested others)
    (valid : pairing.Valid terms.arena plot) :
    Alike underWay most limit (terms.step nested pairing) (terms.step others pairing) := by
  rcases valid.source with ⟨root, within⟩
  refine alike_step answers (fun _ _ member => ?_) fun _ _ member => ?_
  · exact ((mem_reads_ahead charts within).mp member).isProper charts within
  · have isLower : terms.Lower Account.idle {} nothing := lower_nothing
    have opened := opened_below charts valid isLower
    rcases ((opened.mem_reads charts).mp member).2 with ⟨origin, isOrigin, _, reads, _⟩
    rcases opened.located _ ⟨origin, isOrigin, rfl⟩ with ⟨_, within⟩
    exact reads.isProper charts within

section Survey

variable {step other : Pairing → Check Onward} {agenda : Agenda} {exercised : Assumptions}
  {left : Nat}

theorem agrees_at_end (stands : progress.Stands underWay most) (found : agenda.next? = none) :
    Agrees underWay most limit progress (terms.surveyFrom step left agenda exercised progress)
      ({ terms with budget }.surveyFrom other more agenda exercised progress) := by
  rw [surveyFrom.eq_def, surveyFrom.eq_def]
  simp only [found]
  exact alike_pure exercised progress stands

section

variable (same : limit ≤ terms.budget.maxPairs ∨ budget = terms.budget)
include same

theorem agrees_of_full {offset : Nat} {filled : Agenda} (stands : progress.Stands underWay most)
    (found : agenda.next? = some ((offset, pairing), filled))
    (full : terms.budget.maxPairs ≤ progress.tally.pairs) :
    Agrees underWay most limit progress (terms.surveyFrom step left agenda exercised progress)
      ({ terms with budget }.surveyFrom other more agenda exercised progress) := by
  rw [surveyFrom_stops found (.inr full)]
  refine ⟨stands, le_rfl, fun few => ?_⟩
  rcases same with small | rfl
  · exact absurd (few.trans_le small) (Nat.not_lt.mpr full)
  · exact surveyFrom_stops found (.inr full)

variable {good : Pairing → Prop}
  (alike : ∀ pairing, good pairing → Alike underWay most limit (step pairing) (other pairing))
  (closed : ∀ pairing progress onward later, good pairing → progress.underWay = underWay →
    step pairing progress = .ok onward later → ∀ entry ∈ onward.next, good entry.2)
  (inMost : terms.budget.maxPairs ≤ most) (enough : terms.budget.maxPairs ≤ budget.maxPairs)
include alike closed inMost enough

theorem agrees_surveyFrom (fewer : left ≤ more)
    (waits : ∀ pairing ∈ Agenda.pending agenda.queue, good pairing)
    (stands : progress.Stands underWay most)
    (inTime : terms.budget.maxPairs ≤ left + progress.tally.pairs) :
    Agrees underWay most limit progress (terms.surveyFrom step left agenda exercised progress)
      ({ terms with budget }.surveyFrom other more agenda exercised progress) := by
  -- A survey may look at `left` more pairings; each of them is counted, and others may be as well.
  induction left generalizing more agenda exercised progress with
  | zero =>
    rcases found : agenda.next? with _ | ⟨⟨_, _⟩, _⟩
    · exact agrees_at_end stands found
    · exact agrees_of_full same stands found (by omega)
  | succ left ih =>
    rcases found : agenda.next? with _ | ⟨⟨offset, pairing⟩, filled⟩
    · exact agrees_at_end stands found
    by_cases full : terms.budget.maxPairs ≤ progress.tally.pairs
    · exact agrees_of_full same stands found full
    have room := Nat.not_le.mp full
    rw [(Agenda.next_eq_some found).1, forall_mem_cons] at waits
    rw [surveyFrom_of_next found room (by omega),
      surveyFrom_of_next found (room.trans_le enough) (by omega)]
    refine .count_bind (Nat.le_succ _) ?_
    have counted : Progress.Stands underWay most { progress with
        tally.pairs := progress.tally.pairs + 1 } :=
      ⟨stands.underWay, Nat.succ_le_of_lt (room.trans_le inMost)⟩
    have stepped := alike pairing waits.1 _ counted
    refine stepped.attempt.bind ?_
    rintro (diagnostic | onward) later isResult laterStands
    · exact alike_throw _ later laterStands
    have isStep := attempt_eq_ok isResult
    have laterCounted := stepped.counted
    rw [isStep, final] at laterCounted
    have goodNext := closed pairing _ onward later waits.1 counted.underWay isStep
    refine .count_bind le_rfl
      (ih (by omega) (fun pairing member => ?_) ⟨laterStands.underWay, laterStands.pairs⟩ ?_)
    · rcases Agenda.mem_pending_addAll member with before | ⟨entry, isNext, rfl⟩
      · exact waits.2 pairing before
      · exact goodNext entry isNext
    · simp only at laterCounted ⊢
      omega

theorem agrees_survey (inquiry : Inquiry) (root : good (terms.roots inquiry))
    (stands : progress.Stands underWay most) :
    Agrees underWay most limit progress (terms.survey step inquiry.1 inquiry.2 progress)
      ({ terms with budget }.survey other inquiry.1 inquiry.2 progress) := by
  have fewer : terms.budget.maxPairs - progress.tally.pairs ≤
      budget.maxPairs - progress.tally.pairs := Nat.sub_le_sub_right enough _
  exact agrees_surveyFrom same alike closed inMost enough fewer (forall_mem_singleton.mpr root)
    stands (by omega)

end

theorem Evaluates.valid_next {later : Progress} {onward : Onward}
    (evaluates : terms.Evaluates (Account.idle.amid underWay) (pure terms.budget) plot leaping
      fun _ => step)
    (valid : pairing.Valid terms.arena plot) (isUnderWay : progress.underWay = underWay)
    (isStep : step pairing progress = .ok onward later) :
    ∀ entry ∈ onward.next, entry.2.Valid terms.arena plot := by
  rcases evaluates pairing progress valid ⟨isUnderWay, trivial⟩ with ⟨result, same, outcome⟩
  rw [Filter.eventually_pure] at same
  obtain rfl : .ok onward later = result := isStep.symm.trans same
  exact outcome.2.2.valid

end Survey

section Inquiries

variable {account : Account} {levels : Nat}

theorem Evaluates.at_budget {step : Budget → Pairing → Check Onward}
    (evaluates : terms.Evaluates account (pure budget) plot leaping step) :
    terms.Evaluates account (pure budget) plot leaping fun _ => step budget := by
  intro pairing progress valid sound
  refine (evaluates pairing progress valid sound).congr ?_
  rw [Filter.eventually_pure]

theorem final_putDown (result : EStateM.Result Diagnostic Progress Assumptions) :
    ∃ outcome, final (putDown progress inquiry result) =
      progress.finish (final result) inquiry outcome := by
  rcases result with ⟨exercised, after⟩ | ⟨diagnostic, after⟩
  · exact ⟨.ok exercised, rfl⟩
  · exact ⟨.error diagnostic, rfl⟩

theorem agrees_putDown {result other : EStateM.Result Diagnostic Progress Assumptions}
    (isUnderWay : progress.underWay = underWay)
    (agrees : Agrees (inquiry :: underWay) most limit (progress.begin inquiry) result other) :
    Agrees underWay most limit progress (putDown progress inquiry result)
      (putDown progress inquiry other) := by
  rcases final_putDown result with ⟨_, isFinal⟩
  refine ⟨?_, ?_, fun few => ?_⟩
  · rw [isFinal]
    refine ⟨Progress.later_finish.underWay.trans isUnderWay, ?_⟩
    rw [Progress.tally_finish]
    exact agrees.stands.pairs
  · rw [isFinal, Progress.tally_finish]
    exact agrees.counted
  · rw [isFinal, Progress.tally_finish] at few
    rw [agrees.same few]

theorem agrees_of_new {source destination : LayoutId}
    {other : EStateM.Result Diagnostic Progress Assumptions}
    (stands : progress.Stands underWay most)
    (decided : ∀ outcome, progress.decided.lookup (source, destination) = some outcome →
      other = ofExcept outcome progress.countRepeat)
    (relied : ∀ depth, progress.decided.lookup (source, destination) = none →
      progress.depth? (source, destination) = some depth →
        other = .ok ∅ (progress.countCycle.relyOn depth))
    (new : progress.decided.lookup (source, destination) = none →
      progress.depth? (source, destination) = none → Agrees underWay most limit progress
        (terms.includesBy terms.step levels source destination progress) other) :
    Agrees underWay most limit progress
      (terms.includesBy terms.step levels source destination progress) other := by
  rcases found : progress.decided.lookup (source, destination) with _ | outcome
  · rcases isDepth : progress.depth? (source, destination) with _ | depth
    · exact new found isDepth
    · rw [includesBy_of_underWay found isDepth, relied depth found isDepth]
      exact agrees_self stands rfl rfl
  · rw [includesBy_of_decided found, decided outcome found]
    cases outcome <;> exact agrees_self stands rfl rfl

theorem evaluates_includesBy (levels : Nat) (charts : terms.arena.Plotted plot)
    (distinct : underWay.Nodup) (inside : ∀ other ∈ underWay, terms.Inside other) :
    terms.Evaluates (Account.idle.amid underWay) (pure terms.budget) plot True
      fun _ => terms.step (terms.includesBy terms.step levels) := by
  have idles : Answers (Account.idle.amid underWay) (pure terms.budget) terms.arena.layouts.size
      fun budget => { terms with budget }.includesBy terms.step levels :=
    answers_includesBy Account.lawful_idle (steps_step _ charts) charts (.inl ⟨_, rfl⟩)
      (fun grows => absurd grows (Budget.not_grows_pure _)) distinct inside (Nat.lt_succ_self _)
  exact (steps_step _ charts _ _ idles).at_budget

section

variable (charts : terms.arena.Plotted plot)
  (same : limit ≤ terms.budget.maxPairs ∨ budget = terms.budget)
  (inMost : terms.budget.maxPairs ≤ most) (enough : terms.budget.maxPairs ≤ budget.maxPairs)
include charts same inMost enough

/-- Where an inquiry is taken up, the survey goes the same way whoever answers those within, if the
answers are alike. -/
theorem agrees_surveyed (distinct : (inquiry :: underWay).Nodup)
    (inside : ∀ other ∈ inquiry :: underWay, terms.Inside other)
    (answers : AnswerAlike (inquiry :: underWay) most limit (·.index < terms.arena.layouts.size)
      (terms.includesBy terms.step levels) nested) (stands : progress.Stands underWay most) :
    Agrees underWay most limit progress
      (putDown progress inquiry
        (terms.survey (terms.step (terms.includesBy terms.step levels)) inquiry.1 inquiry.2
          (progress.begin inquiry)))
      (putDown progress inquiry
        ({ terms with budget }.survey (terms.step nested) inquiry.1 inquiry.2
          (progress.begin inquiry))) := by
  have evaluates := evaluates_includesBy levels charts distinct inside
  have alike (pairing : Pairing) (valid : pairing.Valid terms.arena plot) :=
    alike_step_of_valid charts answers valid
  exact agrees_putDown stands.underWay
    (agrees_survey same alike (fun _ _ _ _ => evaluates.valid_next) inMost enough inquiry
    (valid_roots charts (inside _ mem_cons_self))
    ⟨congrArg (inquiry :: ·) stands.underWay, stands.pairs⟩)

/-- With as many levels as there are pairs of layouts, inquiries are answered alike with every
larger budget, unless the pairings are used up. -/
theorem answerAlike_includesBy (fewer : levels ≤ more) (distinct : underWay.Nodup)
    (inside : ∀ other ∈ underWay, terms.Inside other)
    (deep : terms.arena.layouts.size * terms.arena.layouts.size ≤ underWay.length + levels) :
    AnswerAlike underWay most limit (·.index < terms.arena.layouts.size)
      (terms.includesBy terms.step levels) ({ terms with budget }.includesBy terms.step more) := by
  induction levels generalizing underWay more with
  | zero =>
    intro source destination sourceInside destinationInside progress stands
    refine agrees_of_new stands (fun _ => includesBy_of_decided) (fun _ => includesBy_of_underWay)
      fun _ isNew => ?_
    -- The inquiries under way are all there are, so there is no new one.
    have next :=
      Inquiry.begins distinct inside ⟨sourceInside, destinationInside⟩ stands.underWay isNew
    have few := Inquiry.length_le next.1 next.2
    rw [length_cons] at few
    omega
  | succ levels ih =>
    rcases Nat.exists_eq_succ_of_ne_zero (by omega : more ≠ 0) with ⟨more, rfl⟩
    intro source destination sourceInside destinationInside progress stands
    refine agrees_of_new stands (fun _ => includesBy_of_decided) (fun _ => includesBy_of_underWay)
      fun undecided isNew => ?_
    have next :=
      Inquiry.begins distinct inside ⟨sourceInside, destinationInside⟩ stands.underWay isNew
    rw [includesBy_of_new undecided isNew (Nat.succ_ne_zero _),
      includesBy_of_new undecided isNew (Nat.succ_ne_zero _)]
    refine agrees_surveyed charts same inMost enough next.1 next.2 (ih (by omega) next.1 next.2 ?_)
      stands
    rw [length_cons]
    omega

end

theorem checkBy_eq (step : Nested → Pairing → Check Onward) :
    (terms.checkBy step inquiry.1 inquiry.2 progress).2 =
      final (terms.includesBy step terms.budget.maxDepth inquiry.1 inquiry.2 progress) := by
  simp only [checkBy]
  cases terms.includesBy step terms.budget.maxDepth inquiry.1 inquiry.2 progress <;> rfl

/-- In an arena that assemblies have filled: a check that may go as deep as there are pairs of
layouts, and has counted fewer pairings than it may, comes to the same outcome in the same way with
every larger budget. -/
theorem check_conclusive {shop : Workshop} (filled : shop.Filled)
    (isArena : terms.arena = shop.arena) (inside : terms.Inside inquiry)
    (idle : progress.underWay = [])
    (deep : terms.arena.layouts.size * terms.arena.layouts.size ≤ terms.budget.maxDepth)
    (unspent : (terms.check inquiry.1 inquiry.2 progress).2.tally.pairs < terms.budget.maxPairs)
    (morePairs : terms.budget.maxPairs ≤ budget.maxPairs)
    (moreDepth : terms.budget.maxDepth ≤ budget.maxDepth) :
    { terms with budget }.check inquiry.1 inquiry.2 progress =
      terms.check inquiry.1 inquiry.2 progress := by
  rcases filled.exists_plotted isArena with ⟨_, charts⟩
  have answers := answerAlike_includesBy charts (.inl le_rfl) (le_max_right progress.tally.pairs _)
    morePairs moreDepth nodup_nil (fun _ none => absurd none not_mem_nil) (by simpa using deep)
  have agrees := answers inquiry.1 inquiry.2 inside.1 inside.2 progress ⟨idle, le_max_left _ _⟩
  rw [check, checkBy_eq] at unspent
  have same := agrees.same unspent
  rw [check_eq_checkBy, check]
  simp only [checkBy, same]

end Inquiries

end Terms

section Sample

open Workshop

def Shape.byteReference (align : Nat) : Shape :=
  .reference (.scalar (.int 1)) ⟨align, .shared, .static⟩

def Shape.eitherReference : Shape :=
  .union 8 8 [⟨0, .byteReference 2⟩, ⟨0, .byteReference 1⟩]

/-- A workshop with the layouts of a reference to a byte, of one of either alignment, and of a
reference to a boolean. -/
def Workshop.choices : Workshop :=
  let first := Job.ofShape (.byteReference 1) (.of_fits rfl)
  let second := Job.ofShape .eitherReference (.of_fits rfl)
  let third := Job.ofShape (.reference (.scalar .bool) ⟨1, .shared, .static⟩) (.of_fits rfl)
  third.leave (second.leave (first.leave {}))

theorem Workshop.filled_choices : choices.Filled := by
  unfold choices
  exact .leave _ (.leave _ (.leave _ .empty))

/-- The reference to a byte is refused as one to a boolean with budget to spare, and so it is
without limits. -/
theorem Terms.check_conclusive_choices :
    let terms : Terms := { arena := Workshop.choices.arena, budget := ⟨4, 49⟩ }
    (terms.check ⟨1⟩ ⟨6⟩ {}).1.toOption = none ∧
      (terms.check ⟨1⟩ ⟨6⟩ {}).2.tally.pairs < terms.budget.maxPairs ∧
      { terms with budget := .unlimited }.check ⟨1⟩ ⟨6⟩ {} = terms.check ⟨1⟩ ⟨6⟩ {} := by
  intro terms
  have inside : terms.Inside (⟨1⟩, ⟨6⟩) := by decide +kernel
  have deep : terms.arena.layouts.size * terms.arena.layouts.size ≤ terms.budget.maxDepth := by
    decide +kernel
  have unspent : (terms.check ⟨1⟩ ⟨6⟩ {}).2.tally.pairs < terms.budget.maxPairs := by decide +kernel
  have refused : (terms.check ⟨1⟩ ⟨6⟩ {}).1.toOption = none := by decide +kernel
  have morePairs : terms.budget.maxPairs ≤ Budget.unlimited.maxPairs := by decide
  have moreDepth : terms.budget.maxDepth ≤ Budget.unlimited.maxDepth := by decide
  have isArena : terms.arena = Workshop.choices.arena := rfl
  have idle : ({} : Progress).underWay = [] := rfl
  exact ⟨refused, unspent, Terms.check_conclusive Workshop.filled_choices isArena inside idle deep
    unspent morePairs moreDepth⟩

/-- With one level only, referents cannot be compared. The reference of either alignment is then
refused for the alignment that does not fit, although the other one does. -/
theorem Terms.check_inconclusive :
    let terms : Terms := { arena := Workshop.choices.arena, budget := .unlimited }
    let shallow : Terms := { terms with budget := { Budget.unlimited with maxDepth := 1 } }
    (∃ diagnostic, (shallow.check ⟨1⟩ ⟨4⟩ {}).1 = .error diagnostic ∧
        diagnostic.reason.dimension = .alignment) ∧
      (terms.check ⟨1⟩ ⟨4⟩ {}).1.toOption = some ∅ := by
  intro _ shallow
  have dimension : (((shallow.check ⟨1⟩ ⟨4⟩ {}).1.map fun _ => none).tryCatch
      fun diagnostic => .ok (some diagnostic.reason.dimension)).toOption =
      some (some .alignment) := by
    decide +kernel
  refine ⟨?_, by decide +kernel⟩
  rcases outcome : (shallow.check ⟨1⟩ ⟨4⟩ {}).1 with diagnostic | _ <;> rw [outcome] at dimension
  · exact ⟨diagnostic, rfl, Option.some.inj (Option.some.inj dimension)⟩
  · cases dimension

end Sample

end Recast
