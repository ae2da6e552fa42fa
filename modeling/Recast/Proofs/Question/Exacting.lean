import Recast.Proofs.Assembly.Written
import Recast.Proofs.Inclusion.Unspent
import Recast.Proofs.Question.Plain

/-!
# Exacting checks

A check reports what is needed by all the references of the destination that can read the source. A
further assumption may let one more of them do, or lead into a region under invariants, and what is
needed there is reported as well, although the check can do without.

An exacting check leaves nothing aside of what further assumptions might let the destination read.
Each of its successes is one of the check itself, be it that some of these assumptions are made
(`Check.Foretells`, `Terms.foretells_step`): whatever more is assumed, nothing more is reported
(`Setting.recast_of_exacting`). Between shapes without references there is nothing to leave aside
but regions under invariants (`Setting.exacting_of_allows`).
-/

namespace Recast

open List Position Assumptions

variable {between exercised : Assumptions} {arena : Arena} {regions : Prop}
  {progress later : Progress} {entry : Entry} {footholds : List Foothold}

namespace Check

variable {α β : Type} {step other : Check α} {next onward : α → Check β}

/-- Each success of the first step is one of the second. -/
def Foretells (step other : Check α) : Prop :=
  ∀ progress value later, step progress = .ok value later → other progress = .ok value later

theorem foretells_refl (step : Check α) : Foretells step step := fun _ _ _ isOk => isOk

theorem foretells_throw (diagnostic : Diagnostic) (other : Check α) :
    Foretells (throw diagnostic) other :=
  fun _ _ _ isOk => nomatch isOk

theorem foretells_ofExcept {result resultToo : Except Diagnostic α}
    (same : ∀ value, result = .ok value → resultToo = .ok value) :
    Foretells (ofExcept result) (ofExcept resultToo) := by
  cases result with
  | ok value =>
    rw [same value rfl]
    exact foretells_refl _
  | error diagnostic => exact foretells_throw diagnostic _

theorem Foretells.bind (first : Foretells step other)
    (second : ∀ value, Foretells (next value) (onward value)) :
    Foretells (step >>= next) (other >>= onward) := by
  intro _ _ _ isOk
  rcases bind_eq_ok.mp isOk with ⟨middle, between, isFirst, isNext⟩
  exact bind_eq_ok.mpr ⟨middle, between, first _ _ _ isFirst, second middle _ _ _ isNext⟩

theorem attempt_of_ok {value : α} (isOk : step progress = .ok value later) :
    attempt step progress = .ok (.ok value) later := by
  simp only [attempt, isOk]

theorem Foretells.attempt_bind {next onward : Except Diagnostic α → Check β}
    (first : Foretells step other)
    (fails : ∀ diagnostic, ∃ reported, next (.error diagnostic) = throw reported)
    (second : ∀ value, Foretells (next (.ok value)) (onward (.ok value))) :
    Foretells (attempt step >>= next) (attempt other >>= onward) := by
  intro _ _ _ isOk
  rcases bind_eq_ok.mp isOk with ⟨diagnostic | middle, between, isFirst, isNext⟩
  · rcases fails diagnostic with ⟨_, isThrow⟩
    rw [isThrow] at isNext
    cases isNext
  · have isOther := attempt_of_ok (first _ _ _ (attempt_eq_ok isFirst))
    exact bind_eq_ok.mpr ⟨.ok middle, between, isOther, second middle _ _ _ isNext⟩

end Check

namespace Terms

open Check

section Ways

variable (terms : Terms)

/-- A reference, read by the destination, given what its references make of it. -/
def referenceBy (cover : Check Coverage) (entry : Entry) (source : Position)
    (reference : Reference) : Check Onward := do
  let coverage ← cover
  let forgotten := entry.footholds.flatMap fun foothold =>
    (passUninit terms.arena reference.width [foothold.position]).map foothold.moveTo
  let footholds := coverage.footholds ++ forgotten
  if footholds.isEmpty then
    throw (coverage.failure.getD (entry.refusal (.reference reference.access reference.align)))
  return {
    exercised := coverage.exercised ∪ Foothold.assumptionOf footholds
    next := [(reference.width, ⟨source, Foothold.distinct footholds⟩)] }

def tokensBy (each : Token × Position → Check Onward) : List (Token × Position) → Check Onward
  | [] => pure {}
  | first :: rest => do
    let onward ← each first
    let others ← tokensBy each rest
    return onward ++ others

def walkBy (read : Entry → List (Token × Position) → Check Onward) (pairing : Pairing) :
    Check Onward := do
  let ahead := pairing.source.ahead terms.arena
  let entry := terms.enter pairing.footholds
  if entry.prospects.isOver then
    return { exercised := if entry.prospects.isOverPlainly then ∅ else {.safety} }
  if ahead.mayEnd && !entry.prospects.mayEnd &&
      !entry.footholds.any (fun foothold => foothold.position.endsInPadding terms.arena) then
    throw ⟨0, .mismatch .stop entry.prospects.offer⟩
  read entry ahead.reads

variable (nested : Nested)

theorem matchTokens_eq (entry : Entry) (footholds : List Foothold)
    (reads : List (Token × Position)) :
    terms.matchTokens nested entry footholds reads =
      tokensBy (fun read => terms.matchToken nested entry footholds read.2 read.1) reads := by
  induction reads with
  | nil => rfl
  | cons _ _ ih => rw [matchTokens, tokensBy, ih]

def comparePromises (source destination : Reference) : Outcome :=
  match source.compareForm destination, terms.compareAlignment source destination,
    terms.compareLifetime source destination with
  | .error diagnostic, _, _ => .error diagnostic
  | .ok _, .error diagnostic, _ => .error diagnostic
  | .ok _, .ok _, .error diagnostic => .error diagnostic
  | .ok _, .ok aligned, .ok outlived => .ok (aligned ∪ outlived)

theorem compareReferences_eq (source destination : Reference) :
    terms.compareReferences nested source destination = (do
      let promised ← Check.ofExcept (terms.comparePromises source destination)
      let forth ← compareReferents nested source.referent destination.referent
      match destination.access with
      | .shared => return promised ∪ forth
      | .exclusive =>
        let back ← compareReferents nested destination.referent source.referent
        return promised ∪ forth ∪ back) := by
  simp only [compareReferences, comparePromises]
  rcases source.compareForm destination with mismatch | _
  · rfl
  rcases terms.compareAlignment source destination with mismatch | _
  · rfl
  rcases terms.compareLifetime source destination with _ | _ <;> rfl

variable (more : Assumptions)

/-- Demands of the references of the destination that they can read one of the source, but for those
that promise too much even if more is assumed. -/
def demandReferences (source : Reference) : List (Token × Foothold) → Check Coverage
  | [] => pure {}
  | (.reference target, foothold) :: rest =>
    match { terms with assumed := more }.comparePromises source target with
    | .ok _ => do
      let exercised ← terms.compareReferences nested source target
      let others ← demandReferences source rest
      return { others with
        exercised := exercised ∪ others.exercised
        footholds := foothold :: others.footholds }
    | .error _ => demandReferences source rest
  | _ :: rest => demandReferences source rest

def exactToken (entry : Entry) (footholds : List Foothold) (source : Position) :
    Token → Check Onward
  | .reference target =>
    terms.referenceBy (terms.demandReferences nested more target entry.prospects.reads) entry source
      target
  | token => terms.matchToken nested entry footholds source token

/-- Goes on by one token, unless there is a region ahead that might be entered if more is assumed.
-/
def exactWalk (pairing : Pairing) : Check Onward :=
  if more.safety && (terms.enter pairing.footholds).barred.isSome then
    throw ((terms.enter pairing.footholds).refusal .stop)
  else
    terms.walkBy (fun entry => tokensBy fun read =>
      terms.exactToken nested more entry pairing.footholds read.2 read.1) pairing

/-- What a pairing demands if nothing is to be left aside that might do if more is assumed. -/
def exactStep (pairing : Pairing) : Check Onward := do
  match terms.runStep? pairing with
  | some onward =>
    Check.count fun tally => { tally with runs := tally.runs + 1 }
    return onward
  | none => terms.exactWalk nested more pairing

end Ways

section Steps

variable {terms : Terms} {more : Assumptions} {nested others : Nested}

theorem foretells_referenceBy {cover coverToo : Check Coverage}
    (covers : ∀ progress coverage later, cover progress = .ok coverage later →
      ∃ failure, coverToo progress = .ok { coverage with failure } later)
    (entry : Entry) (source : Position) (reference : Reference) :
    Foretells (terms.referenceBy cover entry source reference)
      ({ terms with assumed := between }.referenceBy coverToo entry source reference) := by
  intro progress value later isOk
  rcases bind_eq_ok.mp isOk with ⟨coverage, middle, isCoverage, onward⟩
  rcases covers _ _ _ isCoverage with ⟨failure, isCoverageToo⟩
  refine bind_eq_ok.mpr ⟨_, middle, isCoverageToo, ?_⟩
  -- Why a reference is left aside matters only if there is nothing else.
  dsimp only at onward ⊢
  split at onward
  · cases onward
  · rw [if_neg ‹_›]
    exact onward

theorem foretells_tokensBy {each eachToo : Token × Position → Check Onward}
    (foretells : ∀ read, Foretells (each read) (eachToo read)) (reads : List (Token × Position)) :
    Foretells (tokensBy each reads) (tokensBy eachToo reads) := by
  induction reads with
  | nil => exact foretells_refl _
  | cons read _ ih => exact (foretells read).bind fun _ => ih.bind fun _ => foretells_refl _

section Growing

variable {source destination : Reference} (grows : terms.assumed ⊆ more)
include grows

theorem promise_mono (assumption : Assumption) {kept : Prop} [Decidable kept]
    {diagnostic : Diagnostic} (isOk : terms.promise assumption kept diagnostic = .ok exercised) :
    { terms with assumed := more }.promise assumption kept diagnostic = .ok exercised := by
  simp only [promise] at isOk ⊢
  split at isOk
  · rw [if_pos ‹_›, isOk]
  · rw [if_neg ‹_›]
    split at isOk
    · rw [if_pos (subset_iff.mp grows assumption ‹_›), isOk]
    · cases isOk

theorem comparePromises_mono {promised : Assumptions}
    (isOk : terms.comparePromises source destination = .ok promised) :
    { terms with assumed := more }.comparePromises source destination = .ok promised := by
  simp only [comparePromises] at isOk ⊢
  rcases isForm : source.compareForm destination with mismatch | _
  · simp [isForm] at isOk
  rcases isAligned : terms.compareAlignment source destination with mismatch | _
  · simp [isForm, isAligned] at isOk
  rcases isOutlived : terms.compareLifetime source destination with _ | _
  · simp [isForm, isAligned, isOutlived] at isOk
  rw [show compareAlignment _ source destination = _ from promise_mono grows .alignment isAligned,
    show compareLifetime _ source destination = _ from promise_mono grows .lifetimes isOutlived]
  simpa [isForm, isAligned, isOutlived] using isOk

theorem matchClass_mono {part : ByteClass} {onward : Assumptions × List Foothold}
    (isOk : terms.matchClass entry part = .ok onward) :
    { terms with assumed := more }.matchClass entry part = .ok onward := by
  simp only [matchClass] at isOk ⊢
  split at isOk
  · rw [if_pos ‹_›, isOk]
  · rw [if_neg ‹_›]
    split at isOk
    · rename_i known
      rw [Bool.and_eq_true] at known
      have isValid : more.validity := subset_iff.mp grows .validity known.1
      rw [if_pos (by rw [isValid, known.2]; rfl), isOk]
    · cases isOk

theorem matchClasses_mono {source : Position} {classes : List ByteClass} {onward : Onward}
    (isOk : terms.matchClasses entry source classes = .ok onward) :
    { terms with assumed := more }.matchClasses entry source classes = .ok onward := by
  induction classes generalizing onward with
  | nil => exact isOk
  | cons part rest ih =>
    simp only [matchClasses] at isOk ⊢
    split at isOk
    · cases isOk
    rename_i exercised footholds isFirst
    rw [matchClass_mono grows isFirst]
    split at isOk
    · cases isOk
    rename_i others isRest
    rw [ih isRest]
    exact isOk

end Growing

section References

variable (grows : terms.assumed ⊆ between) (within : between ⊆ more)
  (foretold : ∀ source destination, Foretells (nested source destination)
  (others source destination))
include grows

theorem enter_mono (free : between.safety → (terms.enter footholds).barred = none) :
    { terms with assumed := between }.enter footholds = terms.enter footholds := by
  rcases isSafe : terms.assumed.safety with _ | _
  · rcases isSafeToo : between.safety with _ | _
    · simp only [enter, isSafe, isSafeToo]
    · have isFree := free isSafeToo
      simp only [enter, isSafe, isSafeToo] at isFree ⊢
      rw [Entry.enter.eq_def] at isFree ⊢
      simp only [Bool.false_and, Bool.false_eq_true, if_false] at isFree
      rw [Entry.enter.eq_def]
      simp [isFree]
  · have isSafeToo : between.safety := subset_iff.mp grows .safety isSafe
    simp only [enter, isSafe, isSafeToo]

include foretold

omit grows in
theorem foretells_compareReferents (source destination : LayoutId) :
    Foretells (compareReferents nested source destination)
      (compareReferents others source destination) :=
  (foretold source destination).attempt_bind (fun _ => ⟨_, rfl⟩) fun _ => foretells_refl _

theorem foretells_compareReferences (source destination : Reference) :
    Foretells (terms.compareReferences nested source destination)
      ({ terms with assumed := between }.compareReferences others source destination) := by
  rw [compareReferences_eq, compareReferences_eq]
  refine (foretells_ofExcept fun _ => comparePromises_mono grows).bind fun _ => ?_
  refine (foretells_compareReferents foretold _ _).bind fun _ => ?_
  cases destination.access with
  | shared => exact foretells_refl _
  | exclusive => exact (foretells_compareReferents foretold _ _).bind fun _ => foretells_refl _

include within

theorem tryReferences_of_demand {source : Reference} {reads : List (Token × Foothold)}
    {coverage : Coverage}
    (isOk : terms.demandReferences nested more source reads progress = .ok coverage later) :
    ∃ failure, { terms with assumed := between }.tryReferences others source reads progress =
      .ok { coverage with failure } later := by
  induction reads generalizing progress later coverage with
  | nil => exact ⟨_, isOk⟩
  | cons first _ ih =>
    rcases first with ⟨token, _⟩
    cases token with
    | cell | marker => exact ih isOk
    | reference target =>
      simp only [demandReferences] at isOk
      rcases isPromise : { terms with assumed := more }.comparePromises source target with
        diagnostic | _ <;>
        simp only [isPromise] at isOk
      · rcases isNear : { terms with assumed := between }.comparePromises source target with
          nearer | promised
        · rcases ih isOk with ⟨_, isRest⟩
          have isCompared : attempt
              ({ terms with assumed := between }.compareReferences others source target) progress =
              .ok (.error nearer) progress := by
            rw [compareReferences_eq, isNear]
            rfl
          exact ⟨some nearer, bind_eq_ok.mpr ⟨_, _, isCompared, bind_eq_ok.mpr ⟨_, _, isRest, rfl⟩⟩⟩
        · have isAlso : { terms with assumed := more }.comparePromises source target =
            .ok promised :=
            @comparePromises_mono { terms with assumed := between } more _ _ within _ isNear
          rw [isPromise] at isAlso
          cases isAlso
      · rcases bind_eq_ok.mp isOk with ⟨_, _, isFirst, onward⟩
        rcases bind_eq_ok.mp onward with ⟨_, _, isFound, ⟨⟩⟩
        rcases ih isFound with ⟨failure, isRest⟩
        have isCompared :=
          attempt_of_ok (foretells_compareReferences grows foretold _ _ _ _ _ isFirst)
        exact ⟨failure, bind_eq_ok.mpr ⟨_, _, isCompared, bind_eq_ok.mpr ⟨_, _, isRest, rfl⟩⟩⟩

theorem foretells_exactToken (entry : Entry) (footholds : List Foothold) (source : Position)
    (token : Token) :
    Foretells (terms.exactToken nested more entry footholds source token)
      ({ terms with assumed := between }.matchToken others entry footholds source token) := by
  cases token with
  | cell contents =>
    cases contents with
    | init => exact foretells_ofExcept fun _ => matchClasses_mono grows
    | uninit => exact foretells_refl _
  | reference target =>
    refine foretells_referenceBy (fun _ _ _ isOk => ?_) entry source target
    exact tryReferences_of_demand grows within foretold isOk
  | marker => exact foretells_refl _

/-- What a pairing demands if nothing is left aside is what it demands if some of the further
assumptions are made. -/
theorem foretells_step (pairing : Pairing) :
    Foretells (terms.exactStep nested more pairing)
      ({ terms with assumed := between }.step others pairing) := by
  have sameRun : { terms with assumed := between }.runStep? pairing = terms.runStep? pairing := rfl
  rcases isRun : terms.runStep? pairing with _ | onward
  case some =>
    simp only [exactStep, step, sameRun, isRun]
    exact foretells_refl _
  simp only [exactStep, step, sameRun, isRun, exactWalk]
  split
  · exact foretells_throw _ _
  rename_i unbarred
  have free (isSafe : between.safety) : (terms.enter pairing.footholds).barred = none := by
    have isSafeToo : more.safety := subset_iff.mp within .safety isSafe
    rw [isSafeToo, Bool.true_and] at unbarred
    simpa using unbarred
  simp only [walkStep, walkBy, enter_mono grows free]
  split
  · exact foretells_refl _
  split
  · exact foretells_throw _ _
  rw [matchTokens_eq]
  exact foretells_tokensBy
    (fun read => foretells_exactToken grows within foretold _ _ read.2 read.1) _

end References

end Steps

section Runs

variable {terms easier : Terms} {step other : Pairing → Check Onward}

theorem foretells_surveyFrom_of_none {agenda : Agenda} (found : agenda.next? = none) (left : Nat)
    (exercised : Assumptions) :
    Foretells (terms.surveyFrom step left agenda exercised)
      (easier.surveyFrom other left agenda exercised) := by
  rw [surveyFrom.eq_def, surveyFrom.eq_def easier]
  simp only [found]
  exact foretells_refl _

theorem foretells_surveyFrom (sameBudget : easier.budget = terms.budget)
    (foretells : ∀ pairing, Foretells (step pairing) (other pairing)) (left : Nat) (agenda : Agenda)
    (exercised : Assumptions) :
    Foretells (terms.surveyFrom step left agenda exercised)
      (easier.surveyFrom other left agenda exercised) := by
  induction left generalizing agenda exercised with
  | zero =>
    rcases found : agenda.next? with _ | ⟨⟨_, _⟩, _⟩
    · exact foretells_surveyFrom_of_none found _ _
    · intro _ _ _ isOk
      rw [surveyFrom_stops found (.inl rfl)] at isOk
      cases isOk
  | succ _ ih =>
    rcases found : agenda.next? with _ | ⟨⟨_, pairing⟩, _⟩
    · exact foretells_surveyFrom_of_none found _ _
    intro progress value later isOk
    by_cases full : terms.budget.maxPairs ≤ progress.tally.pairs
    · rw [surveyFrom_stops found (.inr full)] at isOk
      cases isOk
    have room := Nat.not_le.mp full
    rw [surveyFrom_of_next found room (Nat.succ_ne_zero _)] at isOk
    rw [surveyFrom_of_next found (sameBudget ▸ room) (Nat.succ_ne_zero _)]
    refine ((foretells_refl _).bind fun _ => ?_) progress value later isOk
    refine (foretells pairing).attempt_bind (fun _ => ⟨_, rfl⟩) fun _ => ?_
    exact (foretells_refl _).bind fun _ => ih _ _

theorem foretells_survey (sameArena : easier.arena = terms.arena)
    (sameBudget : easier.budget = terms.budget)
    (foretells : ∀ pairing, Foretells (step pairing) (other pairing))
    (source destination : LayoutId) :
    Foretells (terms.survey step source destination) (easier.survey other source destination) := by
  simp only [survey, sameArena, sameBudget]
  exact (foretells_refl _).bind fun _ => foretells_surveyFrom sameBudget foretells _ _ _

theorem foretells_of_new {step other : Nested → Pairing → Check Onward} {levels : Nat}
    {source destination : LayoutId}
    (new : ∀ progress value later, progress.decided.lookup (source, destination) = none →
      progress.depth? (source, destination) = none →
      terms.includesBy step levels source destination progress = .ok value later →
      easier.includesBy other levels source destination progress = .ok value later) :
    Foretells (terms.includesBy step levels source destination)
      (easier.includesBy other levels source destination) := by
  intro progress value later isOk
  rcases decided : progress.decided.lookup (source, destination) with _ | _
  · rcases isDepth : progress.depth? (source, destination) with _ | _
    · exact new progress value later decided isDepth isOk
    · rw [includesBy_of_underWay decided isDepth] at isOk ⊢
      exact isOk
  · rw [includesBy_of_decided decided] at isOk ⊢
    exact isOk

theorem foretells_includesBy {step other : Nested → Pairing → Check Onward}
    (sameArena : easier.arena = terms.arena) (sameBudget : easier.budget = terms.budget)
    (foretells : ∀ nested others,
      (∀ source destination, Foretells (nested source destination) (others source destination)) →
      ∀ pairing, Foretells (step nested pairing) (other others pairing)) (levels : Nat)
    (source destination : LayoutId) :
    Foretells (terms.includesBy step levels source destination)
      (easier.includesBy other levels source destination) := by
  induction levels generalizing source destination with
  | zero =>
    refine foretells_of_new fun progress value later undecided isNew isOk => ?_
    rw [includesBy_stops undecided isNew rfl] at isOk
    cases isOk
  | succ left ih =>
    refine foretells_of_new fun progress _ _ undecided isNew isOk => ?_
    rw [includesBy_of_new undecided isNew (Nat.succ_ne_zero _), Nat.succ_sub_one] at isOk ⊢
    have surveys := foretells_survey sameArena sameBudget (foretells _ _ ih) source destination
    rcases isSurvey : terms.survey (step (terms.includesBy step left)) source destination
      (progress.begin (source, destination)) with ⟨_, after⟩ | ⟨_, after⟩ <;> rw [isSurvey] at isOk
    · rw [surveys _ _ _ isSurvey]
      exact isOk
    · cases isOk

theorem check_of_exact {more : Assumptions} {inquiry : Inquiry} (grows : terms.assumed ⊆ between)
    (within : between ⊆ more)
    (isExact : (terms.checkBy (terms.exactStep · more) inquiry.1 inquiry.2 progress).1 = .ok
      exercised) :
    ({ terms with assumed := between }.check inquiry.1 inquiry.2 progress).1 = .ok exercised := by
  simp only [checkBy] at isExact
  split at isExact
  · rename_i value later isOk
    let easier : Terms := { terms with assumed := between }
    have steps (nested others : Nested)
        (foretold : ∀ source destination, Foretells (nested source destination)
        (others source destination)) (pairing : Pairing) :=
      foretells_step grows within foretold pairing
    have foretells : Foretells
        (terms.includesBy (terms.exactStep · more) terms.budget.maxDepth inquiry.1 inquiry.2)
        (easier.includesBy easier.step easier.budget.maxDepth inquiry.1 inquiry.2) :=
      @foretells_includesBy terms easier _ _ rfl rfl steps _ _ _
    simp only [check, checkBy]
    rw [foretells _ _ _ isOk]
    exact isExact
  · cases isExact

end Runs

section Regions

variable {terms : Terms} {holds : Token → Prop} {more : Assumptions}

theorem bears_ahead (bears : arena.Bears holds) (position : Position) :
    ∀ read ∈ (position.ahead arena).reads, holds read.1 := by
  have own (position : Position) : ∀ read ∈ position.ownReads arena, holds read.1 := by
    intro _ member
    rcases mem_filterMap.mp member with ⟨edge, isEdge, isRead⟩
    rcases label : edge.label with _ | ⟨_, _⟩
    · simp only [label, Option.some.injEq] at isRead
      rw [← isRead]
      exact bears.token isEdge label
    · simp [label] at isRead
  have within (depth : Nat) (position : Position) :
      ∀ read ∈ (position.aheadWithin arena depth).reads, holds read.1 := by
    induction depth generalizing position with
    | zero => simp [aheadWithin]
    | succ depth ih =>
      have beyond : ∀ read ∈ (Ahead.concat
          ((position.silent arena).map (aheadWithin arena depth))).reads, holds read.1 := by
        intro read member
        rw [Ahead.reads_concat, mem_flatMap] at member
        rcases member with ⟨_, isAhead, isRead⟩
        rcases mem_map.mp isAhead with ⟨next, _, rfl⟩
        exact ih next read isRead
      simp only [aheadWithin]
      split
      · exact beyond
      · intro read member
        rcases mem_append.mp member with isOwn | isBeyond
        · exact own position read isOwn
        · exact beyond read isBeyond
  exact within _ position

theorem markers_eq_nil (bears : terms.arena.Bears (Token.Allowed False regions)) (none : ¬ regions)
    (footholds : List Foothold) : (Prospects.ofFootholds terms.arena footholds).markers = [] := by
  refine filterMap_eq_nil_iff.mpr fun _ member => ?_
  rcases mem_flatMap.mp member with ⟨_, isOutlook, isRead⟩
  rcases mem_map.mp isOutlook with ⟨_, _, rfl⟩
  rcases mem_map.mp isRead with ⟨⟨token, _⟩, isAhead, rfl⟩
  have isAllowed := bears_ahead bears _ _ isAhead
  cases token with
  | cell | reference => rfl
  | marker => exact absurd isAllowed none

theorem barred_eq_none_of_safe (isSafe : terms.assumed.safety) (footholds : List Foothold) :
    (terms.enter footholds).barred = none := by
  have always (rounds : Nat) (footholds : List Foothold) :
      (Entry.enter terms.arena true rounds footholds).barred = none := by
    induction rounds generalizing footholds with
    | zero =>
      simp only [Entry.enter, Bool.true_and]
      split
      · rfl
      · exact Option.not_isSome_iff_eq_none.mp ‹_›
    | succ left ih =>
      simp only [Entry.enter, Bool.true_and]
      split
      · exact ih _
      · exact Option.not_isSome_iff_eq_none.mp ‹_›
  rw [enter, isSafe]
  exact always _ _

theorem exactTokens_eq {nested : Nested} {reads : List (Token × Position)}
    (none : ∀ read ∈ reads, read.1.Allowed False regions) :
    tokensBy (fun read => terms.exactToken nested more entry footholds read.2 read.1) reads =
      terms.matchTokens nested entry footholds reads := by
  rw [matchTokens_eq]
  induction reads with
  | nil => rfl
  | cons read _ ih =>
    rw [forall_mem_cons] at none
    rcases read with ⟨token, _⟩
    cases token with
    | cell =>
      rw [tokensBy, tokensBy, ih none.2, exactToken]
      simp
    | reference => exact none.1.elim
    | marker =>
      rw [tokensBy, tokensBy, ih none.2, exactToken]
      simp

theorem exactStep_eq (bears : terms.arena.Bears (Token.Allowed False regions))
    (safe : regions → .safety ∈ more → .safety ∈ terms.assumed) (nested : Nested) :
    terms.exactStep nested more = terms.step nested := by
  funext pairing
  have free : (more.safety && (terms.enter pairing.footholds).barred.isSome) = false := by
    rcases isSafe : more.safety with _ | _
    · rfl
    rw [Bool.true_and]
    by_cases some : regions
    · rw [barred_eq_none_of_safe (safe some isSafe)]
      rfl
    · rw [enter, Entry.enter.eq_def]
      simp [Entry.freshMarkers, markers_eq_nil bears some]
  have sameWalk : terms.exactWalk nested more pairing = terms.walkStep nested pairing := by
    rw [exactWalk, if_neg (by simp [free]), walkStep, walkBy, exactTokens_eq (bears_ahead bears _)]
  rcases isRun : terms.runStep? pairing with _ | _
  · simp only [exactStep, step, isRun, sameWalk]
  · simp only [exactStep, step, isRun]

end Regions

end Terms

namespace Setting

variable {setting : Setting} {source destination : Shape} {assumed more : Assumptions}

/-- The report of an exacting check that accepts, with nothing left aside that might do if more is
assumed. -/
def exacting (setting : Setting) (source destination : Shape) (assumed more : Assumptions) :
    Option Assumptions :=
  (setting.assembled? source destination).bind fun found =>
    let terms := setting.terms found.2 assumed
    (terms.checkBy (terms.exactStep · more) found.1.1 found.1.2 {}).1.toOption

theorem bears_assemble {shape : Shape} {totalLength : Option Nat} {larger : Arena} {id : LayoutId}
    (allows : shape.Allows setting.catalog False regions)
    (bears : arena.Bears (Token.Allowed False regions))
    (assembled : setting.assemble shape totalLength arena = .ok (id, larger)) :
    larger.Bears (Token.Allowed False regions) := by
  rcases assemble_eq_ok assembled with ⟨later, isLater, _, rfl⟩
  rcases Shape.assemble_eq_ok isLater with ⟨draft, planned, isDraft, rfl, defined⟩
  rcases allows.writes _ _ _ _ _ trivial isDraft with ⟨_, no | rfl, leaves⟩
  · exact no.elim
  · exact bears.reserve.define leaves defined

theorem exacting_of_allows (allows : source.Allows setting.catalog False regions)
    (allowsToo : destination.Allows setting.catalog False regions)
    (safe : regions → .safety ∈ more → .safety ∈ assumed)
    (accepted : setting.recast source destination assumed = .ok exercised) :
    setting.exacting source destination assumed more = some exercised := by
  rcases assembles_of_recast accepted with ⟨inquiry, arena, assembles⟩
  have isAccepted := assembles.recast_eq_ok_iff.mp accepted
  rcases assembles with ⟨_, first, second⟩
  have bears := bears_assemble allowsToo (bears_assemble allows Arena.bears_empty first) second
  have isFound : setting.assembled? source destination = some (inquiry, arena) := by
    simp [assembled?, first, second, Except.toOption]
  let terms := setting.terms arena assumed
  have sameStep : (terms.exactStep · more) = terms.step :=
    funext fun nested => Terms.exactStep_eq bears safe nested
  rw [exacting, isFound, Option.bind_some]
  simp only [terms] at sameStep
  simp only [sameStep]
  rw [← Terms.check, isAccepted]
  rfl

/-- What an exacting check accepts is accepted whatever more is assumed, and nothing more is
reported. So it is with every check between shapes without references, unless there are regions
under invariants that may be entered only if more is assumed. -/
theorem recast_of_exacting
    (isExact : setting.exacting source destination assumed more = some exercised ∨
      setting.recast source destination assumed = .ok exercised ∧ ∃ regions : Prop,
        source.Allows setting.catalog False regions ∧
        destination.Allows setting.catalog False regions ∧
          (regions → .safety ∈ more → .safety ∈ assumed)) (grows : assumed ⊆ between)
    (within : between ⊆ more) :
    setting.recast source destination between = .ok exercised := by
  have isExacting : setting.exacting source destination assumed more = some exercised := by
    rcases isExact with isExact | ⟨accepted, _, allows, allowsToo, safe⟩
    · exact isExact
    · exact exacting_of_allows allows allowsToo safe accepted
  rcases Option.bind_eq_some_iff.mp isExacting with ⟨_, isFound, accepted⟩
  rw [(assembles_of_assembled? isFound).recast_eq_ok_iff]
  exact Terms.check_of_exact grows within (eq_ok_of_toOption accepted)

/-- A reference to a byte is taken for one that is aligned to two, if that is assumed, and no more
than that is reported whatever is assumed. -/
theorem recast_of_exacting_aligned : let setting : Setting := { budget := .unlimited }
    setting.exacting (.byteReference 1) (.byteReference 2) {.alignment} .everything =
    some {.alignment} ∧
      setting.recast (.byteReference 1) (.byteReference 2) {.alignment} = .ok {.alignment} ∧
      setting.recast (.byteReference 1) (.byteReference 2) .everything = .ok {.alignment} := by
  intro setting
  have isExact : setting.exacting (.byteReference 1) (.byteReference 2) {.alignment} .everything =
      some {.alignment} := by decide +kernel
  exact ⟨isExact, recast_of_exacting (.inl isExact) (by decide) (by decide),
    recast_of_exacting (.inl isExact) (by decide) (by decide)⟩

/-- A reference of either alignment needs no assumption, but one is reported if it is made. The same
goes for a type with invariants that has no bytes, and is taken for itself. -/
theorem recast_reports_more : let setting : Setting := { budget := .unlimited }
    let hollow : Shape := .sealed "T" 0 1
    (setting.recast (.byteReference 1) .eitherReference ∅).toOption = some ∅ ∧
      (setting.recast (.byteReference 1) .eitherReference {.alignment}).toOption =
        some {.alignment} ∧
      (setting.recast hollow hollow ∅).toOption = some ∅ ∧
      (setting.recast hollow hollow {.safety}).toOption = some {.safety} := by
  decide +kernel

end Setting

end Recast
