import Mathlib.Order.Filter.AtTopBot.Basic
import Recast.Proofs.Inclusion.Includes

/-!
# Verdicts

An inquiry is sustained, given some related referents, if the destination can go on reading the
source from their starts (`Terms.Sustained`). An acceptance that relied on inquiries under way
belongs to a set that is closed but for these (`Terms.Upheld`), and once nothing is relied on any
more, to a closed set, whatever the budget. And inquiries of a set that is closed by rules without
validity are accepted, if the budget allows.
-/

namespace Recast

open Position List Budget Assumptions
open Foothold (positions)

variable {progress : Progress} {inquiry other : Inquiry} {leaping : Prop} {budgets : Filter Budget}
  {plot : Plot} {proper : Token → Prop} {lower : Rules}

namespace Budget

variable {holds : Budget → Prop}

/-- It holds for all large budgets. -/
def ForLarge (holds : Budget → Prop) : Prop :=
  ∃ least, ∀ budget : Budget, least ≤ budget.maxPairs → least ≤ budget.maxDepth → holds budget

def growing : Filter Budget :=
  Filter.comap (fun budget => min budget.maxPairs budget.maxDepth) Filter.atTop

theorem forLarge_iff : ForLarge holds ↔ ∀ᶠ budget in growing, holds budget := by
  have basis :=
    (Filter.atTop_basis (α := Nat)).comap fun budget : Budget => min budget.maxPairs budget.maxDepth
  simp only [growing, basis.eventually_iff, ForLarge, Set.mem_preimage, Set.mem_Ici, true_and,
    Nat.le_min, and_imp]

theorem grows_growing : Grows growing := by
  intro least
  rw [← forLarge_iff]
  exact ⟨least, fun _ enoughPairs enoughDepth => ⟨enoughPairs, enoughDepth⟩⟩

theorem settled_growing : Settled growing := .inr grows_growing

theorem forLarge_const {claim : Prop} : ForLarge (fun _ => claim) ↔ claim := by
  constructor
  · rintro ⟨least, each⟩
    exact each ⟨least, least⟩ le_rfl le_rfl
  · intro holds
    exact ⟨0, fun _ _ _ => holds⟩

end Budget

/-- What is assumed and used, and safety if assumed. -/
def Assumptions.reducedTo (assumed used : Assumptions) : Assumptions where
  alignment := assumed.alignment && used.alignment
  lifetimes := assumed.lifetimes && used.lifetimes
  safety := assumed.safety
  validity := assumed.validity && used.validity

theorem Assumptions.mem_reducedTo {assumed used : Assumptions} {assumption : Assumption} :
    assumption ∈ assumed.reducedTo used ↔
      assumption ∈ assumed ∧ (assumption ∈ used ∨ assumption = .safety) := by
  cases assumption <;> simp [reducedTo, Membership.mem, holds]

theorem eq_ok_of_toOption {ε α : Type} {outcome : Except ε α} {value : α}
    (found : outcome.toOption = some value) : outcome = .ok value := by
  cases outcome with
  | ok => exact congrArg Except.ok (Option.some.inj found)
  | error => cases found

theorem Rules.Coherent.widen {rules wider : Rules} {arena : Arena}
    {goal : Position → Set Position → Prop} (within : rules.Within wider)
    (coherent : rules.Coherent arena leaping goal) : wider.Coherent arena leaping goal where
  nonempty := coherent.nonempty
  mono := coherent.mono
  walks source footing isGoal :=
    (coherent.walks source footing isGoal).mono within subset_rfl fun _ _ => id
  leaps := coherent.leaps

/-- By the rules, the destination can go on reading the source from the starts of the two layouts,
element by element and, when it is leaping, also one run at a time. -/
def Rules.Sustains (rules : Rules) (arena : Arena) (leaping : Prop) (inquiry : Inquiry) : Prop :=
  ∃ goal : Position → Set Position → Prop,
    goal (.root arena inquiry.1) {.root arena inquiry.2} ∧ rules.Coherent arena leaping goal

theorem Rules.Sustains.mono {rules wider : Rules} {arena : Arena} (within : rules.Within wider)
    (sustains : rules.Sustains arena leaping inquiry) :
    wider.Sustains arena leaping inquiry := by
  rcases sustains with ⟨goal, atRoots, coherent⟩
  exact ⟨goal, atRoots, coherent.widen within⟩

namespace Progress

variable {after : Progress}

theorem depth_cons (isUnderWay : after.underWay = inquiry :: progress.underWay)
    (different : other ≠ inquiry) : after.depth? other = progress.depth? other := by
  simp [depth?, isUnderWay, idxOf?, findIdx?_append, different.symm]

theorem depth_lt {depth : Nat} (isDepth : progress.depth? other = some depth) :
    depth < progress.underWay.length := by
  rcases idxOf?_eq_some_iff.mp isDepth with ⟨inside, _⟩
  simpa using inside

/-- An acceptance is put down: as one that still relies on inquiries further out, or as one that is
decided, since it has relied on itself at most. -/
theorem finish_ok (exercised : Assumptions)
    (isUnderWay : after.underWay = inquiry :: progress.underWay) :
    (progress.finish after inquiry (.ok exercised)).decided = after.decided ∧
        (∀ other, after.Relied other → other = inquiry ∨
          (progress.finish after inquiry (.ok exercised)).Relied other) ∨
      (progress.finish after inquiry (.ok exercised)).decided =
        (inquiry, .ok exercised) :: after.decided ∧ ∀ other, after.Relied other →
        other = inquiry := by
  rcases relies : after.reliance with _ | outermost
  · right
    refine ⟨by simp only [finish, relies], ?_⟩
    rintro _ ⟨_, _, _, isOutermost, _⟩
    simp [relies] at isOutermost
  · by_cases further : outermost < progress.underWay.length
    · left
      let outer := { after with underWay := progress.underWay, reliance := progress.reliance }
      have finished : progress.finish after inquiry (.ok exercised) = outer.relyOn outermost := by
        simp only [finish, relies, if_pos further, outer]
      refine ⟨by rw [finished]; rfl, ?_⟩
      rintro other ⟨depth, low, isDepth, isLow, inside⟩
      rw [relies, Option.some.injEq] at isLow
      by_cases same : other = inquiry
      · exact .inl same
      · right
        rw [depth_cons isUnderWay same] at isDepth
        rw [finished]
        refine ⟨depth, _, isDepth, rfl, ?_⟩
        rcases outer.reliance with _ | before <;> simp only <;> omega
    · right
      refine ⟨by simp only [finish, relies, if_neg further], ?_⟩
      rintro other ⟨depth, low, isDepth, isLow, inside⟩
      by_contra different
      rw [depth_cons isUnderWay different] at isDepth
      have below := depth_lt isDepth
      rw [relies, Option.some.injEq] at isLow
      omega

end Progress

namespace Terms

variable {terms : Terms} {related larger spared fewer : Inquiry → Prop}

def rules (terms : Terms) (related : Inquiry → Prop) : Rules where
  assumed := terms.assumed
  outlives := terms.outlives
  related := related

def Sustained (terms : Terms) (leaping : Prop) (related : Inquiry → Prop) (inquiry : Inquiry) :
    Prop :=
  (terms.rules related).Sustains terms.arena leaping inquiry

/-- The terms of a check that makes no assumptions but those that were needed, and that of safety.
-/
def relying (terms : Terms) (used : Assumptions) : Terms :=
  { terms with assumed := terms.assumed.reducedTo used }

/-- A check on the easier terms is the same but for further assumptions. -/
structure Eased (terms easier : Terms) : Prop where
  arena : easier.arena = terms.arena
  outlives : easier.outlives = terms.outlives
  assumed : ∀ assumption ∈ terms.assumed, assumption ∈ easier.assumed

theorem Eased.refl (terms : Terms) : terms.Eased terms := ⟨rfl, rfl, fun _ => id⟩

theorem eased_relying (terms : Terms) (used : Assumptions) : (terms.relying used).Eased terms :=
  ⟨rfl, rfl, fun _ member => (mem_reducedTo.mp member).1⟩

theorem relying_eased {used more : Assumptions} (subset : ∀ assumption ∈ used, assumption ∈ more) :
    (terms.relying used).Eased (terms.relying more) := by
  refine ⟨rfl, rfl, fun assumption member => ?_⟩
  rcases mem_reducedTo.mp member with ⟨isAssumed, isUsed⟩
  exact mem_reducedTo.mpr ⟨isAssumed, isUsed.imp_left (subset assumption)⟩

theorem Sustained.mono (subset : ∀ other, related other → larger other)
    (sustained : terms.Sustained leaping related inquiry) :
    terms.Sustained leaping larger inquiry := by
  have within : (terms.rules related).Within (terms.rules larger) :=
    ⟨fun _ => id, fun _ _ => id, subset⟩
  exact Rules.Sustains.mono within sustained

/-- The inquiry belongs to a set of inquiries each of which is spared or sustained by the set. -/
def Upheld (terms : Terms) (leaping : Prop) (spared : Inquiry → Prop) (inquiry : Inquiry) : Prop :=
  ∃ related : Inquiry → Prop, related inquiry ∧
    ∀ other, related other → spared other ∨ terms.Sustained leaping related other

namespace Upheld

theorem mono (imp : ∀ other, spared other → fewer other)
    (upheld : terms.Upheld leaping spared inquiry) :
    terms.Upheld leaping fewer inquiry := by
  rcases upheld with ⟨related, member, each⟩
  exact ⟨related, member, fun other isOther => (each other isOther).imp_left (imp other)⟩

theorem ease {easier : Terms} (eased : terms.Eased easier)
    (upheld : terms.Upheld leaping spared inquiry) :
    easier.Upheld leaping spared inquiry := by
  rcases upheld with ⟨related, member, each⟩
  have within : (terms.rules related).Within (easier.rules related) :=
    ⟨eased.assumed, fun _ _ lives => by rw [rules, eased.outlives]; exact lives, fun _ => id⟩
  refine ⟨related, member, fun other isOther => (each other isOther).imp_right fun sustained => ?_⟩
  rw [Sustained, eased.arena]
  exact Rules.Sustains.mono within sustained

theorem cases (upheld : terms.Upheld leaping spared inquiry) :
    spared inquiry ∨ terms.Sustained leaping (terms.Upheld leaping spared) inquiry := by
  rcases upheld with ⟨related, member, each⟩
  refine (each inquiry member).imp_right fun sustained => sustained.mono fun _ isOther => ?_
  exact ⟨related, isOther, each⟩

theorem discharge (sustained : terms.Sustained leaping (terms.Upheld leaping spared) inquiry)
    (imp : ∀ other, spared other → other = inquiry ∨ fewer other) :
    terms.Upheld leaping fewer inquiry := by
  let related (other : Inquiry) : Prop := other = inquiry ∨ terms.Upheld leaping spared other
  have byAll {other : Inquiry}
      (isSustained : terms.Sustained leaping (terms.Upheld leaping spared) other) : terms.Sustained
      leaping related other := isSustained.mono fun _ => .inr
  refine ⟨related, .inl rfl, ?_⟩
  rintro other (rfl | upheld)
  · exact .inr (byAll sustained)
  · rcases upheld.cases with isSpared | isSustained
    · rcases imp other isSpared with rfl | isFewer
      · exact .inr (byAll sustained)
      · exact .inl isFewer
    · exact .inr (byAll isSustained)

end Upheld

section Account

variable {after : Progress} {exercised : Assumptions}

/-- The account of verdicts: acceptances are upheld but for what was relied on, with no assumptions
but those that were needed, and what the lower rules relate is not refused, unless for want of
budget. -/
def verdicts (terms : Terms) (budgets : Filter Budget) (leaping : Prop) (lower : Rules) :
    Account where
  Sound progress :=
    (∀ inquiry exercised, progress.decided.lookup inquiry = some (.ok exercised) →
      (terms.relying exercised).Upheld leaping (fun _ => False) inquiry) ∧
    ∀ inquiry diagnostic, progress.decided.lookup inquiry = some (.error diagnostic) →
      ¬ Grows budgets ∨ ¬ lower.related inquiry
  Yes inquiry exercised progress := (terms.relying exercised).Upheld leaping progress.Relied inquiry
  No inquiry _ := ¬ Grows budgets ∨ ¬ lower.related inquiry
  sound_tally _ _ sound := sound
  yes_later _ _ _ _ goesOn upheld := upheld.mono goesOn.relied
  no_later _ _ _ _ refused := refused

/-- The rules are no wider than those of the check, do not assume validity, and sustain what they
relate. -/
structure Bounds (terms : Terms) (leaping : Prop) (lower : Rules) : Prop where
  assumed : ∀ assumption ∈ lower.assumed, assumption ∈ terms.assumed
  strict : .validity ∉ lower.assumed
  outlives : ∀ longer shorter, lower.outlives longer shorter → terms.outlives longer shorter
  sustains : ∀ inquiry, lower.related inquiry → lower.Sustains terms.arena leaping inquiry

theorem Eased.bounds {easier : Terms} (eased : terms.Eased easier)
    (strict : .validity ∉ terms.assumed) :
    easier.Bounds leaping (terms.rules (terms.Upheld leaping fun _ => False)) where
  assumed := eased.assumed
  strict := strict
  outlives _ _ lives := by rw [eased.outlives]; exact lives
  sustains _ upheld := by rw [eased.arena]; exact upheld.cases.resolve_left id

theorem Accepted.sustains {account : Account} {upper : Rules}
    (charts : terms.arena.Charts plot proper)
    (accepted : terms.Accepted account plot leaping (terms.roots inquiry) exercised progress)
    (isUpper : terms.Upper account exercised progress upper) :
    upper.Sustains terms.arena leaping inquiry := by
  rcases accepted upper isUpper with ⟨_, atRoots, surveyed⟩
  rw [positions_roots] at atRoots
  rcases surveyed.exists_coherent charts with ⟨larger, subset, coherent⟩
  exact ⟨larger, subset _ _ atRoots, coherent⟩

theorem Accepted.sustained (charts : terms.arena.Charts plot proper)
    (accepted : terms.Accepted (terms.verdicts budgets leaping lower) plot leaping
      (terms.roots inquiry) exercised progress) :
    (terms.relying exercised).Sustained leaping
      ((terms.relying exercised).Upheld leaping progress.Relied) inquiry := by
  apply accepted.sustains charts
  refine ⟨fun _ isUsed isAssumed => ?_, fun isSafe => ?_, fun _ _ => id, ?_⟩
  · exact mem_reducedTo.mpr ⟨isAssumed, .inl isUsed⟩
  · exact mem_reducedTo.mpr ⟨isSafe, .inr rfl⟩
  · exact fun _ _ subset upheld => upheld.ease (relying_eased subset)

theorem lookup_cons_eq_some {decided : List (Inquiry × Outcome)} {outcome found : Outcome}
    (isFound : lookup other ((inquiry, outcome) :: decided) = some found) :
    other = inquiry ∧ outcome = found ∨ decided.lookup other = some found := by
  rw [lookup_cons] at isFound
  split at isFound
  · rename_i same
    exact .inl ⟨by simpa using same, Option.some.inj isFound⟩
  · exact .inr isFound

theorem verdicts_lawful (charts : terms.arena.Charts plot proper)
    (bounds : terms.Bounds leaping lower) :
    (terms.verdicts budgets leaping lower).Lawful terms plot budgets leaping where
  short notGrows _ _ := .inl notGrows
  decidedYes progress inquiry exercised sound decided :=
    (sound.1 inquiry exercised decided).mono fun _ no => no.elim
  decidedNo progress inquiry diagnostic sound decided := sound.2 inquiry diagnostic decided
  relied progress inquiry depth sound isDepth :=
    ⟨sound, _, Progress.relied_relyOn isDepth, fun _ => .inl⟩
  begun progress inquiry sound := sound
  accepted progress after inquiry exercised sound afterSound isUnderWay fresh accepted := by
    have sustained := accepted.sustained charts
    rcases Progress.finish_ok exercised isUnderWay with ⟨same, imp⟩ | ⟨decided, imp⟩
    · refine ⟨⟨fun other used found => ?_, fun other diagnostic found => ?_⟩,
        .discharge sustained imp⟩
      · exact afterSound.1 other used (same ▸ found)
      · exact afterSound.2 other diagnostic (same ▸ found)
    · have upheld : (terms.relying exercised).Upheld leaping (fun _ => False) inquiry :=
        .discharge sustained fun other relied => .inl (imp other relied)
      refine ⟨⟨fun other used found => ?_, fun other diagnostic found => ?_⟩,
        upheld.mono fun _ no => no.elim⟩
      · rcases lookup_cons_eq_some (decided ▸ found) with ⟨rfl, same⟩ | before
        · rw [← Except.ok.inj same]
          exact upheld
        · exact afterSound.1 other used before
      · rcases lookup_cons_eq_some (decided ▸ found) with ⟨_, no⟩ | before
        · cases no
        · exact afterSound.2 other diagnostic before
  refused progress after inquiry diagnostic sound afterSound refused := by
    have isNo : ¬ Grows budgets ∨ ¬ lower.related inquiry := by
      by_cases grows : Grows budgets
      · right
        intro related
        rcases bounds.sustains inquiry related with ⟨goal, atRoots, coherent⟩
        refine (refused.resolve_left (not_not.mpr grows)) lower goal
          ⟨bounds.assumed, bounds.strict, bounds.outlives, ?_⟩ coherent
          (by rw [positions_roots]; exact atRoots)
        intro _ isRelated no
        exact no.elim (fun notGrows => notGrows grows) fun unrelated => unrelated isRelated
      · exact .inl grows
    refine ⟨⟨fun other used found => ?_, fun other reason found => ?_⟩, isNo⟩
    · rcases lookup_cons_eq_some found with ⟨_, no⟩ | before
      · cases no
      · exact afterSound.1 other used before
    · rcases lookup_cons_eq_some found with ⟨rfl, _⟩ | before
      · exact isNo
      · exact afterSound.2 other reason before

end Account

section Check

variable {step : Nested → Pairing → Check Onward}

/-- Between checks nothing is under way, and what is decided is in keeping with the verdicts. -/
def Between (terms : Terms) (budgets : Filter Budget) (leaping : Prop) (lower : Rules)
    (progress : Progress) : Prop :=
  ((terms.verdicts budgets leaping lower).amid []).Sound progress

theorem between_start : terms.Between budgets leaping lower {} :=
  ⟨rfl, fun _ _ found => by simp at found, fun _ _ found => by simp at found⟩

theorem not_relied (none : progress.underWay = []) (inquiry : Inquiry) :
    ¬ progress.Relied inquiry := by
  rintro ⟨_, _, isDepth, _⟩
  simpa [none] using Progress.depth_lt isDepth

theorem check_eq_checkBy (terms : Terms) (budget : Budget) :
    { terms with budget }.check = { terms with budget }.checkBy terms.step := by
  funext source destination progress
  rw [check, step_budget]

/-- What a check accepts is upheld with the assumptions that were needed, and it refuses nothing
that the lower rules relate, unless it runs out of budget. -/
theorem checkBy_verdict (steps : terms.Steps budgets plot leaping step)
    (charts : terms.arena.Charts plot proper) (settled : Settled budgets)
    (bounds : terms.Bounds leaping lower) (inside : terms.Inside inquiry)
    (between : terms.Between budgets leaping lower progress) :
    ∃ outcome later,
      (∀ᶠ budget in budgets, { terms with budget }.checkBy step inquiry.1 inquiry.2 progress =
        (outcome, later)) ∧
      terms.Between budgets leaping lower later ∧
      match outcome with
      | .ok exercised => (terms.relying exercised).Upheld leaping (fun _ => False) inquiry
      | .error _ => ¬ Grows budgets ∨ ¬ lower.related inquiry := by
  have lawful : (terms.verdicts budgets leaping lower).Lawful terms plot budgets leaping :=
    verdicts_lawful charts bounds
  have enough (grows : Grows budgets) (least : Nat) :
      ∀ᶠ budget in budgets, least ≤ budget.maxDepth := (grows least).mono fun _ => And.right
  have answers := answers_includesBy lawful steps charts settled enough nodup_nil
    (fun _ member => by simp at member) (Nat.lt_succ_self _)
  rcases answers inquiry.1 inquiry.2 progress inside.1 inside.2 between with
    ⟨⟨exercised, later⟩ | ⟨diagnostic, later⟩, eventually, goesOn, sound, holds⟩
  · refine ⟨.ok exercised, later, ?_, sound, ?_⟩
    · filter_upwards [eventually] with budget isResult
      rw [checkBy, isResult]
    · exact Upheld.mono (fun other relied => not_relied sound.1 other relied) holds
  · refine ⟨.error diagnostic, later, ?_, sound, holds⟩
    filter_upwards [eventually] with budget isResult
    rw [checkBy, isResult]

section

variable (steps : terms.Steps growing plot leaping step) (charts : terms.arena.Charts plot proper)
include steps charts

theorem checkBy_accepts (bounds : terms.Bounds leaping lower) (inside : terms.Inside inquiry)
    (isRelated : lower.related inquiry) :
    ∃ exercised, ForLarge fun budget =>
      ({ terms with budget }.checkBy step inquiry.1 inquiry.2 {}).1 = .ok exercised := by
  rcases checkBy_verdict steps charts settled_growing bounds inside between_start with
    ⟨⟨_⟩ | ⟨exercised⟩, _, eventually, _, verdict⟩
  · exact absurd isRelated (verdict.resolve_left (not_not.mpr grows_growing))
  · refine ⟨exercised, forLarge_iff.mpr ?_⟩
    filter_upwards [eventually] with budget isResult
    rw [isResult]

theorem isOk_checkBy_iff (strict : .validity ∉ terms.assumed) (inside : terms.Inside inquiry)
    (between : terms.Between growing leaping (terms.rules (terms.Upheld leaping fun _ => False))
      progress) :
    ∀ᶠ budget in growing,
      (({ terms with budget }.checkBy step inquiry.1 inquiry.2 progress).1.isOk ↔
        terms.Upheld leaping (fun _ => False) inquiry) := by
  rcases checkBy_verdict steps charts settled_growing ((Eased.refl terms).bounds strict) inside
    between with
    ⟨outcome, _, isOutcome, _, verdict⟩
  filter_upwards [isOutcome] with budget sameOutcome
  rw [sameOutcome]
  cases outcome with
  | ok exercised => exact ⟨fun _ => verdict.ease (terms.eased_relying exercised), fun _ => rfl⟩
  | error =>
    have isNot := verdict.resolve_left (not_not.mpr grows_growing)
    refine ⟨fun isOk => ?_, fun upheld => absurd upheld isNot⟩
    simp [Except.isOk, Except.toBool] at isOk

end

/-- The progress after some checks in turn. -/
def after (terms : Terms) : List Inquiry → Progress → Progress
  | [], progress => progress
  | inquiry :: rest, progress => terms.after rest (terms.check inquiry.1 inquiry.2 progress).2

theorem between_after (charts : terms.arena.Plotted plot) (settled : Settled budgets)
    (bounds : terms.Bounds True lower) {earlier : List Inquiry}
    (inside : ∀ inquiry ∈ earlier, terms.Inside inquiry)
    (between : terms.Between budgets True lower progress) :
    ∃ later, (∀ᶠ budget in budgets, { terms with budget }.after earlier progress = later) ∧
      terms.Between budgets True lower later := by
  induction earlier generalizing progress with
  | nil => exact ⟨progress, .of_forall fun _ => rfl, between⟩
  | cons inquiry _ ih =>
    rcases checkBy_verdict (steps_step budgets charts) charts settled bounds
      (inside inquiry mem_cons_self) between with ⟨_, _, eventually, laterBetween, _⟩
    rcases ih (fun other member => inside other (mem_cons_of_mem _ member)) laterBetween with
      ⟨last, onward, lastBetween⟩
    refine ⟨last, ?_, lastBetween⟩
    filter_upwards [eventually, onward] with budget isResult isLast
    simp only [after, check_eq_checkBy, isResult]
    exact isLast

end Check

end Terms

end Recast
