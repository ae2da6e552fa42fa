import Mathlib.Order.Filter.Map
import Recast.Proofs.Inclusion.Agenda

/-!
# Surveys

At any time, each pairing that a survey knows is still to be looked at, or its demands are known as
well (`Terms.Surveying`). At the end, the pairings go on as those of a survey do (`Terms.Accepted`).
A survey fails only where coherent pairings of the lower rules do not have the two starts
(`Terms.Refused`), or for want of budget. With ever larger budgets it gets to the end at last, since
there are only so many pairings.
-/

namespace Recast

open Position List Check Budget
open Foothold (positions)

variable {account : Account} {budgets : Filter Budget} {progress : Progress} {agenda : Agenda}

def Budget.Grows (budgets : Filter Budget) : Prop :=
  ∀ least, ∀ᶠ budget in budgets, least ≤ budget.maxPairs ∧ least ≤ budget.maxDepth

def Budget.Settled (budgets : Filter Budget) : Prop :=
  (∃ budget, budgets = pure budget) ∨ Grows budgets

theorem Check.Ensures.congr {α : Type} {step other : Budget → Check α} {post : α → Progress → Prop}
    {failed : Progress → Prop}
    (same : ∀ᶠ budget in budgets, step budget progress = other budget progress)
    (ensures : Ensures account budgets other progress post failed) :
    Ensures account budgets step progress post failed := by
  rcases ensures with ⟨result, eventually, outcome⟩
  refine ⟨result, ?_, outcome⟩
  filter_upwards [same, eventually] with budget isSame isResult
  rw [isSame, isResult]

namespace Terms

variable {terms : Terms} {plot : Plot} {proper : Token → Prop} {later : Progress}
  {pairing start : Pairing} {onward : Onward} {exercised : Assumptions}
  {known pending rest more : List Pairing} {leaping : Prop}

theorem Demanded.stays (goesOn : progress.Later later)
    (demanded : terms.Demanded account plot leaping pairing onward progress) :
    terms.Demanded account plot leaping pairing onward later where
  valid := demanded.valid
  leaps := demanded.leaps
  walks upper isUpper := demanded.walks upper (isUpper.earlier goesOn fun _ => id)
  met lower goal isLower := demanded.met lower goal (isLower.earlier goesOn)

structure Surveying (terms : Terms) (account : Account) (plot : Plot) (leaping : Prop)
    (start : Pairing) (known pending : List Pairing) (exercised : Assumptions)
      (progress : Progress) :
    Prop where
  begun : start ∈ known
  valid : ∀ pairing ∈ known, pairing.Valid terms.arena plot
  waits : ∀ pairing ∈ pending, pairing ∈ known
  done : ∀ pairing ∈ known, pairing ∈ pending ∨ ∃ onward : Onward,
    (∀ assumption ∈ onward.exercised, assumption ∈ exercised) ∧
      terms.Demanded account plot leaping pairing onward progress ∧ ∀ entry ∈ onward.next,
      entry.2 ∈ known
  met : ∀ lower goal, terms.Lower account progress lower → lower.Coherent terms.arena leaping goal →
    goal start.source (positions start.footholds) →
    ∀ pairing ∈ known, goal pairing.source (positions pairing.footholds)

def Accepted (terms : Terms) (account : Account) (plot : Plot) (leaping : Prop) (start : Pairing)
    (exercised : Assumptions) (progress : Progress) : Prop :=
  ∀ upper, terms.Upper account exercised progress upper →
    ∃ goal, goal start.source (positions start.footholds) ∧
      upper.Surveyed terms.arena plot leaping goal

def Refused (terms : Terms) (account : Account) (leaping : Prop) (start : Pairing)
    (progress : Progress) : Prop :=
  ∀ lower goal, terms.Lower account progress lower → lower.Coherent terms.arena leaping goal →
    ¬ goal start.source (positions start.footholds)

namespace Surveying

theorem stays (goesOn : progress.Later later)
    (surveying : terms.Surveying account plot leaping start known pending exercised progress) :
    terms.Surveying account plot leaping start known pending exercised later where
  begun := surveying.begun
  valid := surveying.valid
  waits := surveying.waits
  done pairing member := by
    refine (surveying.done pairing member).imp_right ?_
    rintro ⟨onward, used, demanded, next⟩
    exact ⟨onward, used, demanded.stays goesOn, next⟩
  met lower goal isLower := surveying.met lower goal (isLower.earlier goesOn)

theorem step
    (surveying : terms.Surveying account plot leaping start known (pairing :: rest) exercised
      progress)
    (demanded : terms.Demanded account plot leaping pairing onward progress)
    (isPending : ∀ other, other ∈ pending ↔ other ∈ more ∨ other ∈ rest)
    (fromNext : ∀ other ∈ more, ∃ entry ∈ onward.next, entry.2 = other)
    (isKnown : ∀ entry ∈ onward.next, entry.2 ∈ more ++ known) :
    terms.Surveying account plot leaping start (more ++ known) pending
      (exercised ∪ onward.exercised) progress where
  begun := mem_append_right _ surveying.begun
  valid other isOther := by
    rcases mem_append.mp isOther with isMore | before
    · rcases fromNext other isMore with ⟨entry, isNext, rfl⟩
      exact demanded.valid entry isNext
    · exact surveying.valid other before
  waits other isWaiting := by
    rcases (isPending other).mp isWaiting with isMore | inRest
    · exact mem_append_left _ isMore
    · exact mem_append_right _ (surveying.waits other (mem_cons_of_mem _ inRest))
  done other isOther := by
    rcases mem_append.mp isOther with isMore | before
    · exact .inl ((isPending other).mpr (.inl isMore))
    · rcases surveying.done other before with waits | ⟨earlier, used, isDemanded, next⟩
      · rcases mem_cons.mp waits with rfl | inRest
        · exact .inr ⟨onward, fun _ used => Assumptions.mem_union.mpr (.inr used), demanded,
            isKnown⟩
        · exact .inl ((isPending other).mpr (.inr inRest))
      · exact .inr ⟨earlier, fun _ isUsed => Assumptions.mem_union.mpr (.inl (used _ isUsed)),
          isDemanded, fun entry isNext => mem_append_right _ (next entry isNext)⟩
  met lower goal isLower coherent atStart other isOther := by
    have before := surveying.met lower goal isLower coherent atStart
    have member := surveying.waits pairing mem_cons_self
    rcases mem_append.mp isOther with isMore | isBefore
    · rcases fromNext other isMore with ⟨entry, isNext, rfl⟩
      exact demanded.met lower goal isLower coherent (before pairing member) entry isNext
    · exact before other isBefore

theorem accepted
    (surveying : terms.Surveying account plot leaping start known [] exercised progress) :
    terms.Accepted account plot leaping start exercised progress := by
  intro upper isUpper
  let goal (source : Position) (footing : Set Position) : Prop :=
    ∃ pairing ∈ known, pairing.source = source ∧ positions pairing.footholds = footing
  -- What a known pairing demands is known.
  have demands (pairing : Pairing) (member : pairing ∈ known) : ∃ onward : Onward,
      terms.Upper account onward.exercised progress upper ∧
        terms.Demanded account plot leaping pairing onward progress ∧
        ∀ source footing, onward.goal source footing → goal source footing := by
    rcases surveying.done pairing member with waits | ⟨onward, used, demanded, next⟩
    · simp at waits
    · refine ⟨onward, isUpper.earlier (.refl progress) used, demanded, ?_⟩
      rintro _ _ ⟨entry, isNext, isSource, isFooting⟩
      exact ⟨entry.2, next entry isNext, isSource, isFooting⟩
  refine ⟨goal, ⟨start, surveying.begun, rfl, rfl⟩, ?_, ?_, ?_, ?_, ?_⟩
  · rintro _ _ ⟨pairing, member, rfl, rfl⟩
    exact (surveying.valid pairing member).source
  · rintro _ _ ⟨pairing, member, rfl, rfl⟩
    exact (surveying.valid pairing member).located
  · rintro _ _ ⟨pairing, member, rfl, rfl⟩
    exact (surveying.valid pairing member).nonempty
  · rintro isLeaping _ destination first second ⟨pairing, member, rfl, isFooting⟩ matched
    rcases demands pairing member with ⟨_, _, demanded, inside⟩
    rcases demanded.leaps isLeaping destination first second isFooting matched with ⟨element, rest⟩
    exact ⟨inside _ _ element, inside _ _ rest⟩
  · rintro _ _ ⟨pairing, member, rfl, rfl⟩ notMatched
    rcases demands pairing member with ⟨_, upperOnward, demanded, inside⟩
    have walks := demanded.walks upper upperOnward notMatched
    exact walks.mono ⟨fun _ => id, fun _ _ => id, fun _ => id⟩ subset_rfl inside

end Surveying

section Loop

variable {step : Pairing → Check Onward} {filled : Agenda} {offset left : Nat}

def look (step : Pairing → Check Onward) (survey : Agenda → Assumptions → Check Assumptions)
    (offset : Nat) (pairing : Pairing) (rest : Agenda) (exercised : Assumptions) :
    Check Assumptions :=
  count (fun tally => { tally with pairs := tally.pairs + 1 }) >>= fun _ =>
    attempt (step pairing) >>= fun
      | .error diagnostic => throw (diagnostic.shift offset)
      | .ok onward =>
        count (fun tally =>
          { tally with repeats := tally.repeats + (rest.addAll offset onward.next).2 }) >>= fun _ =>
          survey (rest.addAll offset onward.next).1 (exercised ∪ onward.exercised)

theorem surveyFrom_of_next (found : agenda.next? = some ((offset, pairing), filled))
    (room : progress.tally.pairs < terms.budget.maxPairs) (positive : left ≠ 0) :
    terms.surveyFrom step left agenda exercised progress =
      look step (terms.surveyFrom step (left - 1)) offset pairing filled exercised progress := by
  rcases Nat.exists_eq_succ_of_ne_zero positive with ⟨_, rfl⟩
  rw [surveyFrom]
  simp only [found]
  have isFree := Nat.not_le.mpr room
  rw [get_bind, if_neg isFree]
  rfl

theorem surveyFrom_stops (found : agenda.next? = some ((offset, pairing), filled))
    (full : left = 0 ∨ terms.budget.maxPairs ≤ progress.tally.pairs) :
    terms.surveyFrom step left agenda exercised progress =
      .error ⟨offset, .budget terms.budget.maxPairs⟩ progress := by
  cases left with
  | zero =>
    rw [surveyFrom]
    simp only [found]
    rfl
  | succ =>
    have isFull : terms.budget.maxPairs ≤ progress.tally.pairs := by simpa using full
    rw [surveyFrom]
    simp only [found]
    rw [get_bind, if_pos isFull]
    rfl

end Loop

section Ensures

variable {step : Budget → Pairing → Check Onward} {limit : Nat}

def Evaluates (terms : Terms) (account : Account) (budgets : Filter Budget) (plot : Plot)
    (leaping : Prop) (step : Budget → Pairing → Check Onward) : Prop :=
  ∀ pairing progress, pairing.Valid terms.arena plot → account.Sound progress →
    Ensures account budgets (fun budget => step budget pairing) progress
      (terms.Demanded account plot leaping pairing)
      (fun later => ∀ lower goal, terms.Lower account later lower →
        ¬ lower.Walks terms.arena goal pairing.source (positions pairing.footholds))

theorem room_or_full (settled : Settled budgets) {left : Budget → Nat}
    (enough : Grows budgets → ∀ least, ∀ᶠ budget in budgets, least ≤ left budget) (pairs : Nat) :
    (∀ᶠ budget in budgets, pairs < budget.maxPairs ∧ left budget ≠ 0) ∨
      ∃ budget, budgets = pure budget ∧ (left budget = 0 ∨ budget.maxPairs ≤ pairs) := by
  rcases settled with ⟨budget, rfl⟩ | grows
  · by_cases full : left budget = 0 ∨ budget.maxPairs ≤ pairs
    · exact .inr ⟨budget, rfl, full⟩
    · rw [not_or, Nat.not_le] at full
      left
      rw [Filter.eventually_pure]
      exact full.symm
  · left
    filter_upwards [grows (pairs + 1), enough grows 1] with budget large some
    omega

theorem ensures_surveyFrom (settled : Settled budgets)
    (evaluates : terms.Evaluates account budgets plot leaping step)
    (limited : Pairing.Limited terms.arena plot limit) {left : Budget → Nat} {rounds : Nat}
    (enough : Grows budgets → ∀ least, ∀ᶠ budget in budgets, least ≤ left budget)
    (keeps : agenda.Keeps known)
    (surveying : terms.Surveying account plot leaping start known (Agenda.pending agenda.queue)
      exercised
      progress) (measure : limit - known.length + (Agenda.pending agenda.queue).length < rounds)
    (sound : account.Sound progress) :
    Ensures account budgets
      (fun budget => { terms with budget }.surveyFrom (step budget) (left budget) agenda exercised)
      progress (terms.Accepted account plot leaping start)
      (fun later => ¬ Grows budgets ∨ terms.Refused account leaping start later) := by
  -- Pairings that become known are pending too, and the one looked at no longer is.
  induction rounds generalizing agenda known exercised progress left with
  | zero => omega
  | succ rounds ih =>
    rcases found : agenda.next? with _ | ⟨⟨offset, pairing⟩, filled⟩
    · have none := Agenda.next_eq_none found
      rw [none] at surveying
      have ends : ∀ᶠ budget in budgets,
          { terms with budget }.surveyFrom (step budget) (left budget) agenda exercised progress =
            (pure exercised : Check Assumptions) progress := by
        refine .of_forall fun budget => ?_
        rw [surveyFrom.eq_def]
        simp only [found]
      exact .congr ends (ensures_pure sound surveying.accepted)
    · rcases Agenda.next_eq_some found with ⟨isPending, sameSeen⟩
      rw [isPending] at surveying measure
      have member := surveying.waits pairing mem_cons_self
      have keepsFilled : filled.Keeps known := ⟨sameSeen ▸ keeps.seen, keeps.distinct⟩
      rcases room_or_full settled enough progress.tally.pairs with room | ⟨budget, rfl, full⟩
      · have looks : ∀ᶠ budget in budgets,
            { terms with budget }.surveyFrom (step budget) (left budget) agenda exercised progress =
              look (step budget) ({ terms with budget }.surveyFrom (step budget) (left budget - 1))
                offset
                pairing filled exercised progress := by
          filter_upwards [room] with budget ⟨free, positive⟩
          exact surveyFrom_of_next found free positive
        refine .congr looks ?_
        simp only [look]
        refine (ensures_count sound).bind ?_ fun _ _ fails => fails
        intro _ counted goesOn countedSound _
        have valid := surveying.valid pairing member
        refine (evaluates pairing counted valid countedSound).attempt_bind ?_ ?_
        · intro onward later goesOnLater laterSound demanded
          refine (ensures_count laterSound).bind ?_ fun _ _ fails => fails
          intro _ last goesOnLast lastSound _
          rcases keepsFilled.addAll with ⟨more, keepsMore, isPermuted, fromNext, isKnown⟩
          have surveyed := ((surveying.stays goesOn).stays goesOnLater).stays goesOnLast
          have goesFurther := surveyed.step (demanded.stays goesOnLast)
            (fun _ => isPermuted.mem_iff.trans mem_append) fromNext isKnown
          refine ih ?_ keepsMore goesFurther ?_ lastSound
          · intro grows least
            filter_upwards [enough grows (least + 1)] with budget large
            omega
          · have few := limited _ keepsMore.distinct goesFurther.valid
            have fewer := isPermuted.length_eq
            simp only [length_append, length_cons] at few fewer measure ⊢
            omega
        · intro _ _ goesOnLater laterSound fails
          refine ensures_throw laterSound (.inr fun lower goal isLower coherent atStart => ?_)
          have surveyed := (surveying.stays goesOn).stays goesOnLater
          have isGoal := surveyed.met lower goal isLower coherent atStart pairing member
          exact fails lower goal isLower (coherent.walks _ _ isGoal)
      · have stops : ∀ᶠ other in pure budget,
            { terms with budget := other }.surveyFrom (step other) (left other) agenda exercised
              progress = .error ⟨offset, .budget budget.maxPairs⟩ progress := by
          rw [Filter.eventually_pure]
          exact surveyFrom_stops found full
        refine ⟨_, stops, .refl progress, sound, .inl fun grows => ?_⟩
        have large := grows (budget.maxPairs + 1)
        rw [Filter.eventually_pure] at large
        omega

def roots (terms : Terms) (inquiry : Inquiry) : Pairing :=
  ⟨.root terms.arena inquiry.1, [⟨.root terms.arena inquiry.2, false⟩]⟩

theorem positions_roots (inquiry : Inquiry) :
    positions (terms.roots inquiry).footholds = {.root terms.arena inquiry.2} :=
  Foothold.positions_singleton _

theorem keeps_ofRoots (inquiry : Inquiry) :
    (Agenda.ofRoots terms.arena inquiry.1 inquiry.2).Keeps [terms.roots inquiry] where
  seen pairing := by
    have isSeen : (Agenda.ofRoots terms.arena inquiry.1 inquiry.2).seen =
        (∅ : Std.TreeSet (List (List Nat))).insert (terms.roots inquiry).key := rfl
    rw [isSeen, Std.TreeSet.contains_insert, Std.TreeSet.contains_emptyc, Bool.or_false, beq_iff_eq,
      Std.LawfulEqCmp.compare_eq_iff_eq, mem_singleton]
    exact ⟨fun same => (Pairing.key_injective same).symm, fun same => same ▸ rfl⟩
  distinct := nodup_singleton _

/-- Both layouts are in the arena. -/
def Inside (terms : Terms) (inquiry : Inquiry) : Prop :=
  inquiry.1.index < terms.arena.layouts.size ∧ inquiry.2.index < terms.arena.layouts.size

instance (terms : Terms) (inquiry : Inquiry) : Decidable (terms.Inside inquiry) :=
  inferInstanceAs (Decidable (_ ∧ _))

section

variable (charts : terms.arena.Charts plot proper) {inquiry : Inquiry}
  (inside : terms.Inside inquiry)
include charts inside

theorem valid_roots : (terms.roots inquiry).Valid terms.arena plot := by
  refine ⟨⟨_, within_root charts inside.1⟩, ?_, ?_, by simp [roots]⟩
  · rw [positions_roots]
    rintro _ rfl
    exact ⟨_, within_root charts inside.2⟩
  · rw [positions_roots]
    exact Set.singleton_nonempty _

theorem surveying_roots :
    terms.Surveying account plot leaping (terms.roots inquiry) [terms.roots inquiry]
      [terms.roots inquiry] ∅ progress where
  begun := mem_singleton_self _
  valid := forall_mem_singleton.mpr (valid_roots charts inside)
  waits _ member := member
  done _ member := .inl member
  met _ _ _ _ atStart pairing member := by
    rw [mem_singleton] at member
    exact member ▸ atStart

theorem ensures_survey (settled : Settled budgets)
    (evaluates : terms.Evaluates account budgets plot leaping step)
    (sound : account.Sound progress) :
    Ensures account budgets
      (fun budget => { terms with budget }.survey (step budget) inquiry.1 inquiry.2) progress
      (terms.Accepted account plot leaping (terms.roots inquiry))
      (fun later => ¬ Grows budgets ∨
        terms.Refused account leaping (terms.roots inquiry) later) := by
  rcases Pairing.exists_limit charts with ⟨limit, limited⟩
  have begins : ∀ᶠ budget in budgets, { terms with budget }.survey (step budget) inquiry.1 inquiry.2
      progress =
        { terms with budget }.surveyFrom (step budget) (budget.maxPairs - progress.tally.pairs)
          (.ofRoots terms.arena inquiry.1 inquiry.2) ∅ progress :=
    .of_forall fun budget => rfl
  refine .congr begins (ensures_surveyFrom settled evaluates limited ?_ (keeps_ofRoots inquiry)
    (surveying_roots charts inside) (Nat.lt_succ_self _) sound)
  intro grows least
  filter_upwards [grows (least + progress.tally.pairs)] with budget large
  omega

end

end Ensures

end Terms

end Recast
