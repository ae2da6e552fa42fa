import Recast.Proofs.Inclusion.Parallel

/-!
# Surveys of corresponding layouts

Where the layouts of two surveys correspond, so do the agendas, pairing by pairing and in the same
order. With one budget and the same progress, the two surveys are the same
(`Terms.survey_eq_survey`). With ever larger budgets they come to the same outcome, whatever ties
their progress (`Terms.parallel_survey`).
-/

namespace Recast

open Position List Agenda Check

variable {second : Arena} {referents : LayoutId → LayoutId → Prop}
  {pairing pairingToo otherToo : Pairing} {agenda agendaToo : Agenda}
  {step stepToo : Budget → Pairing → Check Onward} {left leftToo right rightToo : LayoutId}

namespace Correspondence

variable {first : Arena} (source destination : Correspondence first second referents)

section Agendas

structure Buckets (bucket image : Bucket) : Prop where
  offset : bucket.offset = image.offset
  front : Forall₂ (Pairings source destination) bucket.front image.front
  back : Forall₂ (Pairings source destination) bucket.back image.back

/-- Corresponding pairings are on the agenda, in the same order, and were put down alike. -/
structure Agendas (agenda image : Agenda) : Prop where
  queue : Forall₂ (Buckets source destination) agenda.queue image.queue
  seen : ∀ pairing pairingToo, Pairings source destination pairing pairingToo →
    agenda.seen.contains pairing.key = image.seen.contains pairingToo.key

variable {source destination} {queue queueToo : List Bucket}

section

variable {other : Pairing} (same : Pairings source destination pairing pairingToo)
  (sameToo : Pairings source destination other otherToo)
include same sameToo

theorem Pairings.eq_iff : pairing = other ↔ pairingToo = otherToo := by
  have sources := source.eq_iff same.source.positions sameToo.source.positions
  have footholds := eq_iff_of_forall₂ (fun left right image other footing footingToo => ?_)
    same.footholds sameToo.footholds
  · rcases pairing with ⟨_, footholds⟩
    rcases pairingToo with ⟨_, _⟩
    rcases other with ⟨_, _⟩
    rcases otherToo with ⟨_, _⟩
    rw [Pairing.mk.injEq, Pairing.mk.injEq]
    exact and_congr sources footholds
  · have positions := destination.eq_iff footing.tracks.positions footingToo.tracks.positions
    have guards := footing.guarded
    have guardsToo := footingToo.guarded
    rcases left with ⟨_, _⟩
    rcases right with ⟨_, _⟩
    rcases image with ⟨_, _⟩
    rcases other with ⟨_, _⟩
    simp only at positions guards guardsToo
    simp only [Foothold.mk.injEq, positions, guards, guardsToo]

theorem Pairings.compare_eq :
    (compare pairing.key other.key == .eq) = (compare pairingToo.key otherToo.key == .eq) := by
  have keys (left right : Pairing) : compare left.key right.key = .eq ↔ left = right := by
    rw [Std.LawfulEqCmp.compare_eq_iff_eq]
    exact ⟨Pairing.key_injective, congrArg Pairing.key⟩
  rw [Bool.eq_iff_iff, beq_iff_eq, beq_iff_eq, keys, keys]
  exact same.eq_iff sameToo

end

theorem buckets_insert (offset : Nat) (same : Pairings source destination pairing pairingToo)
    (each : Forall₂ (Buckets source destination) queue queueToo) :
    Forall₂ (Buckets source destination) (Agenda.insert offset pairing queue)
      (Agenda.insert offset pairingToo queueToo) := by
  have own : Buckets source destination { offset, front := [pairing] }
      { offset, front := [pairingToo] } :=
    ⟨rfl, .cons same .nil, .nil⟩
  induction each with
  | nil => exact .cons own .nil
  | cons head rest ih =>
    rw [Agenda.insert, Agenda.insert]
    simp only [head.offset]
    split
    · exact .cons own (.cons head rest)
    · split
      · exact .cons ⟨rfl, head.front, .cons same head.back⟩ rest
      · exact .cons head ih

theorem buckets_pop? (each : Forall₂ (Buckets source destination) queue queueToo) :
    Option.Rel (fun popped poppedToo => popped.1.1 = poppedToo.1.1 ∧
        Pairings source destination popped.1.2 poppedToo.1.2 ∧
        Forall₂ (Buckets source destination) popped.2 poppedToo.2)
      (pop? queue) (pop? queueToo) := by
  induction each with
  | nil => exact .none
  | @cons bucket bucketToo _ _ head rest ih =>
    rcases bucket with ⟨_, _, back⟩
    rcases bucketToo with ⟨_, _, backToo⟩
    rcases head with ⟨sameOffset, sameFront, sameBack⟩
    simp only at sameOffset sameFront sameBack
    subst sameOffset
    cases sameFront with
    | cons same others => exact .some ⟨rfl, same, .cons ⟨rfl, others, sameBack⟩ rest⟩
    | nil =>
      have turned := rel_reverse sameBack
      rw [pop?, pop?]
      generalize back.reverse = backwards at turned
      generalize backToo.reverse = backwardsToo at turned
      cases turned with
      | nil => exact ih
      | cons same others => exact .some ⟨rfl, same, .cons ⟨rfl, others, .nil⟩ rest⟩

section

variable (same : Agendas source destination agenda agendaToo)
include same

theorem Agendas.next? :
    Option.Rel (fun found foundToo => found.1.1 = foundToo.1.1 ∧
        Pairings source destination found.1.2 foundToo.1.2 ∧
        Agendas source destination found.2 foundToo.2)
      agenda.next? agendaToo.next? := by
  have popped := buckets_pop? same.queue
  rw [Agenda.next?, Agenda.next?]
  generalize Agenda.pop? agenda.queue = found at popped
  generalize Agenda.pop? agendaToo.queue = foundToo at popped
  cases popped with
  | none => exact .none
  | some sameFound => exact .some ⟨sameFound.1, sameFound.2.1, sameFound.2.2, same.seen⟩

theorem Agendas.add? (offset : Nat) (samePairing : Pairings source destination pairing pairingToo) :
    Option.Rel (Agendas source destination) (agenda.add? offset pairing)
      (agendaToo.add? offset pairingToo) := by
  simp only [Agenda.add?, same.seen _ _ samePairing]
  split
  · exact .none
  · refine .some ⟨buckets_insert offset samePairing same.queue, fun _ _ sameOther => ?_⟩
    rw [Std.TreeSet.contains_insert, Std.TreeSet.contains_insert, same.seen _ _ sameOther,
      samePairing.compare_eq sameOther]

theorem Agendas.addAll {demands demandsToo : List (Nat × Pairing)} (offset : Nat)
    (each : Forall₂ (fun demand demandToo => demand.1 = demandToo.1 ∧
      Pairings source destination demand.2 demandToo.2) demands demandsToo) :
    Agendas source destination (agenda.addAll offset demands).1
      (agendaToo.addAll offset demandsToo).1 ∧
      (agenda.addAll offset demands).2 = (agendaToo.addAll offset demandsToo).2 := by
  induction each generalizing agenda agendaToo with
  | nil => exact ⟨same, rfl⟩
  | @cons demand demandToo _ _ head _ ih =>
    rcases demand with ⟨distance, pairing⟩
    rcases demandToo with ⟨_, pairingToo⟩
    rcases head with ⟨sameDistance, samePairing⟩
    simp only at sameDistance samePairing
    subst sameDistance
    have added := same.add? (Extent.satAdd offset distance) samePairing
    rw [addAll, addAll]
    generalize agenda.add? (Extent.satAdd offset distance) pairing = more at added
    generalize agendaToo.add? (Extent.satAdd offset distance) pairingToo = moreToo at added
    cases added with
    | some sameMore => exact ih sameMore
    | none =>
      have onward := ih same
      exact ⟨onward.1, congrArg (· + 1) onward.2⟩

end

theorem agendas_ofRoots (isSource : source.Tracks (.root first left) (.root second leftToo))
    (isDestination : destination.Tracks (.root first right) (.root second rightToo)) :
    Agendas source destination (.ofRoots first left right) (.ofRoots second leftToo rightToo) := by
  have same : Pairings source destination ⟨.root first left, [⟨.root first right, false⟩]⟩
      ⟨.root second leftToo, [⟨.root second rightToo, false⟩]⟩ :=
    ⟨isSource, .cons ⟨isDestination, rfl⟩ .nil, nodup_singleton _⟩
  refine ⟨.cons ⟨rfl, .cons same .nil, .nil⟩ .nil, fun other otherToo sameOther => ?_⟩
  have seen := (@Terms.keeps_ofRoots { arena := first } (left, right)).seen other
  have seenToo := (@Terms.keeps_ofRoots { arena := second } (leftToo, rightToo)).seen otherToo
  rw [mem_singleton] at seen seenToo
  rw [Bool.eq_iff_iff]
  exact seen.trans ((sameOther.eq_iff same).trans seenToo.symm)

theorem Pairings.exists_limit (source destination : Correspondence first second referents) :
    ∃ limit, ∀ known : List Pairing, known.Nodup →
      (∀ pairing ∈ known, ∃ image, Pairings source destination pairing image) →
      known.length ≤ limit := by
  have finite :=
    ((Position.finite_within source.charts).prod (Foothold.finite_lists destination.charts)).image
      fun pair => Pairing.mk pair.1 pair.2
  refine ⟨finite.toFinset.card, fun _ distinct paired => ?_⟩
  rw [← toFinset_card_of_nodup distinct]
  refine Finset.card_le_card fun pairing member => finite.mem_toFinset.mpr ?_
  rcases paired pairing (mem_toFinset.mp member) with ⟨_, same⟩
  refine ⟨(pairing.source, pairing.footholds), ⟨same.source.within, ?_, same.distinct⟩, rfl⟩
  rintro _ ⟨_, isFoothold, rfl⟩
  rcases exists_of_mem_left same.footholds isFoothold with ⟨_, _, footing⟩
  exact footing.tracks.within

end Agendas

end Correspondence

namespace Terms

variable {terms : Terms} {source destination : Correspondence terms.arena second referents}
  {nested nestedToo : Nested} {budgets : Filter Budget} {tie : Tie}

open Correspondence (Pairings Agendas Onwards)

section Look

variable {offset : Nat} {exercised : Assumptions}

theorem parallel_look {survey surveyToo : Budget → Agenda → Assumptions → Check Assumptions}
    (steps : Parallel budgets tie (Onwards source destination) (fun budget => step budget pairing)
      fun budget => stepToo budget pairingToo) (same : Agendas source destination agenda agendaToo)
    (goesOn : ∀ onward onwardToo : Onward, Onwards source destination onward onwardToo →
      Parallel budgets tie Eq
        (fun budget => survey budget (agenda.addAll offset onward.next).1
          (exercised ∪ onward.exercised))
        fun budget => surveyToo budget (agendaToo.addAll offset onwardToo.next).1
          (exercised ∪ onward.exercised)) :
    Parallel budgets tie Eq
      (fun budget => look (step budget) (survey budget) offset pairing agenda exercised)
      fun budget => look (stepToo budget) (surveyToo budget) offset pairingToo agendaToo
        exercised := by
  simp only [look]
  refine (parallel_count _).bind fun _ _ _ => ?_
  refine steps.attempt.bind fun _ _ sameVerdict => ?_
  cases sameVerdict with
  | error => exact parallel_throw _
  | @ok onward onwardToo sameOnward =>
    simp only [(same.addAll offset sameOnward.next).2, ← sameOnward.exercised]
    exact (parallel_count _).bind fun _ _ _ => goesOn onward onwardToo sameOnward

end Look

theorem surveyFrom_eq_surveyFrom {step stepToo : Pairing → Check Onward} (left : Nat)
    (exercised : Assumptions)
    (steps : ∀ pairing pairingToo, Pairings source destination pairing pairingToo →
      Parallel (pure terms.budget) .equal (Onwards source destination) (fun _ => step pairing)
        fun _ => stepToo pairingToo) (same : Agendas source destination agenda agendaToo) :
    terms.surveyFrom step left agenda exercised =
      (terms.inArena second).surveyFrom stepToo left agendaToo exercised := by
  induction left generalizing agenda agendaToo exercised with
  | zero =>
    have found := same.next?
    rw [surveyFrom, surveyFrom]
    generalize agenda.next? = next at found
    generalize agendaToo.next? = nextToo at found
    cases found with
    | none => rfl
    | some sameNext => simp only [sameNext.1]
  | succ _ ih =>
    have found := same.next?
    rw [surveyFrom, surveyFrom]
    generalize agenda.next? = next at found
    generalize agendaToo.next? = nextToo at found
    cases found with
    | none => rfl
    | @some found foundToo sameNext =>
      rcases found with ⟨⟨offset, _⟩, _⟩
      rcases foundToo with ⟨⟨_, _⟩, _⟩
      rcases sameNext with ⟨sameOffset, samePairing, sameRest⟩
      simp only at sameOffset samePairing sameRest
      subst sameOffset
      refine Parallel.eq terms.budget ((parallel_refl get).bind ?_)
      rintro _ _ rfl
      split
      · exact parallel_throw _
      · refine parallel_look (steps _ _ samePairing) sameRest fun _ _ sameOnward => ?_
        rw [ih _ (sameRest.addAll offset sameOnward.next).1]
        exact parallel_refl _

/-- Surveys of corresponding layouts are the same, if inquiries about corresponding referents are
answered in the same way. -/
theorem survey_eq_survey
    (answers : ∀ left right leftToo rightToo, referents left leftToo → referents right rightToo →
      nested left right = nestedToo leftToo rightToo)
    (isSource : source.Tracks (.root terms.arena left) (.root second leftToo))
    (isDestination : destination.Tracks (.root terms.arena right) (.root second rightToo)) :
    terms.survey (terms.step nested) left right =
      (terms.inArena second).survey ((terms.inArena second).step nestedToo) leftToo rightToo := by
  have alike : AnsweredAlike (pure terms.budget) .equal referents (fun _ => nested) fun _ =>
      nestedToo := by
    intro left right leftToo rightToo sameLeft sameRight
    simp only [answers left right leftToo rightToo sameLeft sameRight]
    exact parallel_refl _
  funext progress
  simp only [survey, get_bind]
  rw [surveyFrom_eq_surveyFrom _ _ (fun _ _ same => parallel_step alike same)
    (Correspondence.agendas_ofRoots isSource isDestination)]

section Unlimited

variable {known : List Pairing} {limit : Nat}

theorem parallel_surveyFrom (grows : Budget.Grows budgets)
    (steps : ∀ pairing pairingToo, Pairings source destination pairing pairingToo →
      Parallel budgets tie (Onwards source destination) (fun budget => step budget pairing)
        fun budget => stepToo budget pairingToo) (limited : ∀ known : List Pairing, known.Nodup →
      (∀ pairing ∈ known, ∃ image, Pairings source destination pairing image) →
        known.length ≤ limit)
    {left leftToo : Budget → Nat} {rounds : Nat} (exercised : Assumptions)
    (enough : ∀ least, ∀ᶠ budget in budgets, least ≤ left budget ∧ least ≤ leftToo budget)
    (keeps : agenda.Keeps known) (same : Agendas source destination agenda agendaToo)
    (paired : ∀ pairing ∈ known, ∃ image, Pairings source destination pairing image)
    (measure : limit - known.length + (pending agenda.queue).length < rounds) :
    Parallel budgets tie Eq
      (fun budget => { terms with budget }.surveyFrom (step budget) (left budget) agenda exercised)
      fun budget => ({ terms with budget }.inArena second).surveyFrom (stepToo budget)
        (leftToo budget)
        agendaToo exercised := by
  -- Pairings that become known are pending too, and the one looked at no longer is.
  induction rounds generalizing agenda agendaToo known exercised left leftToo with
  | zero => omega
  | succ rounds ih =>
    have found := same.next?
    rcases isNext : agenda.next? with _ | ⟨⟨offset, pairing⟩, rest⟩ <;>
      rcases isNextToo : agendaToo.next? with _ | ⟨⟨offsetToo, pairingToo⟩, restToo⟩ <;>
      rw [isNext, isNextToo] at found
    · have ends : Parallel budgets tie Eq (fun _ => pure exercised) fun _ => pure exercised :=
        parallel_pure rfl
      refine ends.congr (fun _ => .of_forall fun budget => ?_) fun _ => .of_forall fun budget =>
        ?_ <;>
        rw [surveyFrom.eq_def]
      · simp only [isNext]
      · simp only [isNextToo]
    · cases found
    · cases found
    · rcases found with ⟨sameOffset, samePairing, sameRest⟩ | _
      simp only at sameOffset samePairing sameRest
      subst sameOffset
      rcases next_eq_some isNext with ⟨isPending, sameSeen⟩
      have keepsRest : rest.Keeps known := ⟨sameSeen ▸ keeps.seen, keeps.distinct⟩
      have looks : Parallel budgets tie Eq
          (fun budget =>
          look (step budget) ({ terms with budget }.surveyFrom (step budget) (left budget - 1))
            offset pairing rest exercised)
          fun budget => look (stepToo budget)
            (({ terms with budget }.inArena second).surveyFrom (stepToo budget)
            (leftToo budget - 1)) offset
            pairingToo restToo exercised := by
        refine parallel_look (steps _ _ samePairing) sameRest fun onward onwardToo sameOnward => ?_
        rcases keepsRest.addAll with ⟨more, keepsMore, isPermuted, fromNext, _⟩
        have pairedMore (other : Pairing) (member : other ∈ more ++ known) :
            ∃ image, Pairings source destination other image := by
          rcases mem_append.mp member with isMore | before
          · rcases fromNext other isMore with ⟨entry, isEntry, rfl⟩
            rcases exists_of_mem_left sameOnward.next isEntry with ⟨image, _, sameEntry⟩
            exact ⟨image.2, sameEntry.2⟩
          · exact paired other before
        refine ih _ ?_ keepsMore (sameRest.addAll offset sameOnward.next).1 pairedMore ?_
        · intro least
          filter_upwards [enough (least + 1)] with budget large
          omega
        · have few := limited _ keepsMore.distinct pairedMore
          have fewer := isPermuted.length_eq
          rw [isPending] at measure
          simp only [length_append, length_cons] at few fewer measure ⊢
          omega
      refine looks.congr (fun progress => ?_) fun progress => ?_ <;>
        filter_upwards [grows (progress.tally.pairs + 1), enough 1] with budget large some
      · exact surveyFrom_of_next isNext large.1 (Nat.ne_of_gt some.1)
      · exact surveyFrom_of_next isNextToo large.1 (Nat.ne_of_gt some.2)

/-- With ever larger budgets, surveys of corresponding layouts come to the same end. -/
theorem parallel_survey (grows : Budget.Grows budgets) {nested nestedToo : Budget → Nested}
    (answers : AnsweredAlike budgets tie referents nested nestedToo)
    (isSource : source.Tracks (.root terms.arena left) (.root second leftToo))
    (isDestination : destination.Tracks (.root terms.arena right) (.root second rightToo)) :
    Parallel budgets tie Eq
      (fun budget => { terms with budget }.survey (terms.step (nested budget)) left right)
      fun budget => ({ terms with budget }.inArena second).survey
        ((terms.inArena second).step (nestedToo budget))
        leftToo rightToo := by
  intro progress other tied
  rcases Correspondence.Pairings.exists_limit source destination with ⟨limit, limited⟩
  have same := Correspondence.agendas_ofRoots isSource isDestination
  have root : Pairings source destination (terms.roots (left, right))
      ((terms.inArena second).roots (leftToo, rightToo)) :=
    ⟨isSource, .cons ⟨isDestination, rfl⟩ .nil, nodup_singleton _⟩
  refine parallel_surveyFrom grows (fun _ _ same => parallel_step answers same) limited ∅ ?_
    (keeps_ofRoots (left, right)) same (forall_mem_singleton.mpr ⟨_, root⟩) (Nat.lt_succ_self _)
    progress other tied
  intro least
  filter_upwards [grows (least + progress.tally.pairs + other.tally.pairs)] with budget large
  omega

end Unlimited

end Terms

end Recast
