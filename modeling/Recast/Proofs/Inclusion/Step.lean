import Recast.Proofs.Inclusion.References
import Recast.Proofs.Inclusion.Unrolled

/-!
# What a pairing demands

`Terms.step` answers to the rules: by the upper rules, the pairings that it demands let the pairing
at hand go on letter by letter, or run by run where runs can be matched; and all of them are met by
any coherent pairings of the lower rules that meet the one at hand (`Demanded`). It fails only where
the lower rules let no such pairing go on.
-/

namespace Recast

open Position Foothold List Check
open Foothold (positions mem_positions)

variable {upper lower : Rules} {arena : Arena} {plot : Plot} {proper : Token → Prop}
  {footing : Set Position} {reads : List (Token × Position)} {token : Token} {source : Position}
  {pairing : Pairing} {exercised : Assumptions}

/-- A pairing that may occur: of positions of layouts, with some footholds, each position once. -/
structure Pairing.Valid (arena : Arena) (plot : Plot) (pairing : Pairing) : Prop where
  source : ∃ root, pairing.source.Within arena plot root
  located : Located arena plot (positions pairing.footholds)
  nonempty : (positions pairing.footholds).Nonempty
  distinct : (pairing.footholds.map Foothold.position).Nodup

theorem Foothold.positions_singleton (foothold : Foothold) :
    positions [foothold] = {foothold.position} := by
  ext position
  simp [mem_positions, eq_comm]

theorem Pairing.Valid.eq_singleton {destination : Position} (valid : pairing.Valid arena plot)
    (single : positions pairing.footholds = {destination}) :
    ∃ foothold, pairing.footholds = [foothold] ∧ foothold.position = destination := by
  have same (foothold : Foothold) (member : foothold ∈ pairing.footholds) : foothold.position =
      destination := by
    have inside : foothold.position ∈ positions pairing.footholds := ⟨foothold, member, rfl⟩
    rwa [single] at inside
  rcases isList : pairing.footholds with _ | ⟨first, _ | ⟨second, _⟩⟩
  · have nonempty := valid.nonempty
    rw [positions_nonempty, isList] at nonempty
    simp at nonempty
  · exact ⟨first, rfl, same first (by simp [isList])⟩
  · have distinct := valid.distinct
    have alike := (same first (by simp [isList])).trans (same second (by simp [isList])).symm
    simp [isList, alike] at distinct

/-- The pairings that are demanded, with sets of positions for footholds. -/
def Onward.goal (onward : Onward) (source : Position) (footing : Set Position) : Prop :=
  ∃ entry ∈ onward.next, entry.2.source = source ∧ positions entry.2.footholds = footing

/-- All that the source may hold next is followed up, and nothing else is. -/
structure Onward.FollowsAll (upper lower : Rules) (arena : Arena) (footing : Set Position)
    (reads : List (Token × Position)) (onward : Onward) : Prop where
  each : ∀ token source letter, (token, source) ∈ reads → token.Holds letter →
    ∃ entry ∈ onward.next, entry.2.Tracks upper lower arena footing source letter
  all : ∀ entry ∈ onward.next, ∃ token source letter, (token, source) ∈ reads ∧
    token.Holds letter ∧ entry.2.Tracks upper lower arena footing source letter

namespace Entry.Opened

variable {entry : Entry}

section

variable (charts : arena.Charts plot proper) (opened : entry.Opened upper lower arena plot footing)
include charts opened

theorem isOver_iff :
    entry.prospects.isOver ↔ ∃ position ∈ positions entry.footholds, Rules.Over arena position := by
  rw [opened.prospects]
  exact Prospects.isOver_iff charts opened.located

theorem mayStop_iff :
    (entry.prospects.mayEnd ∨
        ∃ foothold ∈ entry.footholds, foothold.position.endsInPadding arena) ↔
      ∃ position ∈ positions entry.footholds, Ends arena position ∨ Pads arena position := by
  rw [opened.prospects, Prospects.mayEnd_iff charts opened.located]
  constructor
  · rintro (⟨position, member, ends⟩ | ⟨foothold, member, inPadding⟩)
    · exact ⟨position, member, .inl ends⟩
    · rcases opened.located _ ⟨foothold, member, rfl⟩ with ⟨_, within⟩
      exact ⟨_, ⟨foothold, member, rfl⟩, .inr ((endsInPadding_iff charts within).mp inPadding)⟩
  · rintro ⟨_, ⟨foothold, member, rfl⟩, ends | pads⟩
    · exact .inl ⟨_, ⟨foothold, member, rfl⟩, ends⟩
    · rcases opened.located _ ⟨foothold, member, rfl⟩ with ⟨_, within⟩
      exact .inr ⟨foothold, member, (endsInPadding_iff charts within).mpr pads⟩

end

end Entry.Opened

namespace Onward

variable {first others : Onward}

theorem FollowsAll.cons (follows : first.Follows upper lower arena footing source token)
    (followsAll : others.FollowsAll upper lower arena footing reads) :
    (first ++ others).FollowsAll upper lower arena footing ((token, source) :: reads) where
  each other after letter member holds := by
    rcases mem_cons.mp member with same | inRest
    · simp only [Prod.mk.injEq] at same
      rcases same with ⟨rfl, rfl⟩
      rcases follows.each letter holds with ⟨entry, isNext, tracks⟩
      exact ⟨entry, mem_append_left _ isNext, tracks⟩
    · rcases followsAll.each other after letter inRest holds with ⟨entry, isNext, tracks⟩
      exact ⟨entry, mem_append_right _ isNext, tracks⟩
  all entry isNext := by
    rcases mem_append.mp isNext with inFirst | inOthers
    · rcases follows.all entry inFirst with ⟨letter, holds, tracks⟩
      exact ⟨token, source, letter, mem_cons_self, holds, tracks⟩
    · rcases followsAll.all entry inOthers with ⟨other, after, letter, member, holds, tracks⟩
      exact ⟨other, after, letter, mem_cons_of_mem _ member, holds, tracks⟩

end Onward

namespace Terms

variable {terms : Terms} {account : Account} {budgets : Filter Budget} {progress later : Progress}
  {onward : Onward} {nested : Budget → Nested} {footholds : List Foothold}

/-- What is known of the pairings that a pairing demands, be it that runs are taken at once or not.
-/
structure Demanded (terms : Terms) (account : Account) (plot : Plot) (leaping : Prop)
    (pairing : Pairing) (onward : Onward) (progress : Progress) : Prop where
  valid : ∀ entry ∈ onward.next, entry.2.Valid terms.arena plot
  leaps : leaping → ∀ destination first second, positions pairing.footholds = {destination} →
    Matched terms.arena pairing.source destination first second →
    Rules.Leaps terms.arena onward.goal first second
  walks : ∀ upper, terms.Upper account onward.exercised progress upper →
    (leaping → ∀ destination first second, positions pairing.footholds = {destination} →
      ¬ Matched terms.arena pairing.source destination first second) →
    upper.Walks terms.arena onward.goal pairing.source (positions pairing.footholds)
  met : ∀ lower goal, terms.Lower account progress lower → lower.Coherent terms.arena leaping goal →
    goal pairing.source (positions pairing.footholds) →
    ∀ entry ∈ onward.next, goal entry.2.source (positions entry.2.footholds)

def nothing : Rules where
  assumed := ∅
  outlives := fun _ _ => false
  related := fun _ => False

def anything : Rules where
  assumed := .everything
  outlives := fun _ _ => true
  related := fun _ => True

theorem lower_nothing : terms.Lower account progress nothing where
  assumed := by simp [nothing]
  strict := by simp [nothing]
  outlives := by simp [nothing]
  related := by simp [nothing]

theorem upper_anything : terms.Upper account exercised progress anything where
  assumed := by simp [anything]
  safe := by simp [anything]
  outlives := by simp [anything]
  related := by simp [anything]

theorem opened_enter (charts : terms.arena.Charts plot proper)
    (located : Located terms.arena plot (positions footholds))
    (isUpper : terms.Upper account exercised progress upper)
    (isLower : terms.Lower account progress lower) :
    (terms.enter footholds).Opened upper lower terms.arena plot (positions footholds) := by
  have inside : positions (terms.enter footholds).footholds ⊆ upper.reach terms.arena
      (positions footholds) :=
    Entry.positions_enter_subset charts located isUpper.safe
  refine ⟨Entry.prospects_enter _ _ _ _, ?_, inside, ?_⟩
  · intro _ member
    rcases inside member with ⟨origin, isOrigin, drifts⟩
    rcases located origin isOrigin with ⟨root, within⟩
    exact ⟨root, Rules.Drifts.within charts drifts within⟩
  · let exact : Rules := { lower with assumed := terms.assumed }
    have within : lower.Within exact := ⟨isLower.assumed, fun _ _ => id, fun _ => id⟩
    have all : positions (terms.enter footholds).footholds =
        exact.reach terms.arena (positions footholds) :=
      Entry.positions_enter charts located Iff.rfl
    rw [all]
    exact Rules.reach_mono within subset_rfl

section Tokens

variable (charts : terms.arena.Plotted plot)
  (answers : Answers account budgets terms.arena.layouts.size nested)
  (located : Located terms.arena plot (positions footholds))
  (nonempty : (positions footholds).Nonempty)

include charts answers located nonempty

theorem ensures_matchToken (isProper : token.Proper terms.arena.layouts.size)
    (sound : account.Sound progress) :
    Ensures account budgets
      (fun budget => terms.matchToken (nested budget) (terms.enter footholds) footholds source
        token)
      progress
      (fun onward later => ∀ upper lower, terms.Upper account onward.exercised later upper →
        terms.Lower account later lower →
        onward.Follows upper lower terms.arena (positions footholds) source token)
      (fun later => ∀ lower, terms.Lower account later lower →
        ∃ letter, token.Holds letter ∧
          ¬ (lower.behind terms.arena letter (positions footholds)).Nonempty) := by
  have opens {exercised : Assumptions} {later : Progress} {upper lower : Rules}
      (isUpper : terms.Upper account exercised later upper)
      (isLower : terms.Lower account later lower) :=
    opened_enter charts located isUpper isLower
  have opensBelow {later : Progress} {lower : Rules} (isLower : terms.Lower account later lower) :=
    have isUpper : terms.Upper account ∅ later anything := upper_anything
    opens isUpper isLower
  cases token with
  | cell contents =>
    cases contents with
    | uninit =>
      refine ensures_ofExcept sound ?_ ?_
      · intro _ found _ _ isUpper isLower
        exact Entry.matchUninit_eq_ok charts (opens isUpper isLower) found
      · intro _ found _ isLower
        exact ⟨.uninit, .uninit, Entry.matchUninit_eq_error charts (opensBelow isLower) found⟩
    | init =>
      refine ensures_ofExcept sound ?_ ?_
      · intro _ found _ _ isUpper isLower
        exact matchBytes_eq_ok charts (opens isUpper isLower) isProper isUpper.assumed
          isLower.strict found
      · intro _ found _ isLower
        exact matchBytes_eq_error charts (opensBelow isLower) isProper isLower.strict found
  | reference target =>
    have isLower : terms.Lower account progress nothing := lower_nothing
    have opened := opensBelow isLower
    refine (ensures_matchReference (positions footholds) charts answers opened.located isProper ?_
      sound).mono ?_ ?_
    · intro _ _ member
      rcases ((opened.mem_reads charts).mp member).2 with ⟨origin, isOrigin, _, reads, _⟩
      rcases opened.located _ ⟨origin, isOrigin, rfl⟩ with ⟨_, within⟩
      exact reads.isProper charts within
    · intro _ _ _ follows upper lower isUpper isLower
      exact follows upper lower (opens isUpper isLower) isUpper isLower
    · intro _ _ fails lower isLower
      exact ⟨_, .reference target, fails _ lower (opensBelow isLower) isLower⟩
  | marker =>
    refine ensures_pure sound fun _ _ isUpper isLower => ?_
    exact Entry.matchMarker_follows charts (opens isUpper isLower) nonempty

theorem ensures_matchTokens (allProper : ∀ read ∈ reads, read.1.Proper terms.arena.layouts.size)
    (sound : account.Sound progress) :
    Ensures account budgets
      (fun budget => terms.matchTokens (nested budget) (terms.enter footholds) footholds reads)
      progress
      (fun onward later => ∀ upper lower, terms.Upper account onward.exercised later upper →
        terms.Lower account later lower →
        onward.FollowsAll upper lower terms.arena (positions footholds) reads)
      (fun later => ∀ lower, terms.Lower account later lower →
        ∃ read ∈ reads, ∃ letter, read.1.Holds letter ∧
          ¬ (lower.behind terms.arena letter (positions footholds)).Nonempty) := by
  induction reads generalizing progress with
  | nil => exact ensures_pure sound fun _ _ _ _ => ⟨by simp, by simp⟩
  | cons read rest ih =>
    rcases read with ⟨token, source⟩
    have tokenProper := allProper _ mem_cons_self
    have restProper (read : Token × Position) (member : read ∈ rest) :
        read.1.Proper terms.arena.layouts.size := allProper read (mem_cons_of_mem _ member)
    refine (ensures_matchToken charts answers located nonempty tokenProper sound).bind ?_ ?_
    · intro first afterFirst _ firstSound follows
      refine (ih restProper firstSound).bind ?_ ?_
      · intro others last goesOn lastSound followsAll
        refine ensures_pure lastSound fun upper lower isUpper isLower => ?_
        have upperFirst := isUpper.earlier goesOn fun assumption used =>
          Assumptions.mem_union.mpr (.inl used)
        have upperOthers := isUpper.earlier (.refl last) fun _ used =>
          Assumptions.mem_union.mpr (.inr used)
        exact .cons (follows upper lower upperFirst (isLower.earlier goesOn))
          (followsAll upper lower upperOthers isLower)
      · intro _ _ fails lower isLower
        rcases fails lower isLower with ⟨read, member, nowhere⟩
        exact ⟨read, mem_cons_of_mem _ member, nowhere⟩
    · intro _ _ fails lower isLower
      exact ⟨_, mem_cons_self, fails lower isLower⟩

end Tokens

section Walk

structure Walked (terms : Terms) (account : Account) (plot : Plot) (pairing : Pairing)
    (onward : Onward) (progress : Progress) : Prop where
  valid : ∀ entry ∈ onward.next, entry.2.Valid terms.arena plot
  walks : ∀ upper, terms.Upper account onward.exercised progress upper →
    upper.Walks terms.arena onward.goal pairing.source (positions pairing.footholds)
  met : ∀ leaping lower goal, terms.Lower account progress lower →
    lower.Coherent terms.arena leaping goal → goal pairing.source (positions pairing.footholds) →
    ∀ entry ∈ onward.next, goal entry.2.source (positions entry.2.footholds)

variable (charts : terms.arena.Plotted plot) (valid : pairing.Valid terms.arena plot)

include charts valid

theorem opened_above (isUpper : terms.Upper account exercised progress upper) :
    (terms.enter pairing.footholds).Opened upper nothing terms.arena plot
      (positions pairing.footholds) :=
  opened_enter charts valid.located isUpper lower_nothing

theorem opened_below (isLower : terms.Lower account progress lower) :
    (terms.enter pairing.footholds).Opened anything lower terms.arena plot
      (positions pairing.footholds) :=
  have isUpper : terms.Upper account ∅ progress anything := upper_anything
  opened_enter charts valid.located isUpper isLower

theorem not_over_below (notOver : (terms.enter pairing.footholds).prospects.isOver ≠ true)
    (isLower : terms.Lower account progress lower) :
    ¬ ∃ position ∈ lower.reach terms.arena (positions pairing.footholds),
      Rules.Over terms.arena position := by
  rintro ⟨position, member, ended⟩
  have opened := opened_below charts valid isLower
  exact notOver ((opened.isOver_iff charts).mpr ⟨position, opened.lower member, ended⟩)

theorem valid_of_tracks {root : LayoutId} {next : Pairing} {letter : Letter}
    (within : pairing.source.Within terms.arena plot root)
    (tracks : next.Tracks anything lower terms.arena (positions pairing.footholds) source letter)
    (reads : Reads terms.arena pairing.source token source) : next.Valid terms.arena plot := by
  refine ⟨⟨root, tracks.source ▸ reads.within charts within⟩, ?_, tracks.nonempty, tracks.distinct⟩
  intro position member
  rcases tracks.upper member with ⟨_, ⟨origin, isOrigin, drifts⟩, takes⟩ | ⟨_, kept⟩
  · rcases valid.located origin isOrigin with ⟨other, originWithin⟩
    exact ⟨other, takes.within charts (Rules.Drifts.within charts drifts originWithin)⟩
  · exact valid.located position kept

theorem walked_of_followsAll (notOver : (terms.enter pairing.footholds).prospects.isOver ≠ true)
    (mayStop : Ends terms.arena pairing.source →
      (terms.enter pairing.footholds).prospects.mayEnd ∨
        ∃ foothold ∈ (terms.enter pairing.footholds).footholds,
          foothold.position.endsInPadding terms.arena)
    (followsAll : ∀ upper lower, terms.Upper account onward.exercised progress upper →
      terms.Lower account progress lower →
      onward.FollowsAll upper lower terms.arena (positions pairing.footholds)
        (pairing.source.ahead terms.arena).reads) :
    terms.Walked account plot pairing onward progress := by
  rcases valid.source with ⟨_, within⟩
  have followsBelow {lower : Rules} (isLower : terms.Lower account progress lower) :=
    followsAll anything lower upper_anything isLower
  refine ⟨?_, ?_, ?_⟩
  · intro entry isNext
    rcases (followsBelow lower_nothing).all entry isNext with
      ⟨token, source, letter, isRead, _, tracks⟩
    exact valid_of_tracks charts valid within tracks ((mem_reads_ahead charts within).mp isRead)
  · intro upper isUpper
    have opened := opened_above charts valid isUpper
    refine .inr ⟨fun ends => ?_, fun token next letter reads holds => ?_⟩
    · rcases (opened.mayStop_iff charts).mp (mayStop ends) with ⟨position, member, may⟩
      exact ⟨position, opened.upper member, may⟩
    · have isRead := (mem_reads_ahead charts within).mpr reads
      rcases (followsAll upper nothing isUpper lower_nothing).each token next letter isRead holds
        with ⟨entry, isNext, tracks⟩
      exact ⟨_, tracks.upper, tracks.nonempty, entry, isNext, tracks.source, rfl⟩
  · intro _ _ _ isLower coherent isGoal entry isNext
    rcases (followsBelow isLower).all entry isNext with
      ⟨token, source, letter, isRead, holds, tracks⟩
    rcases coherent.walks _ _ isGoal with ended | ⟨_, onward⟩
    · exact absurd ended (not_over_below charts valid notOver isLower)
    · have reads := (mem_reads_ahead charts within).mp isRead
      rcases onward token source letter reads holds with ⟨_, inside, _, goesOn⟩
      rw [tracks.source]
      exact coherent.mono _ _ _ goesOn (inside.trans tracks.lower)

theorem ensures_walkStep (answers : Answers account budgets terms.arena.layouts.size nested)
    (sound : account.Sound progress) :
    Ensures account budgets (fun budget => terms.walkStep (nested budget) pairing) progress
      (terms.Walked account plot pairing)
      (fun later => ∀ lower goal, terms.Lower account later lower →
        ¬ lower.Walks terms.arena goal pairing.source (positions pairing.footholds)) := by
  rcases valid.source with ⟨root, within⟩
  simp only [walkStep]
  split
  · rename_i isOver
    refine ensures_pure sound ⟨by simp, ?_, by simp⟩
    intro _ isUpper
    have opened := opened_above charts valid isUpper
    rcases (opened.isOver_iff charts).mp isOver with ⟨position, member, ended⟩
    exact .inl ⟨position, opened.upper member, ended⟩
  · rename_i notOver
    split
    · rename_i stuck
      simp only [Bool.and_eq_true, Bool.not_eq_true', any_eq_false] at stuck
      refine ensures_throw sound ?_
      rintro _ _ isLower (ended | ⟨atEnd, _⟩)
      · exact not_over_below charts valid notOver isLower ended
      · have opened := opened_below charts valid isLower
        rcases atEnd ((mayEnd_ahead charts within).mp stuck.1.1) with ⟨position, member, may⟩
        rcases (opened.mayStop_iff charts).mpr ⟨position, opened.lower member, may⟩ with
          mayEnd | ⟨foothold, isFoothold, inPadding⟩
        · simp [stuck.1.2] at mayEnd
        · exact stuck.2 foothold isFoothold inPadding
    · rename_i notStuck
      have allProper (read : Token × Position)
          (member : read ∈ (pairing.source.ahead terms.arena).reads) : read.1.Proper
          terms.arena.layouts.size :=
        ((mem_reads_ahead charts within).mp member).isProper charts within
      refine (ensures_matchTokens charts answers valid.located valid.nonempty allProper sound).mono
        ?_ ?_
      · intro _ _ _ followsAll
        refine walked_of_followsAll charts valid notOver (fun ends => ?_) followsAll
        have isEnd := (mayEnd_ahead charts within).mpr ends
        simp only [isEnd, Bool.true_and, Bool.and_eq_true, Bool.not_eq_true', any_eq_false,
          not_and, not_forall, not_not] at notStuck
        rcases mayEnd : (terms.enter pairing.footholds).prospects.mayEnd with _ | _
        · rcases notStuck mayEnd with ⟨foothold, member, inPadding⟩
          exact .inr ⟨foothold, member, inPadding⟩
        · exact .inl rfl
      · intro _ _ fails lower _ isLower walks
        rcases fails lower isLower with ⟨⟨token, source⟩, isRead, letter, holds, nowhere⟩
        rcases walks with ended | ⟨_, onward⟩
        · exact not_over_below charts valid notOver isLower ended
        · have reads := (mem_reads_ahead charts within).mp isRead
          rcases onward token source letter reads holds with ⟨_, inside, nonempty, _⟩
          exact nowhere (nonempty.mono inside)

end Walk

section Leap

variable {first second : Run} {foothold : Foothold}

/-- What a run that is taken at once demands: one element, and what follows the last round. -/
structure Leapt (terms : Terms) (pairing : Pairing) (foothold : Foothold) (first second : Run)
    (onward : Onward) : Prop where
  single : pairing.footholds = [foothold]
  matched : Matched terms.arena pairing.source foothold.position first second
  next : ∃ distance, onward.next =
    [(0, ⟨.root terms.arena first.body, [foothold.moveTo (.root terms.arena second.body)]⟩),
      (distance, ⟨first.after terms.arena (first.shared second),
        [foothold.moveTo (second.after terms.arena (first.shared second))]⟩)]

theorem leapt_of_runStep (taken : terms.runStep? pairing = some onward) :
    ∃ foothold first second, terms.Leapt pairing foothold first second onward := by
  simp only [runStep?] at taken
  split at taken
  · rename_i foothold single
    split at taken
    · rename_i first second isFirst isSecond
      split at taken
      · simp at taken
      · simp at taken
      · rename_i size _ isSize
        split at taken
        · rename_i alike
          simp only [Option.some.injEq] at taken
          have sourceGoesOn : first.count.least ≠ 0 := by omega
          have destinationGoesOn : second.count.least ≠ 0 := by omega
          refine ⟨foothold, first, second, single, ⟨⟨isFirst, sourceGoesOn⟩,
            ⟨isSecond, destinationGoesOn⟩, isSize.trans alike.1.symm⟩, ?_⟩
          subst taken
          exact ⟨_, rfl⟩
        · simp at taken
    · simp at taken
  · simp at taken

section

variable (charts : terms.arena.Charts plot proper) (valid : pairing.Valid terms.arena plot)
include charts valid

theorem isSome_runStep (single : pairing.footholds = [foothold])
    (matched : Matched terms.arena pairing.source foothold.position first second) :
    terms.runStep? pairing ≠ none := by
  rcases valid.source with ⟨_, within⟩
  have sized := matched.source.sized charts within
  have positive := matched.source.bytes_ne_zero charts within
  have rounds := matched.shared_ne_zero
  have isSize := sized.size_eq
  have otherSize := matched.size.symm.trans isSize
  rw [Run.shared] at rounds
  simp only [runStep?, single, matched.source.isRun, matched.destination.isRun, isSize]
  rw [if_pos ⟨otherSize, rounds⟩]
  exact Option.some_ne_none _

theorem Leapt.demanded (leapt : terms.Leapt pairing foothold first second onward) :
    terms.Demanded account plot True pairing onward progress := by
  rcases valid.source with ⟨root, within⟩
  have isFooting : positions pairing.footholds = {foothold.position} := by
    rw [leapt.single, positions_singleton]
  rcases valid.located foothold.position (by simp [isFooting]) with ⟨other, otherWithin⟩
  have matched := leapt.matched
  rcases leapt.next with ⟨distance, isNext⟩
  rcases Nat.exists_eq_succ_of_ne_zero matched.shared_ne_zero with ⟨begun, isShared⟩
  have single (source position : Position)
      (sourceWithin : ∃ root, source.Within terms.arena plot root)
      (positionWithin : ∃ root, position.Within terms.arena plot root) : Pairing.Valid terms.arena
      plot ⟨source, [foothold.moveTo position]⟩ := by
    refine ⟨sourceWithin, ?_, ⟨position, _, mem_singleton_self _, rfl⟩, by simp⟩
    rw [positions_singleton]
    rintro _ rfl
    exact positionWithin
  have leaps : Rules.Leaps terms.arena onward.goal first second := by
    constructor
    · exact ⟨_, isNext ▸ mem_cons_self, rfl, positions_singleton _⟩
    · exact ⟨_, isNext ▸ mem_cons_of_mem _ (mem_singleton_self _), rfl, positions_singleton _⟩
  refine ⟨?_, ?_, ?_, ?_⟩
  · intro _ member
    rw [isNext] at member
    rcases mem_cons.mp member with rfl | isRest
    · exact single _ _ ⟨_, within_root charts (matched.source.body_lt charts within)⟩
        ⟨_, within_root charts (matched.destination.body_lt charts otherWithin)⟩
    · rw [mem_singleton] at isRest
      subst isRest
      rw [isShared]
      exact single _ _ ⟨_, within_after charts matched.source within begun⟩
        ⟨_, within_after charts matched.destination otherWithin begun⟩
  · intro _ _ _ _ same again
    rw [isFooting, Set.singleton_eq_singleton_iff] at same
    subst same
    rcases matched.unique again with ⟨rfl, rfl⟩
    exact leaps
  · exact fun _ _ never => absurd matched (never trivial _ _ _ isFooting)
  · intro lower goal _ coherent isGoal entry member
    rw [isFooting] at isGoal
    rcases coherent.leaps trivial _ _ _ _ isGoal matched with ⟨element, rest⟩
    rw [isNext] at member
    rcases mem_cons.mp member with rfl | isRest
    · rw [positions_singleton]
      exact element
    · rw [mem_singleton] at isRest
      subst isRest
      rw [positions_singleton]
      exact rest

end

end Leap

section

variable (charts : terms.arena.Plotted plot)
  (answers : Answers account budgets terms.arena.layouts.size nested)
  (valid : pairing.Valid terms.arena plot) (sound : account.Sound progress)
include charts answers valid sound

theorem ensures_step :
    Ensures account budgets (fun budget => terms.step (nested budget) pairing) progress
      (terms.Demanded account plot True pairing)
      (fun later => ∀ lower goal, terms.Lower account later lower →
        ¬ lower.Walks terms.arena goal pairing.source (positions pairing.footholds)) := by
  simp only [step]
  rcases taken : terms.runStep? pairing with _ | onward
  · refine (ensures_walkStep charts valid answers sound).mono ?_ fun _ _ fails => fails
    intro _ _ _ walked
    have notMatched (destination : Position) (first second : Run)
        (single : positions pairing.footholds = {destination}) :
        ¬ Matched terms.arena pairing.source destination first second := by
      intro matched
      rcases valid.eq_singleton single with ⟨_, isList, rfl⟩
      exact isSome_runStep charts valid isList matched taken
    refine ⟨walked.valid, ?_, fun upper isUpper _ => walked.walks upper isUpper, walked.met True⟩
    exact fun _ destination first second single matched =>
      absurd matched (notMatched destination first second single)
  · rcases leapt_of_runStep taken with ⟨_, _, _, leapt⟩
    refine (ensures_count sound).bind ?_ fun _ _ fails => fails
    intro _ _ _ laterSound _
    exact ensures_pure laterSound (leapt.demanded charts valid)

theorem ensures_walkStep_demanded :
    Ensures account budgets (fun budget => terms.walkStep (nested budget) pairing) progress
      (terms.Demanded account plot False pairing)
      (fun later => ∀ lower goal, terms.Lower account later lower →
        ¬ lower.Walks terms.arena goal pairing.source (positions pairing.footholds)) := by
  refine (ensures_walkStep charts valid answers sound).mono ?_ fun _ _ fails => fails
  intro _ _ _ walked
  exact ⟨walked.valid, False.elim, fun upper isUpper _ => walked.walks upper isUpper,
    walked.met False⟩

end

end Terms

end Recast
