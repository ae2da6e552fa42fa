import Recast.Proofs.Inclusion.Acceptance

/-!
# Assumptions that were needed

The assumptions that an accepting check has needed are all among those it was given
(`Terms.check_subset`). A foothold is guarded only where regions may be entered, which takes the
assumption of safety; each step of a check keeps this up, and each outcome that is decided on the
way is in keeping with it.
-/

namespace Recast

open List Foothold Check

variable {keeps : Progress → Prop} {limit exercised : Assumptions} {footholds : List Foothold}
  {holds : Foothold → Prop} {nested : Nested} {token : Token} {foothold : Foothold}
  {values : ByteSet} {reads : List (Token × Foothold)}

namespace Check

variable {α β : Type} {step : Check α} {post : α → Prop} {final : β → Prop}

def Kept (keeps : Progress → Prop) (post : α → Prop) : EStateM.Result Diagnostic Progress α → Prop
  | .ok value later => keeps later ∧ post value
  | .error _ later => keeps later

/-- The step keeps up what holds of progress, and its values meet the condition. -/
def Yields (keeps : Progress → Prop) (step : Check α) (post : α → Prop) : Prop :=
  ∀ progress, keeps progress → Kept keeps post (step progress)

theorem yields_pure {value : α} (holds : post value) : Yields keeps (pure value) post :=
  fun _ kept => ⟨kept, holds⟩

theorem yields_throw {diagnostic : Diagnostic} : Yields keeps (throw diagnostic) post :=
  fun _ kept => kept

theorem yields_ofExcept {result : Except Diagnostic α}
    (holds : ∀ value, result = .ok value → post value) : Yields keeps (ofExcept result) post := by
  cases result with
  | ok value => exact yields_pure (holds value rfl)
  | error => exact yields_throw

theorem Yields.bind {next : α → Check β} (first : Yields keeps step post)
    (second : ∀ value, post value → Yields keeps (next value) final) :
    Yields keeps (step >>= next) final := by
  intro progress kept
  have outcome := first progress kept
  simp only [Bind.bind, EStateM.bind]
  rcases result : step progress with ⟨value, later⟩ | ⟨_, later⟩ <;> simp only [result] at outcome
  · exact second value outcome.2 later outcome.1
  · exact outcome

theorem Yields.attempt (first : Yields keeps step post) :
    Yields keeps (attempt step) fun verdict => ∀ value, verdict = .ok value → post value := by
  intro progress kept
  have outcome := first progress kept
  simp only [Check.attempt]
  rcases result : step progress with ⟨_, later⟩ | ⟨_, later⟩ <;> simp only [result] at outcome
  · exact ⟨outcome.1, fun _ same => Except.ok.inj same ▸ outcome.2⟩
  · exact ⟨outcome, fun _ no => by cases no⟩

end Check

namespace Assumptions

variable {left right more : Assumptions} {assumption : Assumption}

theorem union_subset (first : left ⊆ more) (second : right ⊆ more) : left ∪ right ⊆ more := by
  rw [subset_iff] at *
  intro assumption member
  exact (mem_union.mp member).elim (first assumption) (second assumption)

theorem singleton_subset (member : assumption ∈ more) : {assumption} ⊆ more := by
  rw [subset_iff]
  intro _ isOther
  rw [mem_singleton.mp isOther]
  exact member

theorem empty_subset : ∅ ⊆ more := by
  rw [subset_iff]
  intro _ isOther
  exact absurd isOther not_mem_empty

theorem eq_empty_of_subset (none : left ⊆ ∅) : left = ∅ :=
  ext_mem fun assumption => ⟨subset_iff.mp none assumption, fun no => absurd no not_mem_empty⟩

end Assumptions

open Assumptions

namespace Foothold

/-- Two footholds at one position pass the property on when they become one. -/
def Merges (holds : Foothold → Prop) : Prop :=
  ∀ first second, first.position = second.position → holds first → holds second →
    holds { second with guarded := first.guarded && second.guarded }

theorem forall_distinct (merges : Merges holds) (all : ∀ foothold ∈ footholds, holds foothold) :
    ∀ foothold ∈ distinct footholds, holds foothold := by
  have folded (map : Std.TreeMap (List Nat) Foothold) (keyed : Keyed map)
      (present : ∀ (key : List Nat) (foothold : Foothold), map[key]? = some foothold →
      holds foothold) : ∀ (key : List Nat) (foothold : Foothold),
      (footholds.foldl addTo map)[key]? = some foothold →
        holds foothold := by
    induction footholds generalizing map with
    | nil => exact present
    | cons first rest ih =>
      refine ih (fun foothold member => all foothold (.tail _ member)) _ keyed.addTo ?_
      intro key foothold found
      rw [getElem?_addTo] at found
      split at found
      · rename_i isKey
        have isFirst := all first (.head _)
        rcases before : map[key]? with _ | other <;> simp only [before, Option.some.injEq] at found
        · exact found ▸ isFirst
        · have same := Position.key_injective (isKey.trans (keyed key other before).symm)
          exact found ▸ merges first other same isFirst (present key other before)
      · exact present key foothold found
  intro _ member
  rw [distinct_eq, mem_map] at member
  rcases member with ⟨⟨key, found⟩, isFound, rfl⟩
  rw [Std.TreeMap.mem_toList_iff_getElem?_eq_some] at isFound
  exact folded ∅ keyed_empty (fun _ _ no => by simp at no) key found isFound

theorem assumptionOf_subset (guarded : ∀ foothold ∈ footholds, foothold.guarded → .safety ∈ limit) :
    assumptionOf footholds ⊆ limit := by
  simp only [assumptionOf]
  split
  · rename_i allGuarded
    cases footholds with
    | nil => simp at allGuarded
    | cons first =>
      simp only [isEmpty_cons, Bool.not_false, Bool.true_and, all_cons,
        Bool.and_eq_true] at allGuarded
      exact singleton_subset (guarded first (.head _) allGuarded.1)
  · exact empty_subset

end Foothold

section Prospects

variable {arena : Arena}

def Foothold.Behind (arena : Arena) (footholds : List Foothold) (token : Token)
    (foothold : Foothold) : Prop :=
  ∃ origin ∈ footholds, ∃ next, (token, next) ∈ (origin.position.ahead arena).reads ∧
    foothold = origin.moveTo next

theorem Prospects.behind_of_mem
    (member : (token, foothold) ∈ (footholds.map (Outlook.ofFoothold arena)).flatMap
      Outlook.reads) :
    foothold.Behind arena footholds token := by
  simp only [flatMap_map, mem_flatMap, Outlook.reads, Outlook.ofFoothold, mem_map, Prod.exists,
    Prod.mk.injEq] at member
  rcases member with ⟨origin, isOrigin, _, next, isRead, rfl, rfl⟩
  exact ⟨origin, isOrigin, next, isRead, rfl⟩

theorem Prospects.behind_of_mem_reads
    (member : (token, foothold) ∈ (ofFootholds arena footholds).reads) :
    foothold.Behind arena footholds token :=
  behind_of_mem (mem_of_mem_filter member)

theorem Prospects.behind_of_mem_markers {name : String}
    (member : (name, foothold) ∈ (ofFootholds arena footholds).markers) :
    foothold.Behind arena footholds (.marker name) := by
  simp only [ofFootholds, mem_filterMap, Prod.exists] at member
  rcases member with ⟨token, _, isRead, isMarker⟩
  cases token with
  | marker =>
    simp only [Option.some.injEq, Prod.mk.injEq] at isMarker
    rcases isMarker with ⟨rfl, rfl⟩
    exact behind_of_mem isRead
  | cell | reference => simp at isMarker

end Prospects

/-- Footholds of a kind call for no assumptions but some, and lead only to footholds of the kind. -/
structure Terms.Confines (terms : Terms) (limit : Assumptions) (holds : Foothold → Prop) : Prop
    where
  merges : Merges holds
  guarded : ∀ foothold, holds foothold → foothold.guarded → .safety ∈ limit
  reads : ∀ foothold, holds foothold → ∀ token next,
    (token, next) ∈ (foothold.position.ahead terms.arena).reads → holds (foothold.moveTo next) ∧
      match token with
      | .cell (.init _) => .validity ∈ terms.assumed → .validity ∈ limit
      | .cell .uninit => True
      | .reference _ => ∀ exercised ⊆ terms.assumed, exercised ⊆ limit
      | .marker _ => .safety ∈ terms.assumed → holds ⟨next, true⟩
  forgotten : ∀ foothold, holds foothold → ∀ width,
    ∀ next ∈ Position.passUninit terms.arena width [foothold.position], holds (foothold.moveTo next)
  runs : ∀ foothold, holds foothold → ∀ run, Position.Starts terms.arena foothold.position run →
    holds (foothold.moveTo (.root terms.arena run.body)) ∧
      ∀ rounds ≠ 0, holds (foothold.moveTo (run.after terms.arena rounds))

/-- The assumptions are among some, and the footholds of the pairings that must hold too are of a
kind. -/
structure Onward.Bounded (limit : Assumptions) (holds : Foothold → Prop) (onward : Onward) : Prop
    where
  exercised : onward.exercised ⊆ limit
  next : ∀ entry ∈ onward.next, ∀ foothold ∈ entry.2.footholds, holds foothold

theorem Onward.Bounded.append {first others : Onward} (isFirst : first.Bounded limit holds)
    (isOthers : others.Bounded limit holds) : (first ++ others).Bounded limit holds where
  exercised := union_subset isFirst.exercised isOthers.exercised
  next entry member := (mem_append.mp member).elim (isFirst.next entry) (isOthers.next entry)

theorem Onward.bounded_nothing : Onward.Bounded limit holds {} := ⟨empty_subset, by simp⟩

theorem Onward.bounded_single {distance : Nat} {source : Position} (isExercised : exercised ⊆ limit)
    (isNext : ∀ foothold ∈ footholds, holds foothold) :
    Onward.Bounded limit holds ⟨exercised, [(distance, ⟨source, footholds⟩)]⟩ where
  exercised := isExercised
  next entry member := by
    rw [mem_singleton.mp member]
    exact isNext

structure Entry.Confined (arena : Arena) (holds : Foothold → Prop) (entry : Entry) : Prop where
  footholds : ∀ foothold ∈ entry.footholds, holds foothold
  prospects : entry.prospects = .ofFootholds arena entry.footholds

namespace Terms

variable {terms : Terms} {entry : Entry} {source : Position} {onward : Onward} {pairing : Pairing}

namespace Confines

variable (confines : terms.Confines limit holds)
include confines

section

variable (all : ∀ foothold ∈ footholds, holds foothold)
include all

theorem assumptionOf_subset : assumptionOf footholds ⊆ limit :=
  Foothold.assumptionOf_subset fun foothold member =>
    confines.guarded foothold (all foothold member)

theorem behind (isBehind : foothold.Behind terms.arena footholds token) : holds foothold := by
  rcases isBehind with ⟨origin, isOrigin, next, isRead, rfl⟩
  exact (confines.reads origin (all origin isOrigin) token next isRead).1

theorem enter : (terms.enter footholds).Confined terms.arena holds := by
  refine ⟨?_, Entry.prospects_enter _ _ _ _⟩
  rw [Terms.enter]
  generalize terms.arena.states.size + 1 = rounds
  induction rounds generalizing footholds with
  | zero =>
    rw [Entry.footholds_enter_zero]
    exact all
  | succ _ ih =>
    by_cases opens : Entry.Opens terms.arena terms.assumed.safety footholds
    · rw [Entry.enter_succ opens]
      refine ih (forall_distinct confines.merges ?_)
      simp only [forall_mem_append, forall_mem_map]
      refine ⟨all, fun ⟨_, _⟩ isFresh => ?_⟩
      rcases Prospects.behind_of_mem_markers (mem_of_mem_filter isFresh) with
        ⟨origin, isOrigin, next, isRead, rfl⟩
      exact (confines.reads origin (all origin isOrigin) _ next isRead).2 opens.1
    · rw [Entry.enter_of_not_opens opens]
      exact all

end

section Entry

variable (confined : entry.Confined terms.arena holds)
include confined

theorem read (member : (token, foothold) ∈ entry.prospects.reads) : holds foothold := by
  rw [confined.prospects] at member
  exact confines.behind confined.footholds (Prospects.behind_of_mem_reads member)

theorem matchClass {part : ByteClass}
    (member : part ∈ ByteClass.partition values entry.prospects.reads)
    (found : terms.matchClass entry part = .ok (exercised, footholds)) :
    exercised ⊆ limit ∧ ∀ foothold ∈ footholds, holds foothold := by
  have inPart : ∀ foothold ∈ part.footholds, holds foothold := by
    intro _ isFoothold
    rcases ByteClass.exists_read_of_partition member isFoothold with ⟨_, isRead⟩
    exact confines.read confined isRead
  have behindValues : ∀ foothold ∈ entry.prospects.behindValues, holds foothold := by
    intro foothold member
    rcases Prospects.mem_behindValues.mp member with ⟨_, isRead⟩
    exact confines.read confined isRead
  simp only [Terms.matchClass] at found
  split at found
  · simp only [Except.ok.injEq, Prod.mk.injEq] at found
    rcases found with ⟨rfl, rfl⟩
    exact ⟨confines.assumptionOf_subset inPart, forall_distinct confines.merges inPart⟩
  · split at found
    · rename_i allowed
      simp only [Except.ok.injEq, Prod.mk.injEq] at found
      rcases found with ⟨rfl, rfl⟩
      simp only [Bool.and_eq_true, Bool.not_eq_true', isEmpty_eq_false_iff_exists_mem] at allowed
      rcases allowed with ⟨isValid, foothold, member⟩
      rcases Prospects.mem_behindValues.mp member with ⟨_, isRead⟩
      rw [confined.prospects] at isRead
      rcases Prospects.behind_of_mem_reads isRead with ⟨origin, isOrigin, next, isAhead, _⟩
      have isLimited :=
        (confines.reads origin (confined.footholds origin isOrigin) _ next isAhead).2 isValid
      exact ⟨union_subset (singleton_subset isLimited) (confines.assumptionOf_subset behindValues),
        forall_distinct confines.merges behindValues⟩
    · cases found

theorem matchClasses {parts : List ByteClass}
    (allParts : ∀ part ∈ parts, part ∈ ByteClass.partition values entry.prospects.reads)
    (found : terms.matchClasses entry source parts = .ok onward) : onward.Bounded limit holds := by
  induction parts generalizing onward with
  | nil =>
    rw [← Except.ok.inj found]
    exact Onward.bounded_nothing
  | cons part rest ih =>
    simp only [Terms.matchClasses] at found
    split at found
    · cases found
    · rename_i exercised footholds isOk
      have first := confines.matchClass confined (allParts part (.head _)) isOk
      split at found
      · cases found
      · rename_i others isOthers
        rw [← Except.ok.inj found]
        exact .append (Onward.bounded_single first.1 first.2)
          (ih (fun other member => allParts other (.tail _ member)) isOthers)

theorem matchUninit (found : entry.matchUninit source = .ok onward) :
    onward.Bounded limit holds := by
  have behind : ∀ foothold ∈ entry.behindUninit, holds foothold :=
    fun _ member => confines.read confined (Entry.mem_behindUninit.mp member)
  simp only [Entry.matchUninit] at found
  split at found
  · cases found
  · rw [← Except.ok.inj found]
    exact Onward.bounded_single (confines.assumptionOf_subset behind)
      (forall_distinct confines.merges behind)

theorem matchMarker (before : ∀ foothold ∈ footholds, holds foothold) (name : String) :
    (entry.matchMarker source footholds name).Bounded limit holds := by
  refine Onward.bounded_single empty_subset (forall_distinct confines.merges ?_)
  rw [forall_mem_append]
  refine ⟨before, fun _ member => ?_⟩
  simp only [confined.prospects, mem_filterMap, Prod.exists] at member
  rcases member with ⟨_, _, isMarker, isFound⟩
  split at isFound
  · rw [← Option.some.inj isFound]
    exact confines.behind confined.footholds (Prospects.behind_of_mem_markers isMarker)
  · cases isFound

end Entry

end Confines

def Modest (assumed : Assumptions) (keeps : Progress → Prop) (nested : Nested) : Prop :=
  ∀ source destination, Yields keeps (nested source destination) (· ⊆ assumed)

theorem yields_compareReferents (modest : Modest terms.assumed keeps nested)
    (first second : LayoutId) :
    Yields keeps (compareReferents nested first second) (· ⊆ terms.assumed) := by
  apply (modest first second).attempt.bind
  intro verdict holds
  cases verdict with
  | ok exercised => exact yields_pure (holds exercised rfl)
  | error => exact yields_throw

theorem promise_subset (assumption : Assumption) {kept : Prop} [Decidable kept]
    {diagnostic : Diagnostic} (found : terms.promise assumption kept diagnostic = .ok exercised) :
    exercised ⊆ terms.assumed := by
  rcases promise_eq_ok assumption found with ⟨_, rfl⟩ | ⟨assumed, rfl⟩
  · exact empty_subset
  · exact singleton_subset assumed

section Modest

variable (modest : Modest terms.assumed keeps nested)
include modest

theorem yields_compareReferences (source destination : Reference) :
    Yields keeps (terms.compareReferences nested source destination) (· ⊆ terms.assumed) := by
  rw [compareReferences]
  have formed : Check.Yields keeps (Check.ofExcept (source.compareForm destination))
      fun _ => True := yields_ofExcept fun _ _ => trivial
  apply formed.bind
  intro _ _
  apply (yields_ofExcept fun _ => promise_subset .alignment).bind
  intro aligned isAligned
  apply (yields_ofExcept fun _ => promise_subset .lifetimes).bind
  intro outlived isOutlived
  apply (yields_compareReferents modest _ _).bind
  intro forth isForth
  have soFar := union_subset (union_subset isAligned isOutlived) isForth
  cases destination.access with
  | shared => exact yields_pure soFar
  | exclusive =>
    apply (yields_compareReferents modest _ _).bind
    intro _ isBack
    exact yields_pure (union_subset soFar isBack)

end Modest

section Confined

variable (confines : terms.Confines limit holds) (modest : Modest terms.assumed keeps nested)
include confines modest

section Entry

variable (confined : entry.Confined terms.arena holds)
include confined

theorem yields_tryReferences (source : Reference)
    (allReads : ∀ read ∈ reads, read ∈ entry.prospects.reads) :
    Yields keeps (terms.tryReferences nested source reads) fun coverage =>
      coverage.exercised ⊆ limit ∧ ∀ foothold ∈ coverage.footholds, holds foothold := by
  induction reads with
  | nil => exact yields_pure ⟨empty_subset, by simp⟩
  | cons read _ ih =>
    have others := ih fun other member => allReads other (.tail _ member)
    rcases read with ⟨token, _⟩
    cases token with
    | cell | marker => exact others
    | reference target =>
      have isRead := allReads _ (.head _)
      rw [tryReferences]
      apply (yields_compareReferences modest source target).attempt.bind
      intro verdict needed
      apply others.bind
      intro _ covered
      cases verdict with
      | error => exact yields_pure covered
      | ok exercised =>
        refine yields_pure ⟨union_subset ?_ covered.1, ?_⟩
        · rw [confined.prospects] at isRead
          rcases Prospects.behind_of_mem_reads isRead with ⟨origin, isOrigin, next, isAhead, _⟩
          have limited :=
            (confines.reads origin (confined.footholds origin isOrigin) _ next isAhead).2
          exact limited exercised (needed exercised rfl)
        · rw [forall_mem_cons]
          exact ⟨confines.read confined isRead, covered.2⟩

theorem yields_matchReference (reference : Reference) :
    Yields keeps (terms.matchReference nested entry source reference)
      (Onward.Bounded limit holds) := by
  rw [matchReference]
  apply (yields_tryReferences confines modest confined reference fun _ => id).bind
  intro coverage covered
  have all : ∀ foothold ∈ coverage.footholds ++ entry.footholds.flatMap fun foothold =>
      (Position.passUninit terms.arena reference.width [foothold.position]).map foothold.moveTo,
      holds foothold := by
    rw [forall_mem_append]
    refine ⟨covered.2, fun _ member => ?_⟩
    simp only [mem_flatMap, mem_map] at member
    rcases member with ⟨origin, isOrigin, position, passed, rfl⟩
    exact confines.forgotten origin (confined.footholds origin isOrigin) _ position passed
  simp only
  split
  · exact yields_throw
  · exact yields_pure (Onward.bounded_single
      (union_subset covered.1 (confines.assumptionOf_subset all))
      (forall_distinct confines.merges all))

theorem yields_matchToken (before : ∀ foothold ∈ footholds, holds foothold) (token : Token) :
    Yields keeps (terms.matchToken nested entry footholds source token)
      (Onward.Bounded limit holds) := by
  cases token with
  | cell contents =>
    cases contents with
    | init => exact yields_ofExcept fun _ => confines.matchClasses confined fun _ => id
    | uninit => exact yields_ofExcept fun _ => confines.matchUninit confined
  | reference target => exact yields_matchReference confines modest confined target
  | marker name => exact yields_pure (confines.matchMarker confined before name)

theorem yields_matchTokens (before : ∀ foothold ∈ footholds, holds foothold)
    (reads : List (Token × Position)) :
    Yields keeps (terms.matchTokens nested entry footholds reads) (Onward.Bounded limit holds) := by
  induction reads with
  | nil => exact yields_pure Onward.bounded_nothing
  | cons read _ ih =>
    rcases read with ⟨token, _⟩
    apply (yields_matchToken confines modest confined before token).bind
    intro _ isFirst
    apply ih.bind
    intro _ isOthers
    exact yields_pure (isFirst.append isOthers)

end Entry

theorem yields_walkStep (all : ∀ foothold ∈ pairing.footholds, holds foothold) :
    Yields keeps (terms.walkStep nested pairing) (Onward.Bounded limit holds) := by
  have confined := confines.enter all
  rw [walkStep]
  simp only
  split
  · rename_i isOver
    refine yields_pure ⟨?_, by simp⟩
    split
    · exact empty_subset
    · -- The destination is over at some foothold, and each such foothold is guarded.
      rename_i notPlainly
      rw [confined.prospects] at isOver notPlainly
      rw [Bool.not_eq_true] at notPlainly
      simp only [Prospects.ofFootholds, any_map, any_eq_true, Function.comp_apply,
        any_eq_false] at isOver notPlainly
      rcases isOver with ⟨foothold, member, ended⟩
      have isGuarded := notPlainly foothold member
      rw [ended] at isGuarded
      exact singleton_subset (confines.guarded foothold (confined.footholds foothold member)
        (by simpa [Outlook.ofFoothold] using isGuarded))
  · split
    · exact yields_throw
    · exact yields_matchTokens confines modest confined all _

omit modest in
theorem bounded_runStep (all : ∀ foothold ∈ pairing.footholds, holds foothold)
    (taken : terms.runStep? pairing = some onward) : onward.Bounded limit holds := by
  simp only [runStep?] at taken
  split at taken
  · rename_i foothold isOnly
    split at taken
    · rename_i first second _ isRun
      split at taken
      · cases taken
      · cases taken
      · split at taken
        · rename_i several
          have leads :=
            confines.runs foothold (all foothold (by simp [isOnly])) second ⟨isRun, by omega⟩
          rw [← Option.some.inj taken]
          refine ⟨empty_subset, ?_⟩
          simp only [forall_mem_cons, not_mem_nil, false_implies, implies_true, and_true]
          exact ⟨leads.1, leads.2 _ several.2⟩
        · cases taken
    · cases taken
  · cases taken

theorem yields_step (counts : ∀ progress tally, keeps progress → keeps { progress with tally })
    (all : ∀ foothold ∈ pairing.footholds, holds foothold) :
    Yields keeps (terms.step nested pairing) (Onward.Bounded limit holds) := by
  rw [step]
  split
  · rename_i onward taken
    intro progress kept
    exact ⟨counts progress _ kept, bounded_runStep confines all taken⟩
  · exact yields_walkStep confines modest all

end Confined

section Survey

variable {step : Pairing → Check Onward}

section

variable (counts : ∀ progress tally, keeps progress → keeps { progress with tally })
include counts

variable (terms) in
theorem yields_surveyFrom (each : ∀ pairing, (∀ foothold ∈ pairing.footholds, holds foothold) →
      Yields keeps (step pairing) (Onward.Bounded limit holds)) (left : Nat) {agenda : Agenda}
    (all : ∀ pairing ∈ Agenda.pending agenda.queue, ∀ foothold ∈ pairing.footholds, holds foothold)
    (isExercised : exercised ⊆ limit) :
    Yields keeps (terms.surveyFrom step left agenda exercised) (· ⊆ limit) := by
  induction left generalizing agenda exercised with
  | zero =>
    rw [surveyFrom.eq_def]
    simp only
    split
    · exact yields_pure isExercised
    · exact yields_throw
  | succ left ih =>
    rw [surveyFrom.eq_def]
    simp only
    split
    · exact yields_pure isExercised
    · rename_i offset pairing rest found
      rw [(Agenda.next_eq_some found).1] at all
      intro progress kept
      rw [get_bind]
      split
      · exact kept
      · have counted (add : Tally → Tally) : Yields keeps (count add) fun _ => True :=
          fun progress kept => ⟨counts progress _ kept, trivial⟩
        refine ((counted _).bind fun _ _ => ?_) progress kept
        apply (each pairing (all pairing (.head _))).attempt.bind
        intro verdict holds
        cases verdict with
        | error => exact yields_throw
        | ok onward =>
          have demanded := holds onward rfl
          apply (counted _).bind
          intro _ _
          refine ih (fun other member => ?_) (union_subset isExercised demanded.exercised)
          rcases Agenda.mem_pending_addAll member with isOld | ⟨entry, isEntry, rfl⟩
          · exact all other (.tail _ isOld)
          · exact demanded.next entry isEntry

theorem yields_survey (confines : terms.Confines limit holds)
    (modest : Modest terms.assumed keeps nested) (inquiry : Inquiry)
    (root : holds { position := .root terms.arena inquiry.2 }) :
    Yields keeps (terms.survey (terms.step nested) inquiry.1 inquiry.2) (· ⊆ limit) := by
  intro progress kept
  refine terms.yields_surveyFrom counts (fun _ => yields_step confines modest counts)
    (terms.budget.maxPairs - progress.tally.pairs) ?_ empty_subset progress kept
  intro _ member
  rw [mem_singleton.mp member]
  simpa [roots] using root

end

theorem confines_warranted :
    terms.Confines terms.assumed fun foothold => foothold.guarded → .safety ∈ terms.assumed where
  merges first second _ isFirst _ isGuarded := isFirst (Bool.and_eq_true _ _ ▸ isGuarded).1
  guarded _ warranted := warranted
  reads foothold warranted token next _ := by
    refine ⟨warranted, ?_⟩
    split
    · exact id
    · trivial
    · exact fun _ => id
    · exact fun isSafe _ => isSafe
  forgotten _ warranted _ _ _ := warranted
  runs _ warranted _ _ := ⟨warranted, fun _ _ => warranted⟩

end Survey

end Terms

def Progress.Modest (assumed : Assumptions) (progress : Progress) : Prop :=
  ∀ inquiry exercised, progress.decided.lookup inquiry = some (.ok exercised) → exercised ⊆ assumed

namespace Terms

variable {terms : Terms} {progress : Progress} {source destination : LayoutId}

theorem modest_finish {after : Progress} {inquiry : Inquiry} {outcome : Outcome}
    (modest : after.Modest terms.assumed)
    (isOutcome : ∀ exercised, outcome = .ok exercised → exercised ⊆ terms.assumed) :
    (progress.finish after inquiry outcome).Modest terms.assumed := by
  have closed : Progress.Modest terms.assumed { after with
      decided := (inquiry, outcome) :: after.decided } := by
    intro other exercised found
    rcases lookup_cons_eq_some found with ⟨_, same⟩ | before
    · exact isOutcome exercised same
    · exact modest other exercised before
  simp only [Progress.finish]
  split
  · split
    · exact modest
    · exact closed
  · exact closed

theorem kept_includesBy {step : Nested → Pairing → Check Onward} {levels : Nat}
    (modest : progress.Modest terms.assumed)
    (new : progress.decided.lookup (source, destination) = none →
      progress.depth? (source, destination) = none →
      Kept (Progress.Modest terms.assumed) (· ⊆ terms.assumed)
        (terms.includesBy step levels source destination progress)) :
    Kept (Progress.Modest terms.assumed) (· ⊆ terms.assumed)
      (terms.includesBy step levels source destination progress) := by
  rcases decided : progress.decided.lookup (source, destination) with _ | ⟨_⟩ | ⟨_⟩
  · rcases isDepth : progress.depth? (source, destination) with _ | _
    · exact new decided isDepth
    · rw [includesBy_of_underWay decided isDepth]
      exact ⟨modest, empty_subset⟩
  · rw [includesBy_of_decided decided]
    exact modest
  · rw [includesBy_of_decided decided]
    exact ⟨modest, modest _ _ decided⟩

theorem modest_includesBy (levels : Nat) :
    Modest terms.assumed (Progress.Modest terms.assumed) (terms.includesBy terms.step levels) := by
  have counts (progress : Progress) (tally : Tally) (modest : progress.Modest terms.assumed) :=
    modest
  induction levels with
  | zero =>
    intro _ _ _ modest
    refine kept_includesBy modest fun undecided isNew => ?_
    rw [includesBy_stops undecided isNew rfl]
    exact modest
  | succ levels ih =>
    intro source destination progress modest
    refine kept_includesBy modest fun undecided isNew => ?_
    rw [includesBy_of_new undecided isNew (Nat.succ_ne_zero levels), Nat.succ_sub_one]
    have surveyed :=
      yields_survey counts confines_warranted ih (source, destination) (fun no => nomatch no)
        (progress.begin (source, destination)) modest
    rcases result : terms.survey (terms.step (terms.includesBy terms.step levels)) source
      destination (progress.begin (source, destination)) with
        ⟨exercised, after⟩ | ⟨diagnostic, after⟩ <;> rw [result] at surveyed
    · refine ⟨modest_finish surveyed.1 fun _ same => ?_, surveyed.2⟩
      rw [← Except.ok.inj same]
      exact surveyed.2
    · exact modest_finish surveyed fun _ no => by cases no

theorem kept_check (modest : progress.Modest terms.assumed) :
    (terms.check source destination progress).2.Modest terms.assumed ∧
      ∀ exercised, (terms.check source destination progress).1 = .ok exercised →
        exercised ⊆ terms.assumed := by
  have outcome := terms.modest_includesBy terms.budget.maxDepth source destination progress modest
  simp only [check, checkBy]
  rcases result : terms.includesBy terms.step terms.budget.maxDepth source destination progress with
    ⟨used, later⟩ | ⟨diagnostic, later⟩ <;> rw [result] at outcome
  · refine ⟨outcome.1, fun _ same => ?_⟩
    rw [← Except.ok.inj same]
    exact outcome.2
  · exact ⟨outcome, fun _ no => by cases no⟩

theorem modest_start : Progress.Modest terms.assumed {} := by
  intro _ _ no
  simp at no

theorem modest_after (modest : progress.Modest terms.assumed) (earlier : List Inquiry) :
    (terms.after earlier progress).Modest terms.assumed := by
  induction earlier generalizing progress with
  | nil => exact modest
  | cons _ _ ih => exact ih (kept_check modest).1

/-- Whatever the terms, a check that accepts has needed no assumptions but those given. -/
theorem check_subset (accepted : (terms.check source destination {}).1 = .ok exercised) :
    exercised ⊆ terms.assumed :=
  (kept_check modest_start).2 exercised accepted

/-- On any arena, about any layouts and whatever the budget, no check in a series of them needs
assumptions but those given. -/
theorem check_subset_after (earlier : List Inquiry)
    (accepted : (terms.check source destination (terms.after earlier {})).1 = .ok exercised) :
    exercised ⊆ terms.assumed :=
  (kept_check (modest_after modest_start earlier)).2 exercised accepted

/-- That a byte can be taken for a boolean is decided in the first of three checks, and the last one
only looks it up. It has needed validity, of all assumptions. -/
theorem check_subset_after_references :
    let terms : Terms := { arena := Workshop.references.arena, assumed := .everything }
    let validly : Assumptions := { validity := true }
    let earlier : List Inquiry := [(⟨2⟩, ⟨0⟩), (⟨1⟩, ⟨3⟩)]
    (terms.check ⟨2⟩ ⟨0⟩ (terms.after earlier {})).1.toOption = some validly ∧
    validly ⊆ terms.assumed := by
  intro terms validly earlier
  have accepted : (terms.check ⟨2⟩ ⟨0⟩ (terms.after earlier {})).1.toOption = some validly := by
    decide +kernel
  exact ⟨accepted, check_subset_after earlier (eq_ok_of_toOption accepted)⟩

end Terms

end Recast
