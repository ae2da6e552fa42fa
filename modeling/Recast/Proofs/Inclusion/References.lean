import Recast.Proofs.Inclusion.Account
import Recast.Proofs.Inclusion.Cells

/-!
# Reading references

A reference leads on where the destination has a reference that may replace it, or enough bytes
without a value. The upper rules may relate those referents about which the answer to an inquiry was
yes (`Terms.Upper`), and the lower rules must not relate those about which it was no
(`Terms.Lower`).
-/

namespace Recast

open Position List Check
open Foothold (positions mem_positions)

variable {plot : Plot} {proper : Token → Prop}

namespace Terms

variable {terms : Terms} {account : Account} {budgets : Filter Budget}
  {exercised more : Assumptions} {progress later : Progress} {rules upper lower : Rules}
  {diagnostic : Diagnostic}

structure Upper (terms : Terms) (account : Account) (exercised : Assumptions) (progress : Progress)
    (rules : Rules) : Prop where
  assumed : ∀ assumption ∈ exercised, assumption ∈ terms.assumed → assumption ∈ rules.assumed
  safe : .safety ∈ terms.assumed → .safety ∈ rules.assumed
  outlives : ∀ longer shorter, terms.outlives longer shorter → rules.outlives longer shorter
  related : ∀ inquiry used, (∀ assumption ∈ used, assumption ∈ exercised) →
    account.Yes inquiry used progress → rules.related inquiry

structure Lower (terms : Terms) (account : Account) (progress : Progress) (rules : Rules) :
    Prop where
  assumed : ∀ assumption ∈ rules.assumed, assumption ∈ terms.assumed
  strict : .validity ∉ rules.assumed
  outlives : ∀ longer shorter, rules.outlives longer shorter → terms.outlives longer shorter
  related : ∀ inquiry, rules.related inquiry → ¬ account.No inquiry progress

theorem Upper.earlier (upper : terms.Upper account more later rules)
    (goesOn : progress.Later later) (subset : ∀ assumption ∈ exercised, assumption ∈ more) :
    terms.Upper account exercised progress rules where
  assumed assumption used := upper.assumed assumption (subset assumption used)
  safe := upper.safe
  outlives := upper.outlives
  related inquiry used inside yes := by
    refine upper.related inquiry used (fun _ member => subset _ (inside _ member)) ?_
    exact account.yes_later inquiry used progress later goesOn yes

theorem Lower.earlier (lower : terms.Lower account later rules) (goesOn : progress.Later later) :
    terms.Lower account progress rules where
  assumed := lower.assumed
  strict := lower.strict
  outlives := lower.outlives
  related inquiry related no :=
    lower.related inquiry related (account.no_later inquiry progress later goesOn no)

/-- Inquiries about layouts of the arena are answered as the account has it. -/
def Answers (account : Account) (budgets : Filter Budget) (layouts : Nat)
    (nested : Budget → Nested) : Prop :=
  ∀ source destination progress, source.index < layouts → destination.index < layouts →
    account.Sound progress →
    Ensures account budgets (fun budget => nested budget source destination) progress
      (account.Yes (source, destination)) (account.No (source, destination))

variable {layouts : Nat} {nested : Budget → Nested} {source destination : Reference}

theorem ensures_compareReferents (answers : Answers account budgets layouts nested)
    {first second : LayoutId} (firstInside : first.index < layouts)
    (secondInside : second.index < layouts) (sound : account.Sound progress) :
    Ensures account budgets (fun budget => compareReferents (nested budget) first second)
      progress (account.Yes (first, second)) (account.No (first, second)) := by
  refine (answers first second progress firstInside secondInside sound).attempt_bind ?_ ?_
  · intro _ _ _ laterSound yes
    exact ensures_pure laterSound yes
  · intro _ _ _ laterSound no
    exact ensures_throw laterSound no

theorem compareForm_eq_ok (found : source.compareForm destination = .ok ()) :
    ¬ (source.access = .shared ∧ destination.access = .exclusive) ∧
    source.width = destination.width := by
  simp only [Reference.compareForm] at found
  split at found
  · simp at found
  · rename_i access
    split at found
    · simp at found
    · rename_i width
      exact ⟨access, by simpa using width⟩

theorem compareForm_eq_error (found : source.compareForm destination = .error diagnostic) :
    ¬ rules.Replaces source destination := by
  intro replaces
  simp only [Reference.compareForm] at found
  split at found
  · rename_i access
    exact replaces.access access
  · split at found
    · rename_i width
      exact width replaces.width
    · simp at found

section Promises

variable {kept : Prop} [Decidable kept]

/-- A promise is kept, or it is assumed that it is. -/
def promise (terms : Terms) (assumption : Assumption) (kept : Prop) [Decidable kept]
    (diagnostic : Diagnostic) : Outcome :=
  if kept then .ok ∅ else if assumption ∈ terms.assumed then .ok {assumption} else .error diagnostic

theorem promise_eq_ok (assumption : Assumption)
    (found : terms.promise assumption kept diagnostic = .ok exercised) :
    kept ∧ exercised = ∅ ∨ assumption ∈ terms.assumed ∧ exercised = {assumption} := by
  simp only [promise] at found
  split at found
  · exact .inl ⟨‹_›, (Except.ok.inj found).symm⟩
  · split at found
    · exact .inr ⟨‹_›, (Except.ok.inj found).symm⟩
    · cases found

theorem promise_eq_error (assumption : Assumption) {other : Diagnostic}
    (found : terms.promise assumption kept diagnostic = .error other) :
    ¬ kept ∧ assumption ∉ terms.assumed := by
  simp only [promise] at found
  split at found
  · cases found
  · split at found
    · cases found
    · exact ⟨‹_›, ‹_›⟩

end Promises

theorem ensures_compareReferences (answers : Answers account budgets layouts nested)
    (sourceInside : source.referent.index < layouts)
    (destinationInside : destination.referent.index < layouts) (sound : account.Sound progress) :
    Ensures account budgets
      (fun budget => terms.compareReferences (nested budget) source destination) progress
      (fun exercised later => ∀ rules, terms.Upper account exercised later rules →
        rules.Replaces source destination)
      (fun later => ∀ rules, terms.Lower account later rules →
        ¬ rules.Replaces source destination) := by
  simp only [compareReferences]
  refine ensures_ofExcept_bind sound ?_ fun _ found rules _ => compareForm_eq_error found
  intro _ isForm
  rcases compareForm_eq_ok isForm with ⟨access, width⟩
  refine ensures_ofExcept_bind sound ?_ fun _ found rules lower replaces => ?_
  swap
  · have broken := promise_eq_error .alignment found
    exact replaces.aligned.elim broken.1 fun assumed => broken.2 (lower.assumed _ assumed)
  intro aligned isAligned
  refine ensures_ofExcept_bind sound ?_ fun _ found rules lower replaces => ?_
  swap
  · have broken := promise_eq_error .lifetimes found
    exact replaces.outlived.elim (fun outlived => broken.1 (lower.outlives _ _ outlived))
      fun assumed => broken.2 (lower.assumed _ assumed)
  intro outlived isOutlived
  refine (ensures_compareReferents answers sourceInside destinationInside sound).bind ?_
    fun later _ no rules lower replaces => lower.related _ replaces.forth no
  intro forth afterForth _ forthSound yes
  have replaces {exercised : Assumptions} {later : Progress} {rules : Rules}
      (goesOn : afterForth.Later later) (inside : ∀ assumption ∈ aligned ∪ outlived ∪ forth,
      assumption ∈ exercised) (back : destination.access = .exclusive →
        rules.related (destination.referent, source.referent))
      (upper : terms.Upper account exercised later rules) : rules.Replaces source destination := by
    simp only [Assumptions.mem_union] at inside
    refine ⟨access, width, ?_, ?_, ?_, back⟩
    · refine (promise_eq_ok .alignment isAligned).imp And.left fun assumed =>
        upper.assumed _ (inside _ ?_) assumed.1
      exact .inl (.inl (assumed.2 ▸ Assumptions.mem_singleton.mpr rfl))
    · refine (promise_eq_ok .lifetimes isOutlived).imp (fun kept => upper.outlives _ _ kept.1)
        fun assumed => upper.assumed _ (inside _ ?_) assumed.1
      exact .inl (.inr (assumed.2 ▸ Assumptions.mem_singleton.mpr rfl))
    · exact upper.related _ forth (fun _ used => inside _ (.inr used))
        (account.yes_later _ _ _ _ goesOn yes)
  split
  · rename_i isShared
    refine ensures_pure forthSound fun rules upper => ?_
    exact replaces (.refl _) (fun _ => id) (by simp [isShared]) upper
  · refine (ensures_compareReferents answers destinationInside sourceInside forthSound).bind ?_ ?_
    · intro back _ goesOn backSound yesBack
      refine ensures_pure backSound fun rules upper => ?_
      refine replaces goesOn (fun _ used => Assumptions.mem_union.mpr (.inl used)) (fun _ => ?_)
        upper
      exact upper.related _ back (fun _ used => Assumptions.mem_union.mpr (.inr used)) yesBack
    · rename_i isExclusive
      exact fun _ _ no _ lower replaces => lower.related _ (replaces.back isExclusive) no

variable {reads : List (Token × Foothold)} {token : Token} {foothold : Foothold}
  {coverage : Coverage}

/-- Among some reads, the references that may replace the source's are found: no more than the upper
rules allow, and no fewer than the lower rules do. -/
structure Tried (terms : Terms) (account : Account) (source : Reference)
    (reads : List (Token × Foothold)) (coverage : Coverage) (progress : Progress) : Prop where
  upper : ∀ rules, terms.Upper account coverage.exercised progress rules →
    ∀ foothold ∈ coverage.footholds, ∃ target, (.reference target, foothold) ∈ reads ∧
      rules.Replaces source target
  lower : ∀ rules, terms.Lower account progress rules → ∀ target foothold,
    (.reference target, foothold) ∈ reads → rules.Replaces source target →
    foothold ∈ coverage.footholds

theorem Tried.skip (tried : terms.Tried account source reads coverage progress)
    (notReplaced : ∀ rules target, terms.Lower account progress rules →
      token = .reference target → ¬ rules.Replaces source target) :
    terms.Tried account source ((token, foothold) :: reads) coverage progress where
  upper rules isUpper found isFound := by
    rcases tried.upper rules isUpper found isFound with ⟨target, member, replaces⟩
    exact ⟨target, mem_cons_of_mem _ member, replaces⟩
  lower rules isLower target found member replaces := by
    rcases mem_cons.mp member with same | inRest
    · simp only [Prod.mk.injEq] at same
      exact absurd replaces (notReplaced rules target isLower same.1.symm)
    · exact tried.lower rules isLower target found inRest replaces

theorem Tried.add {target : Reference} (tried : terms.Tried account source reads coverage progress)
    (replaced : ∀ rules, terms.Upper account exercised progress rules →
      rules.Replaces source target) :
    terms.Tried account source ((.reference target, foothold) :: reads)
      { coverage with
        exercised := exercised ∪ coverage.exercised
        footholds := foothold :: coverage.footholds } progress where
  upper rules isUpper found isFound := by
    rcases mem_cons.mp isFound with rfl | isOther
    · have earlier := isUpper.earlier (.refl progress) fun assumption used =>
        Assumptions.mem_union.mpr (.inl used)
      exact ⟨target, mem_cons_self, replaced rules earlier⟩
    · have earlier := isUpper.earlier (.refl progress) fun _ used =>
        Assumptions.mem_union.mpr (.inr used)
      rcases tried.upper rules earlier found isOther with ⟨other, member, replaces⟩
      exact ⟨other, mem_cons_of_mem _ member, replaces⟩
  lower rules isLower other found member replaces := by
    rcases mem_cons.mp member with same | inRest
    · simp only [Prod.mk.injEq] at same
      exact same.2 ▸ mem_cons_self
    · exact mem_cons_of_mem _ (tried.lower rules isLower other found inRest replaces)

theorem ensures_tryReferences (answers : Answers account budgets layouts nested)
    (sourceInside : source.referent.index < layouts)
    (readsInside : ∀ target foothold, (.reference target, foothold) ∈ reads →
      target.referent.index < layouts) (sound : account.Sound progress) :
    Ensures account budgets (fun budget => terms.tryReferences (nested budget) source reads)
      progress (terms.Tried account source reads) (fun _ => False) := by
  induction reads generalizing progress with
  | nil => exact ensures_pure sound ⟨by simp, by simp⟩
  | cons first rest ih =>
    rcases first with ⟨token, foothold⟩
    have restInside (target : Reference) (found : Foothold)
        (member : (.reference target, found) ∈ rest) : target.referent.index < layouts :=
      readsInside target found (mem_cons_of_mem _ member)
    cases token with
    | cell | marker =>
      exact (ih restInside sound).mono (fun _ _ _ tried => tried.skip (by simp)) fun _ _ no => no
    | reference target =>
      simp only [tryReferences]
      have targetInside := readsInside target foothold mem_cons_self
      refine (ensures_compareReferences answers sourceInside targetInside sound).attempt_bind ?_ ?_
      · intro _ _ _ firstSound isReplaced
        refine (ih restInside firstSound).bind ?_ fun _ _ no => no
        intro _ _ goesOn lastSound tried
        refine ensures_pure lastSound (tried.add fun rules upper => ?_)
        exact isReplaced rules (upper.earlier goesOn fun _ => id)
      · intro _ _ _ firstSound isRefused
        refine (ih restInside firstSound).bind ?_ fun _ _ no => no
        intro others last goesOn lastSound tried
        have skipped : terms.Tried account source ((.reference target, foothold) :: rest) others
            last := by
          refine tried.skip fun rules _ lower same => ?_
          simp only [Token.reference.injEq] at same
          exact same ▸ isRefused rules (lower.earlier goesOn)
        exact ensures_pure lastSound ⟨skipped.upper, skipped.lower⟩

section Forgotten

variable {arena : Arena} {root : LayoutId} {position next : Position}

theorem mem_afterUninit (charts : arena.Charts plot proper)
    (within : position.Within arena plot root) :
    next ∈ position.afterUninit arena ↔ Reads arena position (.cell .uninit) next := by
  simp only [afterUninit, mem_filterMap, Prod.exists, mem_reads_ahead charts within]
  constructor
  · rintro ⟨token, after, reads, same⟩
    split at same
    · rename_i isUninit
      simp only [Option.some.injEq] at same
      exact same ▸ isUninit ▸ reads
    · simp at same
  · exact fun reads => ⟨_, next, reads, by simp⟩

theorem mem_passUninit (charts : arena.Charts plot proper) {width : Nat} {positions : List Position}
    (located : ∀ position ∈ positions, ∃ root, position.Within arena plot root) :
    next ∈ passUninit arena width positions ↔
      ∃ position ∈ positions, Rules.Forgets arena width position next := by
  induction width generalizing positions with
  | zero =>
    rw [passUninit]
    constructor
    · exact fun member => ⟨next, member, .done next⟩
    · rintro ⟨_, member, forgets⟩
      cases forgets with
      | done => exact member
  | succ width ih =>
    have mem_after (middle : Position) :
        middle ∈ (positions.flatMap (afterUninit arena)).eraseDups ↔
          ∃ position ∈ positions, Reads arena position (.cell .uninit) middle := by
      rw [mem_eraseDups, mem_flatMap]
      refine exists_congr fun position => and_congr_right fun member => ?_
      rcases located position member with ⟨_, within⟩
      exact mem_afterUninit charts within
    have afterLocated (middle : Position)
        (member : middle ∈ (positions.flatMap (afterUninit arena)).eraseDups) : ∃ root,
        middle.Within arena plot root := by
      rcases (mem_after middle).mp member with ⟨position, isPosition, reads⟩
      rcases located position isPosition with ⟨root, within⟩
      exact ⟨root, reads.within charts within⟩
    have stepped : next ∈ passUninit arena (width + 1) positions ↔
        next ∈ passUninit arena width (positions.flatMap (afterUninit arena)).eraseDups := by
      cases positions with
      | nil => cases width <;> simp [passUninit]
      | cons => rw [passUninit]; simp
    rw [stepped, ih afterLocated]
    constructor
    · rintro ⟨middle, member, forgets⟩
      rcases (mem_after middle).mp member with ⟨position, isPosition, reads⟩
      exact ⟨position, isPosition, .more reads forgets⟩
    · rintro ⟨position, isPosition, forgets⟩
      cases forgets with
      | more reads onward => exact ⟨_, (mem_after _).mpr ⟨position, isPosition, reads⟩, onward⟩

/-- The footholds behind as many bytes without a value as a reference has. -/
def forgotten (arena : Arena) (width : Nat) (footholds : List Foothold) : List Foothold :=
  footholds.flatMap fun foothold =>
    (Position.passUninit arena width [foothold.position]).map foothold.moveTo

theorem mem_forgotten (charts : arena.Charts plot proper) {width : Nat} {footholds : List Foothold}
    (located : Located arena plot (positions footholds)) :
    next ∈ positions (forgotten arena width footholds) ↔
      ∃ position ∈ positions footholds, Rules.Forgets arena width position next := by
  have mem_pass (foothold : Foothold) (member : foothold ∈ footholds) (after : Position) :
      after ∈ passUninit arena width [foothold.position] ↔
      Rules.Forgets arena width foothold.position after := by
    rw [mem_passUninit charts]
    · simp
    · intro position isPosition
      rw [mem_singleton] at isPosition
      exact located position ⟨foothold, member, isPosition.symm⟩
  simp only [mem_positions, forgotten, mem_flatMap, mem_map]
  constructor
  · rintro ⟨_, ⟨foothold, member, after, passed, rfl⟩, rfl⟩
    exact ⟨_, ⟨foothold, member, rfl⟩, (mem_pass foothold member after).mp passed⟩
  · rintro ⟨_, ⟨foothold, member, rfl⟩, forgets⟩
    exact ⟨_, ⟨foothold, member, next, (mem_pass foothold member next).mpr forgets, rfl⟩, rfl⟩

end Forgotten

section Match

variable {entry : Entry} {before : Position}

theorem ensures_matchReference (footing : Set Position) (charts : terms.arena.Charts plot proper)
    (answers : Answers account budgets layouts nested)
    (located : Located terms.arena plot (positions entry.footholds))
    (sourceInside : source.referent.index < layouts)
    (readsInside : ∀ target foothold, (.reference target, foothold) ∈ entry.prospects.reads →
      target.referent.index < layouts) (sound : account.Sound progress) :
    Ensures account budgets (fun budget => terms.matchReference (nested budget) entry before source)
      progress (fun onward later => ∀ upper lower,
        entry.Opened upper lower terms.arena plot footing →
        terms.Upper account onward.exercised later upper → terms.Lower account later lower →
          onward.Follows upper lower terms.arena footing before (.reference source))
      (fun later => ∀ upper lower, entry.Opened upper lower terms.arena plot footing →
        terms.Lower account later lower →
        ¬ (lower.behind terms.arena (.reference source) footing).Nonempty) := by
  simp only [matchReference]
  refine (ensures_tryReferences answers sourceInside readsInside sound).bind ?_ fun _ _ no =>
    no.elim
  intro coverage later goesOn laterSound tried
  have lowerMember {upper lower : Rules}
      (opened : entry.Opened upper lower terms.arena plot footing)
      (isLower : terms.Lower account later lower) : lower.behind terms.arena (.reference source)
      footing ⊆
        positions (coverage.footholds ++ forgotten terms.arena source.width entry.footholds) := by
    rw [Foothold.positions_append]
    rintro _ (⟨position, reached, takes⟩ | ⟨⟨_, isMarker⟩, _⟩)
    · cases takes with
      | reference replaces reads =>
        rcases opened.mem_of_reads charts (by simp) reached reads with ⟨foothold, member, same⟩
        exact .inl ⟨foothold, tried.lower lower isLower _ foothold member replaces, same⟩
      | forgottenReference forgets =>
        exact .inr ((mem_forgotten charts located).mpr ⟨position, opened.lower reached, forgets⟩)
    · simp at isMarker
  split
  · rename_i none
    refine ensures_throw laterSound ?_
    rintro _ _ opened isLower ⟨_, behind⟩
    have isEmpty := List.isEmpty_iff.mp none
    rcases lowerMember opened isLower behind with ⟨_, member, _⟩
    rw [forgotten, isEmpty] at member
    simp at member
  · rename_i some
    refine ensures_pure laterSound ?_
    intro upper lower opened isUpper isLower
    refine Onward.follows_single (fun _ => Token.holds_reference) ?_ ?_ (lowerMember opened isLower)
    · rw [Foothold.positions_nonempty]
      simpa using some
    · rw [Foothold.positions_append]
      rintro after (⟨foothold, member, rfl⟩ | isForgotten)
      · have used := isUpper.earlier (.refl later) fun _ inside =>
          Assumptions.mem_union.mpr (.inl inside)
        rcases tried.upper upper used foothold member with ⟨_, isRead, replaces⟩
        rcases opened.position_of_mem charts isRead with ⟨origin, reached, reads⟩
        exact .inl ⟨origin, reached, .reference replaces reads⟩
      · rcases (mem_forgotten charts located).mp isForgotten with ⟨position, member, forgets⟩
        exact .inl ⟨position, opened.upper member, .forgottenReference forgets⟩

end Match

end Terms

end Recast
