import Recast.Proofs.Inclusion.Exercised

/-!
# Blank destinations

A layout of nothing but padding reads whatever the source holds: bytes and references are forgotten,
and markers are passed over. So a source with no more bytes to come than the destination can always
go on (`Rules.sustains_blank`). Nothing is assumed on the way: each pairing demands pairings of the
same kind and reports no assumption (`Terms.confines_blank`).
-/

namespace Recast

variable {arena : Arena} {plot : Plot} {proper : Token → Prop}

namespace Position

variable {root : LayoutId} {position next : Position} {token : Token} {run : Run}
  {loops : List Loop} {state : StateId}

theorem padding_innermost (charts : arena.Charts plot proper)
    (padding : (arena.layout root).padding) (nest : Nest arena plot root loops) :
    (arena.layout (innermost root loops)).padding := by
  induction loops with
  | nil => exact padding
  | cons _ _ ih => exact (loop_repeats charts nest.1).pads (ih nest.2)

structure Blank (arena : Arena) (plot : Plot) (root : LayoutId) (position : Position) : Prop where
  sized : arena.Sized root
  padding : (arena.layout root).padding
  within : position.Within arena plot root

namespace Blank

variable (charts : arena.Charts plot proper) (blank : Blank arena plot root position)
include charts blank

theorem eq_uninit (reads : Reads arena position token next) : token = .cell .uninit := by
  rcases reads with ⟨_, moves, own⟩
  have within := moves.within charts blank.within
  cases own with
  | intro edge =>
    exact Arena.sees_of_padding charts within.owns
      (padding_innermost charts blank.padding within.nest) (.here edge)

theorem onward (reads : Reads arena position token next) : Blank arena plot root next :=
  ⟨blank.sized, blank.padding, reads.within charts blank.within⟩

theorem finishes : Finishes arena position := by
  rw [finishes_iff_passes charts blank.within]
  have passes (loops : List Loop) (state : StateId) (nest : Nest arena plot root loops)
      (owns : arena.Owns plot (innermost root loops) state) : Passes arena root loops state := by
    induction loops generalizing state with
    | nil => exact Arena.path_of_padding charts blank.sized owns blank.padding
    | cons loop _ ih =>
      have repeated := loop_repeats charts nest.1
      have padding := padding_innermost charts blank.padding nest
      exact ⟨Arena.path_of_padding charts repeated.isSized owns padding,
        .inr (Arena.path_of_padding charts repeated.isSized (charts.owns_start repeated.inside)
          padding),
        ih loop.exit nest.2 repeated.owns⟩
  exact passes position.loops position.state blank.within.nest blank.within.owns

theorem pads : Pads arena position where
  padding token meets := by
    rcases meets with ⟨_, middle, _, steps, own⟩
    have blankToo : Blank arena plot root middle :=
      ⟨blank.sized, blank.padding, steps.within charts blank.within⟩
    exact blankToo.eq_uninit charts ⟨middle, .refl, own⟩
  finishes := blank.finishes charts

theorem exists_reads (some : left arena root position ≠ 0) :
    ∃ next, Reads arena position (.cell .uninit) next := by
  rcases blank.finishes charts with ⟨_, trace⟩
  cases trace with
  | ends ends => exact absurd (ends.left_eq charts blank.sized blank.within) some
  | reads reads =>
    have isPadding := blank.eq_uninit charts reads
    exact ⟨_, isPadding ▸ reads⟩

theorem exists_forgets {width : Nat} (enough : width ≤ left arena root position) :
    ∃ next, Rules.Forgets arena width position next := by
  induction width generalizing position with
  | zero => exact ⟨position, .done position⟩
  | succ width ih =>
    rcases blank.exists_reads charts (by omega) with ⟨middle, reads⟩
    have fewer := reads.left_eq charts blank.sized blank.within
    simp only [Token.width] at fewer
    rcases ih (blank.onward charts reads) (by omega) with ⟨next, forgets⟩
    exact ⟨next, .more reads forgets⟩

theorem run_body (starts : Starts arena position run) :
    Blank arena plot run.body (.root arena run.body) where
  sized := starts.sized charts blank.within
  padding := padding_innermost charts blank.padding (starts.nest blank.within 0)
  within := within_root charts (starts.body_lt charts blank.within)

theorem run_after (starts : Starts arena position run) {rounds : Nat} (some : rounds ≠ 0) :
    Blank arena plot root (run.after arena rounds) := by
  rcases Nat.exists_eq_succ_of_ne_zero some with ⟨fewer, rfl⟩
  exact ⟨blank.sized, blank.padding, within_after charts starts blank.within fewer⟩

end Blank

end Position

open Position

namespace Rules

variable {rules : Rules} {source : Position} {footing : Set Position}

/-- Some position of the destination has nothing but padding to come, and no fewer bytes than the
source. -/
def Absorbs (arena : Arena) (plot : Plot) (source : Position) (footing : Set Position) : Prop :=
  ∃ root other, arena.Sized root ∧ source.Within arena plot root ∧
    ∃ position ∈ footing, Blank arena plot other position ∧
      left arena root source ≤ left arena other position

variable (charts : arena.Charts plot proper)
include charts

theorem Absorbs.walks (absorbs : Absorbs arena plot source footing) :
    rules.Walks arena (Absorbs arena plot) source footing := by
  rcases absorbs with ⟨root, other, sized, within, position, member, blank, enough⟩
  refine .inr ⟨fun _ => ⟨position, subset_reach member, .inr (blank.pads charts)⟩, ?_⟩
  intro token next letter reads holds
  have used := reads.left_eq charts sized within
  have nextWithin := reads.within charts within
  have goes {onward : Position} (behind : onward ∈ rules.behind arena letter footing)
      (blankToo : Blank arena plot other onward)
      (fewer : left arena other position = token.width + left arena other onward) :
      ∃ onward ⊆ rules.behind arena letter footing, onward.Nonempty ∧
      Absorbs arena plot next onward :=
    ⟨{onward}, Set.singleton_subset_iff.mpr behind, ⟨onward, rfl⟩, root, other, sized, nextWithin,
      onward, rfl, blankToo, by omega⟩
  have byte (isByte : token.width = 1)
      (takes : ∀ onward, Reads arena position (.cell .uninit) onward →
      rules.Takes arena letter position onward) : ∃ onward ⊆ rules.behind arena letter footing,
      onward.Nonempty ∧ Absorbs arena plot next onward := by
    rcases blank.exists_reads charts (by omega) with ⟨onward, isRead⟩
    refine goes (.inl ⟨position, subset_reach member, takes onward isRead⟩)
      (blank.onward charts isRead) ?_
    rw [isByte]
    exact isRead.left_eq charts blank.sized blank.within
  cases token with
  | cell contents =>
    cases letter with
    | byte => exact byte rfl fun _ isRead => .byte (ByteSet.mem_full) isRead
    | uninit => exact byte rfl fun _ isRead => .uninit isRead
    | reference | marker => cases contents <;> cases holds
  | reference target =>
    rw [Token.holds_reference] at holds
    subst holds
    have wide : target.width ≤ left arena other position := by
      simp only [Token.width] at used
      omega
    rcases blank.exists_forgets charts wide with ⟨_, forgets⟩
    exact goes (.inl ⟨position, subset_reach member, .forgottenReference forgets⟩)
      ⟨blank.sized, blank.padding, forgets.within charts blank.within⟩
      (forgets.left_eq charts blank.sized blank.within)
  | marker name =>
    rw [Token.holds_marker] at holds
    exact goes (.inr ⟨⟨name, holds⟩, member⟩) blank (Nat.zero_add _).symm

theorem Absorbs.leaps {destination : Position} {first second : Run}
    (absorbs : Absorbs arena plot source {destination})
    (matched : Matched arena source destination first second) :
    Leaps arena (Absorbs arena plot) first second := by
  rcases absorbs with ⟨root, other, sized, within, position, isDestination, blank, enough⟩
  rw [Set.mem_singleton_iff.mp isDestination] at blank enough
  have firstSized := matched.source.sized charts within
  have firstInside := matched.source.body_lt charts within
  have element := blank.run_body charts matched.destination
  rcases Nat.exists_eq_succ_of_ne_zero matched.shared_ne_zero with ⟨fewer, isShared⟩
  have restWithin : (first.after arena (first.shared second)).Within arena plot root :=
    isShared ▸ within_after charts matched.source within fewer
  refine ⟨⟨first.body, second.body, firstSized, within_root charts firstInside, _, rfl, element,
    ?_⟩, ⟨root, other, sized, restWithin, _, rfl,
      blank.run_after charts matched.destination matched.shared_ne_zero, ?_⟩⟩
  · rw [left_root charts firstInside,
      left_root charts (matched.destination.body_lt charts blank.within), matched.bytes_eq]
  · have few : first.shared second ≤ first.count.least := Nat.min_le_left _ _
    have fewToo : first.shared second ≤ second.count.least := Nat.min_le_right _ _
    have taken := matched.source.left_after charts sized within few
    have takenToo := matched.destination.left_after charts blank.sized blank.within fewToo
    rw [matched.bytes_eq] at taken
    omega

/-- A layout of padding takes all values of a layout with no more bytes, on no assumption. -/
theorem sustains_blank {inquiry : Inquiry} {leaping : Prop}
    (sourceInside : inquiry.1.index < arena.layouts.size)
    (destinationInside : inquiry.2.index < arena.layouts.size) (sized : arena.Sized inquiry.1)
    (sizedToo : arena.Sized inquiry.2) (padding : (arena.layout inquiry.2).padding)
    (enough : arena.bytes inquiry.1 ≤ arena.bytes inquiry.2) :
    rules.Sustains arena leaping inquiry := by
  refine ⟨Absorbs arena plot, ⟨inquiry.1, inquiry.2, sized, within_root charts sourceInside, _, rfl,
    ⟨sizedToo, padding, within_root charts destinationInside⟩, ?_⟩, ?_, ?_, ?_, ?_⟩
  · rw [left_root charts sourceInside, left_root charts destinationInside]
    exact enough
  · rintro _ _ ⟨_, _, _, _, position, member, _⟩
    exact ⟨position, member⟩
  · rintro _ _ _ ⟨root, other, isSized, within, position, member, rest⟩ subset
    exact ⟨root, other, isSized, within, position, subset member, rest⟩
  · exact fun _ _ absorbs => absorbs.walks charts
  · exact fun _ _ _ _ _ absorbs matched => absorbs.leaps charts matched

end Rules

namespace Terms

variable {terms : Terms}

/-- Footholds where nothing but padding is to come lead only to others, and call for no assumption.
-/
theorem confines_blank (charts : terms.arena.Charts plot proper) :
    terms.Confines ∅ fun foothold =>
      foothold.guarded = false ∧ ∃ root, foothold.position.Blank terms.arena plot root where
  merges first second _ isFirst isSecond := ⟨by simp [isFirst.1], isSecond.2⟩
  guarded foothold blank isGuarded := by simp [blank.1] at isGuarded
  reads foothold blank token next isRead := by
    rcases blank with ⟨bare, root, isBlank⟩
    rw [mem_reads_ahead charts isBlank.within] at isRead
    rw [isBlank.eq_uninit charts isRead]
    exact ⟨⟨bare, root, isBlank.onward charts isRead⟩, trivial⟩
  forgotten foothold blank width next passed := by
    rcases blank with ⟨bare, root, isBlank⟩
    have located : ∀ position ∈ [foothold.position], ∃ root,
        position.Within terms.arena plot root := by
      simpa using ⟨root, isBlank.within⟩
    rcases (mem_passUninit charts located).mp passed with ⟨_, isBefore, forgets⟩
    rw [List.mem_singleton.mp isBefore] at forgets
    exact ⟨bare, root, isBlank.sized, isBlank.padding, forgets.within charts isBlank.within⟩
  runs foothold blank run starts := by
    rcases blank with ⟨bare, root, isBlank⟩
    exact ⟨⟨bare, run.body, isBlank.run_body charts starts⟩,
      fun _ some => ⟨bare, root, isBlank.run_after charts starts some⟩⟩

theorem check_of_blank (charts : terms.arena.Charts plot proper) {inquiry : Inquiry}
    {exercised : Assumptions} (sized : terms.arena.Sized inquiry.2)
    (padding : (terms.arena.layout inquiry.2).padding)
    (inside : inquiry.2.index < terms.arena.layouts.size)
    (accepted : (terms.check inquiry.1 inquiry.2 {}).1 = .ok exercised) : exercised = ∅ := by
  simp only [check, checkBy] at accepted
  by_cases none : terms.budget.maxDepth = 0
  · rw [includesBy_stops rfl rfl none] at accepted
    cases accepted
  rw [includesBy_of_new rfl rfl none] at accepted
  have surveyed := yields_survey (fun _ _ => id) (confines_blank charts)
    (modest_includesBy (terms.budget.maxDepth - 1)) inquiry
    ⟨rfl, inquiry.2, sized, padding, within_root charts inside⟩ (Progress.begin {} inquiry)
    modest_start
  rcases result : terms.survey
    (terms.step (terms.includesBy terms.step (terms.budget.maxDepth - 1))) inquiry.1 inquiry.2
    (Progress.begin {} inquiry) with ⟨_, after⟩ | ⟨_, after⟩
  · rw [result] at accepted surveyed
    exact Except.ok.inj accepted ▸ Assumptions.eq_empty_of_subset surveyed.2
  · rw [result] at accepted
    cases accepted

end Terms

end Recast
