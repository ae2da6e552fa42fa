import Recast.Proofs.Inclusion.Correspondence
import Recast.Proofs.Inclusion.Verdict

/-!
# Mirrored layouts

A part of an arena may be found again in the same arena. Then whatever is read from a position is
read from the one that corresponds to it, run by run as well. So layouts that correspond can be read
as each other without any assumption, as long as referents correspond both ways
(`Correspondence.sustains`).
-/

namespace Recast

open Position

namespace Correspondence

/-- What layouts that correspond are read by: no assumptions, and referents that correspond. -/
def rules (outlives : Lifetime → Lifetime → Bool) (referents : LayoutId → LayoutId → Prop) :
    Rules where
  assumed := ∅
  outlives := outlives
  related inquiry := referents inquiry.1 inquiry.2

variable {arena : Arena} {referents : LayoutId → LayoutId → Prop}
  {outlives : Lifetime → Lifetime → Bool}

section Takes

variable (lives : ∀ lifetime, outlives lifetime lifetime)
  (bothWays : ∀ layout image, referents layout image → referents image layout)

include lives bothWays

theorem takes {token tokenToo : Token} {letter : Letter} {position next : Position}
    (mirrors : token.Mirrors referents tokenToo) (holds : token.Holds letter)
    (reads : Position.Reads arena position tokenToo next) :
    (rules outlives referents).Takes arena letter position next := by
  cases mirrors with
  | cell =>
    cases holds with
    | @byte values value member =>
      have accepted : value ∈ (Cell.init values).accepted := member
      exact .byte accepted reads
    | uninit => exact .uninit reads
  | marker =>
    cases holds with
    | marker => exact .marker reads
  | @reference _ _ same width referent =>
    cases holds with
    | reference =>
      refine .reference ⟨?_, width, ?_, ?_, referent, fun _ => bothWays _ _ referent⟩ reads
      · rw [same]
        rintro ⟨isShared, isExclusive⟩
        rw [isShared] at isExclusive
        cases isExclusive
      · rw [same]
        exact .inl le_rfl
      · rw [same]
        exact .inl (lives _)

theorem coherent (relation : Correspondence arena arena referents) :
    (rules outlives referents).Coherent arena True fun source footing =>
      ∃ image ∈ footing, relation.Tracks source image where
  nonempty _ _ paired := by
    rcases paired with ⟨image, member, _⟩
    exact ⟨image, member⟩
  mono _ _ _ paired subset := by
    rcases paired with ⟨image, member, tracks⟩
    exact ⟨image, subset member, tracks⟩
  walks source footing paired := by
    rcases paired with ⟨image, member, tracks⟩
    refine .inr ⟨fun ends => ?_, fun _ _ _ reads holds => ?_⟩
    · exact ⟨image, Rules.subset_reach member, .inl ((relation.ends_iff tracks).mp ends)⟩
    · rcases relation.exists_reads tracks reads with ⟨_, nextToo, readsToo, mirrors, tracksNext⟩
      refine ⟨{nextToo}, ?_, Set.singleton_nonempty _, nextToo, rfl, tracksNext⟩
      rintro _ rfl
      exact .inl ⟨image, Rules.subset_reach member, takes lives bothWays mirrors holds readsToo⟩
  leaps _ source destination first second paired matched := by
    rcases paired with ⟨_, rfl, tracks⟩
    have runs := relation.run? tracks.positions
    rw [matched.source.isRun, matched.destination.isRun] at runs
    cases runs with
    | some same =>
      exact ⟨⟨_, rfl, relation.tracks_body tracks same matched.source matched.destination⟩, _, rfl,
        relation.tracks_after tracks same matched.source matched.destination matched.shared_ne_zero⟩

theorem sustains (relation : Correspondence arena arena referents) {inquiry : Inquiry}
    (tracks : relation.Tracks (.root arena inquiry.1) (.root arena inquiry.2)) :
    (rules outlives referents).Sustains arena True inquiry :=
  ⟨_, ⟨_, rfl, tracks⟩, relation.coherent lives bothWays⟩

end Takes

end Correspondence

end Recast
