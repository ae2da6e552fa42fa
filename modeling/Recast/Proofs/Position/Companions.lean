import Recast.Proofs.Position.Padding

/-!
# Companions

Positions of two arenas are companions if the same can be read from them, or tokens that stand for
each other, with companions behind it, and if values end at them alike (`Companions`). Then they are
followed by nothing but padding alike (`Companions.pads`).
-/

namespace Recast.Position

section Steps

variable {arena : Arena} {position last : Position} {token : Token} {tokens : List Token}

theorem Steps.moves (steps : Steps arena position [] last) : Moves arena position last := by
  generalize isNone : ([] : List Token) = none at steps
  induction steps with
  | refl => exact .refl
  | move move _ ih => exact .head move (ih isNone)
  | own => cases isNone

theorem Steps.reads (steps : Steps arena position (token :: tokens) last) :
    ∃ next, Reads arena position token next ∧ Steps arena next tokens last := by
  generalize isAll : token :: tokens = all at steps
  induction steps with
  | refl => cases isAll
  | move move _ ih =>
    rcases ih isAll with ⟨next, reads, onward⟩
    exact ⟨next, .of_moves (.single move) reads, onward⟩
  | own own onward =>
    cases isAll
    exact ⟨_, ⟨_, .refl, own⟩, onward⟩

end Steps

/-- What can be read from one of two related positions can be read from the other, but for tokens
that stand for each other, and behind it there are related positions. -/
structure Companions (first second : Arena) (tokens : Token → Token → Prop)
    (alike : Position → Position → Prop) :
    Prop where
  forth : ∀ {position image token next}, alike position image → Reads first position token next →
    ∃ tokenToo nextToo, Reads second image tokenToo nextToo ∧ tokens token tokenToo ∧
      alike next nextToo
  back : ∀ {position image tokenToo nextToo}, alike position image →
    Reads second image tokenToo nextToo → ∃ token next, Reads first position token next ∧
      tokens token tokenToo ∧ alike next nextToo
  ends : ∀ {position image}, alike position image → (Ends first position ↔ Ends second image)
  padding : ∀ {token tokenToo}, tokens token tokenToo →
    (token = .cell .uninit ↔ tokenToo = .cell .uninit)

namespace Companions

variable {first second : Arena} {tokens : Token → Token → Prop} {alike : Position → Position → Prop}
  {position image : Position} (companions : Companions first second tokens alike)
  (same : alike position image)
include companions same

theorem finishes (finishes : Finishes first position) : Finishes second image := by
  rcases finishes with ⟨tokens, trace⟩
  induction trace generalizing image with
  | ends ends => exact ⟨[], .ends ((companions.ends same).mp ends)⟩
  | reads reads _ ih =>
    rcases companions.forth same reads with ⟨tokenToo, _, readsToo, _, onward⟩
    rcases ih onward with ⟨tokens, trace⟩
    exact ⟨tokenToo :: tokens, .reads readsToo trace⟩

theorem meets {tokenToo : Token} (meets : Meets second image tokenToo) :
    ∃ token, Meets first position token ∧ tokens token tokenToo := by
  rcases meets with ⟨tokens, middle, _, steps, own⟩
  induction tokens generalizing position image with
  | nil =>
    rcases companions.back same ⟨middle, steps.moves, own⟩ with ⟨token, next, reads, sameToken, _⟩
    exact ⟨token, meets_iff_reads.mpr ⟨token, next, reads, .inl rfl⟩, sameToken⟩
  | cons _ _ ih =>
    rcases steps.reads with ⟨_, readsToo, onward⟩
    rcases companions.back same readsToo with ⟨before, next, reads, _, sameNext⟩
    rcases ih sameNext onward with ⟨token, meets, sameToken⟩
    exact ⟨token, meets_iff_reads.mpr ⟨before, next, reads, .inr meets⟩, sameToken⟩

theorem pads (pads : Pads first position) : Pads second image := by
  refine ⟨fun _ meetsToo => ?_, companions.finishes same pads.finishes⟩
  rcases companions.meets same meetsToo with ⟨token, meets, sameToken⟩
  exact (companions.padding sameToken).mp (pads.padding token meets)

end Companions

end Recast.Position
