import Recast.Proofs.Position.Finite
import Recast.Proofs.Position.Left

/-!
# Reading without bytes

Markers, and references without bytes, can be read with no byte in between. On such a way no state
is passed twice, except that the position stays the same (`Idles.eq_of_state`): a loop that is left
in this way was at the end of a round before, and is at the start of one when it is entered again.
-/

namespace Recast

namespace Position

variable {arena : Arena} {plot : Plot} {proper : Token → Prop} {root : LayoutId}
  {position next : Position} {token : Token} {loop : Loop} {outer : List Loop}

abbrev Idles (arena : Arena) : Position → Position → Prop :=
  Relation.ReflTransGen fun position next =>
    ∃ token : Token, token.width = 0 ∧ Reads arena position token next

variable (charts : arena.Charts plot proper)
include charts

theorem Idles.within (idles : Idles arena position next)
    (within : position.Within arena plot root) :
    next.Within arena plot root := by
  induction idles with
  | refl => exact within
  | tail _ idle ih =>
    rcases idle with ⟨_, _, reads⟩
    exact reads.within charts ih

theorem Idles.left_eq (sized : arena.Sized root) (idles : Idles arena position next)
    (within : position.Within arena plot root) :
    left arena root next = left arena root position := by
  induction idles with
  | refl => rfl
  | tail idles idle ih =>
    rcases idle with ⟨token, none, reads⟩
    have taken := reads.left_eq charts sized (Idles.within charts idles within)
    omega

theorem Idles.fresh {body : LayoutId} (idles : Idles arena position next)
    (within : position.Within arena plot root) (fresh : Fresh arena body position) :
    Fresh arena body next := by
  induction idles with
  | refl => exact fresh
  | tail idles idle ih =>
    rcases idle with ⟨_, none, reads⟩
    exact reads.fresh charts none (Idles.within charts idles within) ih

theorem root_lt_innermost {loops : List Loop} (nest : Nest arena plot root loops)
    (some : loops ≠ []) :
    root.index < (innermost root loops).index := by
  induction loops with
  | nil => exact absurd rfl some
  | cons _ outer ih =>
    have deeper := (loop_repeats charts nest.1).deeper
    cases outer with
    | nil => exact deeper
    | cons => exact Nat.lt_trans (ih nest.2 (by simp)) deeper

theorem Within.loops_eq_nil (within : position.Within arena plot root)
    (owner : plot position.state = some root) : position.loops = [] := by
  by_contra some
  have deeper := root_lt_innermost charts within.nest some
  have same := Option.some.inj (within.owns.owner.symm.trans owner)
  rw [same] at deeper
  exact lt_irrefl _ deeper

theorem fresh_of_roundEnd (nest : Nest arena plot root (loop :: outer)) (none : token.width = 0)
    (reads : Reads arena (roundEnd arena loop outer) token next) : Fresh arena loop.body next := by
  have within := within_roundEnd charts nest
  have repeated := loop_repeats charts nest.1
  have noEdges := charts.edges_stop repeated.inside
  rw [reads_iff] at reads
  rcases reads with own | ⟨_, move, reads⟩
  · rcases own with ⟨edge⟩
    simp [noEdges] at edge
  · refine reads.fresh charts none (move.within charts within) ?_
    rcases (move_roundEnd_iff noEdges).mp move with ⟨_, rfl⟩ | ⟨_, rfl⟩
    · exact fun _ => charts.offset_start_eq repeated.inside
    · rintro ⟨_, member, same⟩
      have below := List.rel_of_pairwise_cons (pairwise_loops charts nest) member
      simp [same] at below

theorem Idles.of_inside (nest : Nest arena plot root (loop :: outer))
    (within : position.Within arena plot loop.body)
    (idles : Idles arena (position.inside (loop :: outer)) next) :
    (∃ further, Idles arena position further ∧ next = further.inside (loop :: outer)) ∨
      left arena loop.body position = 0 ∧ Fresh arena loop.body next := by
  have sized := (loop_repeats charts nest.1).isSized
  induction idles with
  | refl => exact .inl ⟨position, .refl, rfl⟩
  | tail idles idle ih =>
    rcases idle with ⟨token, none, reads⟩
    rcases ih with ⟨_, inner, rfl⟩ | ⟨ended, fresh⟩
    · have furtherWithin := inner.within charts within
      rcases (reads_inside charts furtherWithin).mp reads with
        ⟨last, innerRead, rfl⟩ | ⟨ends, reads⟩
      · exact .inl ⟨last, inner.tail ⟨token, none, innerRead⟩, rfl⟩
      · refine .inr ⟨?_, fresh_of_roundEnd charts nest none reads⟩
        rw [← inner.left_eq charts sized within]
        exact ends.left_eq charts sized furtherWithin
    · have here := Idles.within charts idles (within.inside nest)
      exact .inr ⟨ended, reads.fresh charts none here fresh⟩

theorem Idles.eq_of_state (within : position.Within arena plot root)
    (idles : Idles arena position next) (same : next.state = position.state) : next = position := by
  have nextWithin := idles.within charts within
  rcases position with ⟨state, loops⟩
  rcases next with ⟨nextState, nextLoops⟩
  simp only at same
  subst same
  cases loops with
  | nil =>
    have owner := within.owns.owner
    have noLoops : nextLoops = [] := nextWithin.loops_eq_nil charts owner
    rw [noLoops]
  | cons loop outer =>
    have owner := within.owns.owner
    have repeated := loop_repeats charts within.nest.1
    have bodyWithin : Position.Within arena plot loop.body ⟨nextState, []⟩ :=
      ⟨within.owns, repeated.inside⟩
    have moved := idles
    rcases moved.of_inside charts within.nest bodyWithin with
      ⟨further, inner, isNext⟩ | ⟨ended, fresh⟩
    · have sameState : nextState = further.state := congrArg Position.state isNext
      have noLoops := (inner.within charts bodyWithin).loops_eq_nil charts (sameState ▸ owner)
      rw [isNext]
      simp [inside, noLoops, sameState]
    · have inLoop : ∃ other ∈ nextLoops, other.body = loop.body := by
        have isInner := Option.some.inj (nextWithin.owns.owner.symm.trans owner)
        cases nextLoops with
        | nil =>
          have deeper := root_lt_innermost charts within.nest (by simp)
          simp only [innermost_nil, innermost_cons] at isInner deeper
          rw [isInner] at deeper
          exact absurd deeper (lt_irrefl _)
        | cons other => exact ⟨other, List.mem_cons_self, isInner⟩
      have atStart : arena.offset nextState = 0 := fresh inLoop
      have positive := repeated.bytes_ne_zero
      simp only [left, innermost_nil, beyond] at ended
      omega

end Position

end Recast
