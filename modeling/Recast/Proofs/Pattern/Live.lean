import Recast.Proofs.Arena.Lays
import Recast.Proofs.Position.Live

/-!
# Live patterns

Whether a layout is live can be told from its pattern: whatever is to come on a way through it leads
on to the end (`Arena.Lays.live_iff`). So the layouts for one pattern are live alike, wherever they
lie. A repeat is live as its body is.
-/

namespace Recast

namespace Pattern

/-- What comes behind the first part of the patterns, or in the body of a repeat. -/
inductive Next : List Pattern → List Pattern → Prop
  | behind {patterns rest : List Pattern} {head : Head} (begins : Begins patterns head rest) :
      Next patterns rest
  | within {patterns rest : List Pattern} {body : Pattern} {count : Count}
      (begins : Begins patterns (.rep body count) rest) : Next patterns [body]

/-- There is a way to the end of the patterns, if there is one through each repeat. -/
inductive Leads : List Pattern → Prop
  | done {patterns : List Pattern} (done : Done patterns) : Leads patterns
  | begins {patterns rest : List Pattern} {head : Head} (begins : Begins patterns head rest)
      (leads : Leads rest) :
      Leads patterns

def Live (pattern : Pattern) : Prop :=
  ∀ patterns, Relation.ReflTransGen Next [pattern] patterns → Leads patterns

theorem Live.rep {pattern : Pattern} (live : pattern.Live) (count : Count) :
    (rep pattern count).Live := by
  intro patterns reaches
  have inBody : patterns = [.rep pattern count] ∨ patterns = [] ∨
      Relation.ReflTransGen Next [pattern] patterns := by
    induction reaches with
    | refl => exact .inl rfl
    | tail _ next ih =>
      rcases ih with rfl | rfl | within
      · cases next with
        | behind begins => exact .inr (.inl (begins_rep.mp begins).2)
        | within begins =>
          cases (begins_rep.mp begins).1
          exact .inr (.inr .refl)
      · rcases next with ⟨⟨⟩⟩ | ⟨⟨⟩⟩
      · exact .inr (.inr (within.tail next))
  rcases inBody with rfl | rfl | within
  · exact .begins (begins_rep.mpr ⟨rfl, rfl⟩) (.done .nil)
  · exact .done .nil
  · exact live patterns within

end Pattern

namespace Arena

variable {arena : Arena} {goal state : StateId} {patterns : List Pattern} {root id : LayoutId}
  {pattern : Pattern}

theorem Unfolds.leadsTo_iff (unfolds : arena.Unfolds goal state patterns) :
    arena.LeadsTo state goal ↔ Pattern.Leads patterns := by
  constructor
  · intro leads
    induction leads using Relation.ReflTransGen.head_induction_on generalizing patterns with
    | refl => exact .done (unfolds.done.mp rfl)
    | head edge _ ih =>
      rcases edge with ⟨edge, member, rfl⟩
      rcases unfolds.opens.forth edge member with ⟨_, _, begins, _, onward⟩
      exact .begins begins (ih onward)
  · intro leads
    induction leads generalizing state with
    | done done => rw [unfolds.done.mpr done]
    | begins begins _ ih =>
      rcases unfolds.opens.back _ _ begins with ⟨edge, member, _, onward⟩
      exact .head ⟨edge, member, rfl⟩ (ih onward)

theorem Lays.live_iff (lays : arena.Lays root pattern) : arena.Live root ↔ pattern.Live := by
  constructor
  · intro live patterns reaches
    suffices found : ∃ id state, arena.Reaches root id state ∧
        arena.Unfolds (arena.stop id) state patterns by
      rcases found with ⟨id, state, reached, unfolds⟩
      exact unfolds.leadsTo_iff.mp (live id state reached)
    induction reaches with
    | refl => exact ⟨root, _, .start, lays.unfolds⟩
    | tail _ next ih =>
      rcases ih with ⟨id, _, reached, unfolds⟩
      cases next with
      | behind begins =>
        rcases unfolds.opens.back _ _ begins with ⟨_, member, _, onward⟩
        exact ⟨id, _, reached.onward member, onward⟩
      | within begins =>
        rcases unfolds.opens.back _ _ begins with ⟨⟨_, _⟩, member, labels, _⟩
        cases labels with
        | rep isBody => exact ⟨_, _, reached.within member, isBody⟩
  · intro live id state reaches
    suffices found : ∃ patterns, Relation.ReflTransGen Pattern.Next [pattern] patterns ∧
        arena.Unfolds (arena.stop id) state patterns by
      rcases found with ⟨patterns, reached, unfolds⟩
      exact unfolds.leadsTo_iff.mpr (live patterns reached)
    induction reaches with
    | start => exact ⟨_, .refl, lays.unfolds⟩
    | onward _ member ih =>
      rcases ih with ⟨_, reached, unfolds⟩
      rcases unfolds.opens.forth _ member with ⟨_, rest, begins, _, onward⟩
      exact ⟨rest, reached.tail (.behind begins), onward⟩
    | within _ member ih =>
      rcases ih with ⟨_, reached, unfolds⟩
      rcases unfolds.opens.forth _ member with ⟨_, _, begins, labels, _⟩
      cases labels with
      | rep isBody => exact ⟨_, reached.tail (.within begins), isBody⟩

end Arena

end Recast
