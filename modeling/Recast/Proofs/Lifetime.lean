import Recast.Lifetime
import Mathlib.Data.List.Basic
import Mathlib.Logic.Relation

/-!
# Declared bounds

Each round of the search for chains of bounds uses up a bound whose shorter lifetime was not known.
So there are enough rounds, and all chains are found (`LifetimeBounds.mem_reach_iff`).

That the static lifetime outlives all others is not part of the search. It matters only where a
chain leads to the static lifetime: what that one outlives is not found
(`LifetimeBounds.outlives_declared`).
-/

namespace Recast

open List

namespace LifetimeBounds

open Relation

def Declares (bounds : LifetimeBounds) (longer shorter : Lifetime) : Prop :=
  (longer, shorter) ∈ bounds.declared

def unused (bounds : LifetimeBounds) (known : List Lifetime) : Nat :=
  bounds.declared.countP fun bound => bound.2 ∉ known

/-- The bounds after some declarations. -/
def ofCalls (calls : List (Lifetime × Lifetime)) : LifetimeBounds :=
  calls.foldl (fun bounds call => bounds.declare call.1 call.2) {}

variable {bounds : LifetimeBounds} {known : List Lifetime} {longer shorter lifetime : Lifetime}
  {rounds : Nat}

theorem mem_fresh : lifetime ∈ bounds.fresh known ↔
    (∃ longer ∈ known, bounds.Declares longer lifetime) ∧ lifetime ∉ known := by
  simp only [fresh, mem_map, mem_filter, Bool.and_eq_true, decide_eq_true_eq, Declares]
  constructor
  · rintro ⟨⟨longer, _⟩, ⟨declared, isKnown, isNew⟩, rfl⟩
    exact ⟨⟨longer, isKnown, declared⟩, isNew⟩
  · rintro ⟨⟨_, isKnown, declared⟩, isNew⟩
    exact ⟨_, ⟨declared, isKnown, isNew⟩, rfl⟩

theorem unused_lt (found : lifetime ∈ bounds.fresh known) :
    bounds.unused (known ++ bounds.fresh known) < bounds.unused known := by
  have few (declared : List (Lifetime × Lifetime)) :
      declared.countP (fun bound => bound.2 ∉ known ++ bounds.fresh known) ≤
        declared.countP fun bound => bound.2 ∉ known := by
    refine countP_mono_left fun bound _ outside => ?_
    simp only [mem_append, not_or, decide_eq_true_eq] at outside ⊢
    exact outside.1
  rcases mem_fresh.mp found with ⟨⟨longer, _, declared⟩, isNew⟩
  rcases append_of_mem declared with ⟨before, after, isDeclared⟩
  have front := few before
  have back := few after
  simp only [unused, isDeclared, countP_append, countP_cons, mem_append, found, isNew, or_true,
    not_true, not_false_iff, decide_true, decide_false, if_true, Bool.false_eq_true,
      if_false] at front back ⊢
  omega

theorem fresh_reach (enough : bounds.unused known ≤ rounds) :
    bounds.fresh (bounds.reach rounds known) = [] := by
  induction rounds generalizing known with
  | zero =>
    refine eq_nil_iff_forall_not_mem.mpr fun lifetime found => ?_
    exact absurd (unused_lt found) (by rw [reach]; omega)
  | succ rounds ih =>
    rw [reach]
    split
    · assumption
    · rename_i some
      rcases exists_mem_of_ne_nil _ some with ⟨lifetime, found⟩
      have less := unused_lt found
      exact ih (by omega)

theorem subset_reach : known ⊆ bounds.reach rounds known := by
  induction rounds generalizing known with
  | zero => exact Subset.refl _
  | succ _ ih =>
    rw [reach]
    split
    · exact Subset.refl _
    · exact Subset.trans (subset_append_left _ _) ih

theorem exists_chain_of_mem_reach (member : lifetime ∈ bounds.reach rounds known) :
    ∃ longer ∈ known, ReflTransGen bounds.Declares longer lifetime := by
  induction rounds generalizing known with
  | zero => exact ⟨lifetime, member, .refl⟩
  | succ _ ih =>
    rw [reach] at member
    split at member
    · exact ⟨lifetime, member, .refl⟩
    · rcases ih member with ⟨middle, isMiddle, chain⟩
      rcases mem_append.mp isMiddle with isKnown | isFresh
      · exact ⟨middle, isKnown, chain⟩
      · rcases mem_fresh.mp isFresh with ⟨⟨longer, isKnown, declared⟩, _⟩
        exact ⟨longer, isKnown, chain.head declared⟩

/-- From one lifetime, the search finds all that chains of bounds lead to. -/
theorem mem_reach_iff : shorter ∈ bounds.reach bounds.declared.length [longer] ↔
    ReflTransGen bounds.Declares longer shorter := by
  constructor
  · intro member
    rcases exists_chain_of_mem_reach member with ⟨_, isFirst, chain⟩
    rwa [mem_singleton.mp isFirst] at chain
  · intro chain
    have closed : bounds.fresh (bounds.reach bounds.declared.length [longer]) = [] :=
      fresh_reach countP_le_length
    induction chain with
    | refl => exact subset_reach (mem_singleton_self longer)
    | @tail middle last _ declared ih =>
      by_contra isNew
      have found := mem_fresh.mpr ⟨⟨middle, ih, declared⟩, isNew⟩
      rw [closed] at found
      cases found

theorem outlives_iff : bounds.outlives longer shorter ↔
    longer = .static ∨ ReflTransGen bounds.Declares longer shorter := by
  simp only [outlives, Lifetime.outlivesAlways, Bool.or_eq_true, decide_eq_true_eq, mem_reach_iff]
  constructor
  · rintro ((isStatic | rfl) | chain)
    · exact .inl isStatic
    · exact .inr .refl
    · exact .inr chain
  · rintro (isStatic | chain)
    · exact .inl (.inl isStatic)
    · exact .inr chain

theorem declares_ofCalls (calls : List (Lifetime × Lifetime)) :
    (ofCalls calls).Declares longer shorter ↔ (longer, shorter) ∈ calls := by
  have declared (bounds : LifetimeBounds) :
      (calls.foldl (fun bounds call => bounds.declare call.1 call.2) bounds).declared =
      bounds.declared ++ calls := by
    induction calls generalizing bounds with
    | nil => simp
    | cons _ _ ih => rw [foldl_cons, ih, declare, append_assoc, singleton_append]
  rw [Declares, ofCalls, declared, nil_append]

theorem chain_iff {declares : Lifetime → Lifetime → Prop}
    (apart : ReflTransGen declares longer .static → longer = .static) :
    ReflTransGen (fun first second => declares first second ∨ first = .static) longer shorter ↔
      longer = .static ∨ ReflTransGen declares longer shorter := by
  constructor
  · intro chain
    induction chain with
    | refl => exact .inr .refl
    | tail _ bound ih =>
      rcases ih with isStatic | before
      · exact .inl isStatic
      · rcases bound with declared | rfl
        · exact .inr (before.tail declared)
        · exact .inl (apart before)
  · rintro (rfl | chain)
    · exact .single (.inr rfl)
    · exact chain.lift id fun _ _ => .inl

/-- A lifetime outlives those that chains of declared bounds lead to, and the static lifetime
outlives all. This is the smallest preorder with the declared bounds and with those of the static
lifetime, seen from any lifetime that no chain leads to the static lifetime from, unless it is that
one. -/
theorem outlives_declared (calls : List (Lifetime × Lifetime)) (longer shorter : Lifetime) :
    ((ofCalls calls).outlives longer shorter ↔
      longer = .static ∨ ReflTransGen (fun first second => (first, second) ∈ calls) longer
        shorter) ∧
    ((ReflTransGen (fun first second => (first, second) ∈ calls) longer .static →
      longer = .static) → ((ofCalls calls).outlives longer shorter ↔
        ReflTransGen (fun first second => (first, second) ∈ calls ∨ first = .static) longer
          shorter)) := by
  have declares : (ofCalls calls).Declares = fun first second => (first, second) ∈ calls := by
    funext first second
    exact propext (declares_ofCalls calls)
  rw [outlives_iff, declares]
  exact ⟨Iff.rfl, fun apart => (chain_iff apart).symm⟩

theorem outlives_declared_cycle :
    let calls : List (Lifetime × Lifetime) :=
  [(.region 2, .region 1), (.region 0, .region 1), (.region 1, .region 2)]
    (ReflTransGen (fun first second => (first, second) ∈ calls) (.region 0) .static →
        Lifetime.region 0 = .static) ∧
      ReflTransGen (fun first second => (first, second) ∈ calls ∨ first = .static) (.region 0)
        (.region 2) := by
  intro calls
  have apart (chain : ReflTransGen (fun first second => (first, second) ∈ calls) (.region 0)
      .static) : Lifetime.region 0 = .static := by
    rcases chain.cases_tail with isStatic | ⟨_, _, declared⟩
    · exact isStatic.symm
    · simp [calls] at declared
  exact ⟨apart, ((outlives_declared calls _ (.region 2)).2 apart).mp (by decide)⟩

theorem not_outlives_beyond_static :
    let calls : List (Lifetime × Lifetime) := [(.region 0, .static)]
    (ofCalls calls).outlives (.region 0) (.region 1) = false ∧
      ReflTransGen (fun first second => (first, second) ∈ calls ∨ first = .static) (.region 0)
        (.region 1) :=
  ⟨by decide, .head (.inl (by decide)) (.single (.inr rfl))⟩

end LifetimeBounds

end Recast
