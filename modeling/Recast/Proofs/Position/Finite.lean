import Mathlib.Data.Finset.Option
import Mathlib.Data.Set.Finite.Lattice
import Mathlib.Data.Fintype.BigOperators
import Mathlib.Data.List.Sort
import Recast.Proofs.Position.Moves

/-!
# There are only so many positions

Loops inside each other have bodies with ever higher numbers, so the loops around a position can be
told from a table with a column for each layout. With a bound on counts there are only so many such
tables (`length_le_of_nodup`).
-/

namespace Recast

open List

variable {loop : Loop} {position : Position}

/-- A number for a count: twice the least number of rounds, and one more if there may be others. -/
def Count.code : Count → Nat
  | .exact number => 2 * number
  | .atLeast number => 2 * number + 1

theorem Count.code_injective {count other : Count} (same : count.code = other.code) :
    count = other := by
  cases count <;> cases other <;> simp only [code, exact.injEq, atLeast.injEq] at same ⊢ <;> omega

theorem Count.code_lt {count : Count} {bound : Nat} (bounded : count.least < bound) :
    count.code < 2 * bound := by
  cases count <;> simp only [code, least] at bounded ⊢ <;> omega

namespace Position

variable {arena : Arena} {plot : Plot} {proper : Token → Prop} {root : LayoutId} {loops : List Loop}
  {bound : Nat}

/-- A position in one of the layouts, with fewer rounds to come than a bound in each loop. -/
structure Bounded (arena : Arena) (plot : Plot) (bound : Nat) (position : Position) : Prop where
  within : ∃ root, position.Within arena plot root
  few : ∀ loop ∈ position.loops, loop.toCome.least < bound

section

variable (charts : arena.Charts plot proper) (nest : Nest arena plot root loops)
include charts nest

theorem body_le_innermost (member : loop ∈ loops) :
    loop.body.index ≤ (innermost root loops).index := by
  induction loops with
  | nil => simp at member
  | cons head tail ih =>
    rcases mem_cons.mp member with rfl | inTail
    · exact le_rfl
    · have deeper := (loop_repeats charts nest.1).deeper
      have below := ih nest.2 inTail
      simp only [innermost_cons]
      omega

theorem pairwise_loops : loops.Pairwise fun inner outer => outer.body.index < inner.body.index := by
  induction loops with
  | nil => exact .nil
  | cons head tail ih =>
    refine .cons ?_ (ih nest.2)
    intro loop member
    have deeper := (loop_repeats charts nest.1).deeper
    have below := body_le_innermost charts nest.2 member
    omega

theorem loop_bounds (member : loop ∈ loops) :
    loop.body.index < arena.layouts.size ∧ loop.exit.index < arena.states.size := by
  induction loops with
  | nil => simp at member
  | cons _ _ ih =>
    rcases mem_cons.mp member with rfl | inTail
    · have repeated := loop_repeats charts nest.1
      exact ⟨repeated.inside, repeated.owns.inside⟩
    · exact ih nest.2 inTail

end

/-- The column of a layout: where the loop with this body leads, and how often it goes on. -/
def column (loops : List Loop) (index : Nat) : Option (Nat × Nat) :=
  (loops.find? fun loop => loop.body.index = index).map fun loop =>
    (loop.exit.index, loop.toCome.code)

theorem column_eq_some (decreasing : loops.Pairwise fun inner outer =>
    outer.body.index < inner.body.index) {index : Nat} {entry : Nat × Nat} :
    column loops index = some entry ↔
      ∃ loop ∈ loops, loop.body.index = index ∧ (loop.exit.index, loop.toCome.code) = entry := by
  simp only [column, Option.map_eq_some_iff]
  constructor
  · rintro ⟨loop, found, same⟩
    exact ⟨loop, mem_of_find?_eq_some found, by simpa using find?_some found, same⟩
  · rintro ⟨loop, member, isBody, same⟩
    refine ⟨loop, ?_, same⟩
    induction decreasing with
    | nil => simp at member
    | @cons head tail above _ ih =>
      rcases mem_cons.mp member with rfl | inTail
      · simp [isBody]
      · have apart : head.body.index ≠ index := by
          have lower := above loop inTail
          omega
        simpa [find?_cons, apart] using ih inTail

theorem mem_of_column_eq {other : List Loop}
    (decreasing : loops.Pairwise fun inner outer => outer.body.index < inner.body.index)
    (otherDecreasing : other.Pairwise fun inner outer => outer.body.index < inner.body.index)
    (same : column loops loop.body.index = column other loop.body.index) (member : loop ∈ loops) :
    loop ∈ other := by
  rw [(column_eq_some decreasing).mpr ⟨loop, member, rfl, rfl⟩] at same
  rcases (column_eq_some otherDecreasing).mp same.symm with ⟨twin, isTwin, body, entry⟩
  simp only [Prod.mk.injEq] at entry
  rcases loop with ⟨⟨_⟩, ⟨_⟩, _⟩
  rcases twin with ⟨⟨_⟩, ⟨_⟩, _⟩
  simp only at body entry
  rcases entry with ⟨rfl, isCode⟩
  rcases Count.code_injective isCode with rfl
  exact body ▸ isTwin

def table (arena : Arena) (position : Position) :
    Nat × (Fin arena.layouts.size → Option (Nat × Nat)) :=
  (position.state.index, fun id => column position.loops id.val)

theorem table_injective (charts : arena.Charts plot proper) {other : Position}
    (within : position.Bounded arena plot bound) (otherWithin : other.Bounded arena plot bound)
    (same : table arena position = table arena other) : position = other := by
  rcases within.within with ⟨root, _, nest⟩
  rcases otherWithin.within with ⟨otherRoot, _, otherNest⟩
  have decreasing := pairwise_loops charts nest
  have otherDecreasing := pairwise_loops charts otherNest
  simp only [table, Prod.mk.injEq] at same
  rcases same with ⟨sameState, sameColumns⟩
  have sameLoops : position.loops = other.loops := by
    have antisymmetric : Std.Antisymm fun inner outer : Loop =>
        outer.body.index < inner.body.index := ⟨fun left right first second => by omega⟩
    have irreflexive : Std.Irrefl fun inner outer : Loop =>
        outer.body.index < inner.body.index := ⟨fun _ => lt_irrefl _⟩
    refine decreasing.eq_of_mem_iff otherDecreasing fun _ => ⟨fun member => ?_, fun member => ?_⟩
    · have inside := (loop_bounds charts nest member).1
      exact mem_of_column_eq decreasing otherDecreasing (congrFun sameColumns ⟨_, inside⟩) member
    · have inside := (loop_bounds charts otherNest member).1
      exact mem_of_column_eq otherDecreasing decreasing (congrFun sameColumns ⟨_, inside⟩).symm
        member
  rcases position with ⟨⟨_⟩, _⟩
  rcases other with ⟨⟨_⟩, _⟩
  simp only at sameState sameLoops
  rw [sameState, sameLoops]

def tables (arena : Arena) (bound : Nat) :
    Finset (Nat × (Fin arena.layouts.size → Option (Nat × Nat))) :=
  Finset.range arena.states.size ×ˢ
    Fintype.piFinset fun _ =>
      (Finset.range arena.states.size ×ˢ Finset.range (2 * bound)).insertNone

theorem table_mem_tables (charts : arena.Charts plot proper)
    (bounded : position.Bounded arena plot bound) :
    table arena position ∈ tables arena bound := by
  rcases bounded.within with ⟨_, owns, nest⟩
  simp only [table, tables, Finset.mem_product, Finset.mem_range, Fintype.mem_piFinset]
  refine ⟨owns.inside, fun _ => ?_⟩
  rw [Finset.mem_insertNone]
  intro _ isEntry
  rcases (column_eq_some (pairwise_loops charts nest)).mp isEntry with ⟨loop, member, _, rfl⟩
  simp only [Finset.mem_product, Finset.mem_range]
  exact ⟨(loop_bounds charts nest member).2, Count.code_lt (bounded.few loop member)⟩

theorem length_le_of_nodup (charts : arena.Charts plot proper) {positions : List Position}
    (distinct : positions.Nodup)
    (bounded : ∀ position ∈ positions, position.Bounded arena plot bound) :
    positions.length ≤
      arena.states.size * (arena.states.size * (2 * bound) + 1) ^ arena.layouts.size := by
  have distinctTables : (positions.map (table arena)).Nodup := by
    refine List.Nodup.map_on ?_ distinct
    intro position member other otherMember same
    exact table_injective charts (bounded position member) (bounded other otherMember) same
  have covered : (positions.map (table arena)).toFinset ⊆ tables arena bound := by
    intro _ member
    simp only [mem_toFinset, mem_map] at member
    rcases member with ⟨position, isPosition, rfl⟩
    exact table_mem_tables charts (bounded position isPosition)
  calc
    positions.length = (positions.map (table arena)).length := by simp
    _ = (positions.map (table arena)).toFinset.card :=
      (toFinset_card_of_nodup distinctTables).symm
    _ ≤ (tables arena bound).card := Finset.card_le_card covered
    _ = _ := by simp [tables]

theorem exists_rounds_lt (arena : Arena) :
    ∃ bound, ∀ state body count exit, ⟨.rep body count, exit⟩ ∈ arena.edges state →
      count.least < bound := by
  let rounds (edge : Edge) : Nat :=
    match edge.label with
    | .rep _ count => count.least
    | .token _ => 0
  let all := (arena.states.toList.flatMap State.edges).map rounds
  rcases (finite_toSet all).bddAbove with ⟨most, isMost⟩
  refine ⟨most + 1, fun state body count exit edge => Nat.lt_succ_of_le (isMost ?_)⟩
  refine mem_map.mpr ⟨⟨.rep body count, exit⟩, mem_flatMap.mpr ⟨arena.state state, ?_, edge⟩, rfl⟩
  rcases found : arena.states[state.index]? with _ | _
  · simp [Arena.edges, Arena.state, found, default] at edge
  · simpa [Arena.state, found] using Array.mem_of_getElem? found

theorem few_of_nest (most : ∀ state body count exit, ⟨.rep body count, exit⟩ ∈ arena.edges state →
    count.least < bound) (nest : Nest arena plot root loops) (member : loop ∈ loops) :
    loop.toCome.least < bound := by
  induction loops with
  | nil => simp at member
  | cons head tail ih =>
    rcases mem_cons.mp member with rfl | inTail
    · rcases nest.1 with ⟨source, count, _, edge, taken, follows⟩
      have few := most source _ count _ edge
      cases count <;> simp only [follows, Count.minus, Count.least] at few ⊢ <;> omega
    · exact ih nest.2 inTail

theorem finite_within (charts : arena.Charts plot proper) :
    {position : Position | ∃ root, position.Within arena plot root}.Finite := by
  rcases exists_rounds_lt arena with ⟨bound, most⟩
  have bounded (position : Position) (within : ∃ root, position.Within arena plot root) :
      position.Bounded arena plot bound := by
    refine ⟨within, fun _ member => ?_⟩
    rcases within with ⟨_, within⟩
    exact few_of_nest most within.nest member
  have inside : Set.MapsTo (table arena) {position | ∃ root, position.Within arena plot root}
      (tables arena bound) :=
    fun position within => table_mem_tables charts (bounded position within)
  refine .of_injOn inside ?_ (tables arena bound).finite_toSet
  intro position within other otherWithin same
  exact table_injective charts (bounded position within) (bounded other otherWithin) same

end Position

end Recast
