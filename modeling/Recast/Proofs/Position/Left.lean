import Mathlib.Algebra.Order.Ring.Nat
import Recast.Proofs.Position.Inside
import Recast.Proofs.Position.Trace

/-!
# Bytes left

In a layout of a fixed size every position has a number of bytes left to the end of the value.
Silent moves keep it and reads take the width of their token off it. So where the value may end
nothing can be read any more (`not_reads_of_ends`), and a run that must go on has at least its
rounds left.
-/

namespace Recast

open List

variable {arena : Arena} {plot : Plot} {proper : Token → Prop} {body : LayoutId} {token : Token}

namespace Arena

variable {id : LayoutId} {state target : StateId} {count : Count}

theorem Sized.size_eq (sized : arena.Sized id) :
    (arena.layout id).size = some (arena.bytes id) := by
  rcases sized with ⟨_, isSize⟩
  simp [bytes, isSize]

theorem Repeats.isSized {exit : StateId} (repeated : arena.Repeats plot id body exit) :
    arena.Sized body := by
  rcases repeated.sized with ⟨unit, sized, _⟩
  exact ⟨unit, sized⟩

theorem Repeats.bytes_ne_zero {exit : StateId} (repeated : arena.Repeats plot id body exit) :
    arena.bytes body ≠ 0 := by
  rcases repeated.sized with ⟨_, sized, positive⟩
  simpa [bytes, sized] using positive

namespace Charts

variable (charts : arena.Charts plot proper)
include charts

section

variable (sized : arena.Sized id) (owns : arena.Owns plot id state)
include sized owns

theorem offset_edge {edge : Edge} (member : edge ∈ arena.edges state) :
    arena.offset edge.target = arena.offset state + arena.advance edge.label ∧
      arena.offset edge.target ≤ arena.bytes id := by
  rcases ((charts.state owns).edges edge member).advances.exact _ sized.size_eq with
    ⟨reached, bounded⟩
  exact ⟨reached, reached ▸ bounded⟩

theorem offset_token (member : ⟨.token token, target⟩ ∈ arena.edges state) :
    arena.offset target = arena.offset state + token.width ∧ arena.offset target ≤ arena.bytes id :=
  charts.offset_edge sized owns member

theorem offset_rep (member : ⟨.rep body count, target⟩ ∈ arena.edges state) :
    ∃ number, count = .exact number ∧ 2 ≤ number ∧
      arena.offset target = arena.offset state + arena.bytes body * number ∧
      arena.offset target ≤ arena.bytes id := by
  cases (charts.state owns).edges _ member with
  | rep _ rounds =>
    cases count with
    | exact number => exact ⟨number, rfl, rounds, charts.offset_edge sized owns member⟩
    | atLeast => exact absurd (sized.size_eq.symm.trans rounds.1) (by simp)

end

theorem offset_start_eq (inside : id.index < arena.layouts.size) :
    arena.offset (arena.start id) = 0 :=
  (charts.layout inside).zero

theorem offset_stop_eq (sized : arena.Sized id) (inside : id.index < arena.layouts.size) :
    arena.offset (arena.stop id) = arena.bytes id :=
  (charts.layout inside).size _ sized.size_eq

end Charts

end Arena

namespace Position

variable {root : LayoutId} {position next : Position} {loop : Loop} {outer : List Loop}

def beyond (arena : Arena) (root : LayoutId) : List Loop → Nat
  | [] => 0
  | loop :: outer =>
    arena.bytes loop.body * loop.toCome.least +
      (arena.bytes (innermost root outer) - arena.offset loop.exit) + beyond arena root outer

def left (arena : Arena) (root : LayoutId) (position : Position) : Nat :=
  arena.bytes (innermost root position.loops) - arena.offset position.state + beyond arena root
    position.loops

section Charted

variable (charts : arena.Charts plot proper)
include charts

theorem sized_innermost {loops : List Loop} (sized : arena.Sized root)
    (nest : Nest arena plot root loops) :
    arena.Sized (innermost root loops) := by
  cases loops with
  | nil => exact sized
  | cons => exact (loop_repeats charts nest.1).isSized

theorem left_root (inside : root.index < arena.layouts.size) :
    left arena root (.root arena root) = arena.bytes root := by
  simp [left, beyond, Position.root, charts.offset_start_eq inside]

section

variable (sized : arena.Sized root)
include sized

theorem toCome_eq_exact (nest : Nest arena plot root (loop :: outer)) :
    ∃ number, loop.toCome = .exact number := by
  rcases nest with ⟨⟨_, _, owns, edge, _, follows⟩, nest⟩
  rcases charts.offset_rep (sized_innermost charts sized nest) owns edge with ⟨_, rfl, _⟩
  exact ⟨_, follows⟩

theorem Move.left_eq (move : Move arena position next) (within : position.Within arena plot root) :
    left arena root next = left arena root position := by
  rcases within with ⟨owns, nest⟩
  cases move with
  | @again body exit toCome outer continues =>
    have repeated := loop_repeats charts nest.1
    rcases toCome_eq_exact charts sized nest with ⟨number, isExact⟩
    simp only at isExact
    subst isExact
    have some : number ≠ 0 := by simpa [Count.mayContinue] using continues
    rcases Nat.exists_eq_succ_of_ne_zero some with ⟨fewer, rfl⟩
    have start := charts.offset_start_eq repeated.inside
    have stop := charts.offset_stop_eq repeated.isSized repeated.inside
    simp only at start stop
    simp only [left, beyond, innermost_cons, start, stop, Count.minus, Count.least,
      Nat.succ_eq_add_one, Nat.add_sub_cancel, Nat.mul_add, Nat.mul_one]
    omega
  | @leave body exit toCome outer stops =>
    have repeated := loop_repeats charts nest.1
    have none := Count.mayStop_iff.mp stops
    have stop := charts.offset_stop_eq repeated.isSized repeated.inside
    simp only at stop
    simp only [left, beyond, innermost_cons, stop, none]
    omega
  | @first state exit loops body count edge _ =>
    have repeated := charts.repeats owns edge
    rcases charts.offset_rep (sized_innermost charts sized nest) owns edge with
      ⟨number, rfl, several, offset, bounded⟩
    rcases Nat.exists_eq_add_of_le several with ⟨fewer, rfl⟩
    have start := charts.offset_start_eq repeated.inside
    simp only at offset bounded
    simp only [left, beyond, innermost_cons, start, Count.minus, Count.least]
    rw [show 2 + fewer - 1 = fewer + 1 by omega]
    rw [Nat.mul_add] at offset ⊢
    omega
  | @skip state exit loops body count edge stops =>
    rcases charts.offset_rep (sized_innermost charts sized nest) owns edge with
      ⟨number, rfl, several, _⟩
    have none : number = 0 := Count.mayStop_iff.mp stops
    omega

theorem Own.left_eq (own : Own arena position token next)
    (within : position.Within arena plot root) :
    left arena root position = token.width + left arena root next := by
  rcases within with ⟨owns, nest⟩
  cases own with
  | @intro state target loops token edge =>
    rcases charts.offset_token (sized_innermost charts sized nest) owns edge with
      ⟨offset, bounded⟩
    simp only at offset bounded
    simp only [left]
    omega

theorem Moves.left_eq (moves : Moves arena position next)
    (within : position.Within arena plot root) :
    left arena root next = left arena root position := by
  induction moves with
  | refl => rfl
  | tail moves move ih =>
    exact (move.left_eq charts sized (Moves.within charts moves within)).trans ih

theorem Reads.left_eq (reads : Reads arena position token next)
    (within : position.Within arena plot root) :
    left arena root position = token.width + left arena root next := by
  rcases reads with ⟨_, moves, own⟩
  rw [← Moves.left_eq charts sized moves within]
  exact own.left_eq charts sized (Moves.within charts moves within)

theorem Steps.left_eq {tokens : List Token}
    (steps : Steps arena position tokens next) (within : position.Within arena plot root) :
    left arena root position = (tokens.map Token.width).sum + left arena root next := by
  induction steps with
  | refl => simp
  | move move _ ih =>
    rw [← move.left_eq charts sized within, ih (move.within charts within)]
  | own own _ ih =>
    rw [own.left_eq charts sized within, ih (own.within charts within), map_cons, sum_cons,
      Nat.add_assoc]

theorem left_stop (inside : root.index < arena.layouts.size) :
    left arena root ⟨arena.stop root, []⟩ = 0 := by
  simp [left, beyond, charts.offset_stop_eq sized inside]

theorem Ends.left_eq (ends : Ends arena position)
    (within : position.Within arena plot root) : left arena root position = 0 := by
  have moves := (ends_iff_moves charts within).mp ends
  rw [← Moves.left_eq charts sized moves within]
  exact left_stop charts sized (charts.owner (Moves.within charts moves within).owns)

theorem width_walk (inside : root.index < arena.layouts.size) {tokens : List Token}
    (walk : arena.Walk root tokens) : (tokens.map Token.width).sum = arena.bytes root := by
  have steps : Steps arena (.root arena root) tokens ⟨arena.stop root, []⟩ := .of_path walk []
  have taken := steps.left_eq charts sized (within_root charts inside)
  rw [left_root charts inside, left_stop charts sized inside] at taken
  omega

theorem Move.is_leave (move : Move arena position next)
    (within : position.Within arena plot root) (none : left arena root position = 0) :
    ∃ body exit toCome outer, position = ⟨arena.stop body, ⟨body, exit, toCome⟩ :: outer⟩ ∧
      next = ⟨exit, outer⟩ := by
  rcases within with ⟨owns, nest⟩
  cases move with
  | @again body exit toCome outer continues =>
    rcases toCome_eq_exact charts sized nest with ⟨number, isExact⟩
    simp only at isExact
    subst isExact
    have some : number ≠ 0 := by simpa [Count.mayContinue] using continues
    have unit := (loop_repeats charts nest.1).bytes_ne_zero
    simp only [left, beyond, Count.least] at none
    have positive : arena.bytes body * number ≠ 0 := Nat.mul_ne_zero unit some
    omega
  | @leave body exit toCome outer _ => exact ⟨body, exit, toCome, outer, rfl, rfl⟩
  | @first state exit loops body count edge _ =>
    have unit := (charts.repeats owns edge).bytes_ne_zero
    rcases charts.offset_rep (sized_innermost charts sized nest) owns edge with
      ⟨number, rfl, several, offset, bounded⟩
    simp only [left] at none offset bounded
    have positive : arena.bytes body * number ≠ 0 := Nat.mul_ne_zero unit (by omega)
    omega
  | @skip state exit loops body count edge stops =>
    rcases charts.offset_rep (sized_innermost charts sized nest) owns edge with
      ⟨number, rfl, several, _⟩
    have none : number = 0 := Count.mayStop_iff.mp stops
    omega

theorem not_reads_of_ends (within : position.Within arena plot root)
    (ends : Ends arena position) : ¬ Reads arena position token next := by
  have moves := (ends_iff_moves charts within).mp ends
  induction moves using Relation.ReflTransGen.head_induction_on with
  | refl =>
    have noEdges := charts.edges_stop within.nest
    intro reads
    rw [reads_iff] at reads
    rcases reads with own | ⟨middle, move, _⟩
    · cases own with
      | intro edge => simp [noEdges] at edge
    · rcases move.is_leave charts sized within (ends.left_eq charts sized within) with
        ⟨_, _, _, _, same, _⟩
      simp at same
  | @head here middle move onward ih =>
    have none := ends.left_eq charts sized within
    rcases move.is_leave charts sized within none with ⟨body, exit, toCome, outer, rfl, rfl⟩
    have noEdges := charts.edges_stop (loop_repeats charts within.nest.1).inside
    intro reads
    rw [reads_iff] at reads
    rcases reads with own | ⟨other, otherMove, reads⟩
    · cases own with
      | intro edge => simp [noEdges] at edge
    · rcases otherMove.is_leave charts sized within none with ⟨_, _, _, _, same, rfl⟩
      simp only [Position.mk.injEq, cons.injEq, Loop.mk.injEq] at same
      rcases same with ⟨_, ⟨_, rfl, _⟩, rfl⟩
      have middleWithin := move.within charts within
      exact ih middleWithin ((ends_iff_moves charts middleWithin).mpr onward) reads

end

end Charted

section Runs

variable {run : Run}

variable (charts : arena.Charts plot proper)
include charts

section

variable (starts : Starts arena position run) (within : position.Within arena plot root)
include starts within

theorem Starts.body_lt : run.body.index < arena.layouts.size :=
  (loop_repeats charts (starts.nest within 0).1).inside

theorem Starts.sized : arena.Sized run.body :=
  (loop_repeats charts (starts.nest within 0).1).isSized

theorem Starts.bytes_ne_zero : arena.bytes run.body ≠ 0 :=
  (loop_repeats charts (starts.nest within 0).1).bytes_ne_zero

end

section

variable (sized : arena.Sized root) (starts : Starts arena position run)
  (within : position.Within arena plot root)
include sized starts within

theorem Starts.left_eq :
    left arena root position = arena.bytes run.body * run.count.least + left arena root
      run.past := by
  have move : Move arena position (run.entry arena) := (starts.move_iff charts within).mpr rfl
  have start := charts.offset_start_eq (starts.body_lt charts within)
  rcases Nat.exists_eq_succ_of_ne_zero starts.goesOn with ⟨fewer, isLeast⟩
  rw [← move.left_eq charts sized within]
  simp only [left, Run.entry, Position.inside, Position.root, nil_append, innermost_cons, beyond,
    Run.loop, Run.past, start, Count.least_minus, isLeast, Nat.succ_eq_add_one, Nat.add_sub_cancel,
    Nat.mul_add, Nat.mul_one]
  omega

theorem Starts.left_after {rounds : Nat} (few : rounds ≤ run.count.least) :
    left arena root position = arena.bytes run.body * rounds + left arena root
      (run.after arena rounds) := by
  rw [starts.left_eq charts sized within]
  have stop := charts.offset_stop_eq (starts.sized charts within) (starts.body_lt charts within)
  rcases Nat.exists_eq_add_of_le few with ⟨more, isLeast⟩
  have rest : (run.count.minus rounds).least = more := by
    rw [Count.least_minus]
    omega
  rw [isLeast, Nat.mul_add]
  simp only [Run.after]
  split
  · rename_i ended
    have none : more = 0 := by
      rw [← rest, ended]
      rfl
    simp [none, Run.past]
  · simp only [left, innermost_cons, beyond, stop, rest, Run.past]
    omega

theorem Starts.twice_le (atStart : arena.offset position.state = 0) :
    2 * arena.bytes run.body ≤ left arena root position := by
  rcases starts.cases with ⟨only, _⟩ | same
  · have edge : ⟨.rep run.body run.count, run.exit⟩ ∈ arena.edges position.state := by simp [only]
    rcases charts.offset_rep (sized_innermost charts sized within.nest) within.owns edge with
      ⟨number, _, several, offset, bounded⟩
    have twice : arena.bytes run.body * 2 ≤ arena.bytes run.body * number :=
      Nat.mul_le_mul_left _ several
    simp only [left]
    omega
  · rw [same] at atStart
    have stop := charts.offset_stop_eq (starts.sized charts within) (starts.body_lt charts within)
    have positive := starts.bytes_ne_zero charts within
    simp only [roundEnd, Run.loop] at atStart
    omega

end

end Runs

section Fresh

/-- If the position is inside a loop of the body, then at the very start of the layout that it is
in. -/
def Fresh (arena : Arena) (body : LayoutId) (position : Position) : Prop :=
  (∃ loop ∈ position.loops, loop.body = body) → arena.offset position.state = 0

variable (charts : arena.Charts plot proper)
include charts

theorem Fresh.not_mem (nest : Nest arena plot root (loop :: outer))
    (fresh : Fresh arena body (roundEnd arena loop outer)) :
    ¬ ∃ other ∈ loop :: outer, other.body = body := by
  intro member
  have repeated := loop_repeats charts nest.1
  have stop := charts.offset_stop_eq repeated.isSized repeated.inside
  have positive := repeated.bytes_ne_zero
  have atStart : arena.offset (arena.stop loop.body) = 0 := fresh member
  omega

theorem Move.fresh (move : Move arena position next) (within : position.Within arena plot root)
    (fresh : Fresh arena body position) : Fresh arena body next := by
  rcases within with ⟨owns, nest⟩
  cases move with
  | @again _ _ _ _ _ =>
    rintro ⟨loop, member, isBody⟩
    refine absurd ?_ (fresh.not_mem charts nest)
    rcases mem_cons.mp member with rfl | inOuter
    · exact ⟨_, mem_cons_self, isBody⟩
    · exact ⟨loop, mem_cons_of_mem _ inOuter, isBody⟩
  | @leave _ _ _ _ _ =>
    rintro ⟨loop, member, isBody⟩
    exact absurd ⟨loop, mem_cons_of_mem _ member, isBody⟩ (fresh.not_mem charts nest)
  | first edge =>
    intro _
    have repeated := charts.repeats owns edge
    exact charts.offset_start_eq repeated.inside
  | @skip state exit loops around count edge stops =>
    have few (number : Nat) (isExact : count = .exact number) : number < 2 := by
      subst isExact
      have none : number = 0 := Count.mayStop_iff.mp stops
      omega
    have noLoops := loops_eq_nil_of_unsized charts nest (charts.skips owns edge few).1
    simp only at noLoops
    simp [Fresh, noLoops]

theorem Moves.fresh (moves : Moves arena position next) (within : position.Within arena plot root)
    (fresh : Fresh arena body position) : Fresh arena body next := by
  induction moves with
  | refl => exact fresh
  | tail moves move ih => exact move.fresh charts (Moves.within charts moves within) ih

theorem Reads.fresh (reads : Reads arena position token next) (none : token.width = 0)
    (within : position.Within arena plot root) (fresh : Fresh arena body position) :
    Fresh arena body next := by
  rcases reads with ⟨middle, moves, own⟩
  have middleWithin := Moves.within charts moves within
  have middleFresh := Moves.fresh charts moves within fresh
  cases own with
  | @intro state target loops token edge =>
    rintro ⟨loop, member, isBody⟩
    have sized : arena.Sized (innermost root loops) := by
      cases loops with
      | nil => simp at member
      | cons => exact (loop_repeats charts middleWithin.nest.1).isSized
    have offset : arena.offset target = arena.offset state + token.width :=
      (charts.offset_token sized middleWithin.owns edge).1
    have atStart : arena.offset state = 0 := middleFresh ⟨loop, member, isBody⟩
    change arena.offset target = 0
    omega

end Fresh

end Position

end Recast
