import Mathlib.Logic.Relation
import Recast.Position.Run
import Recast.Proofs.Arena.Chart

/-!
# Moves

A position moves silently where a loop is entered, skipped, continued or left; `Position.Reads` and
`Position.Ends` look through any number of such moves. In a charted arena this is what
`Position.ahead` finds out (`mem_reads_ahead`, `mayEnd_ahead`): silent moves leave loops first, then
enter layouts with ever higher numbers, so there are never more of them than `Position.silentDepth`
allows for.
-/

namespace Recast

open List

variable {arena : Arena} {plot : Plot} {proper : Token → Prop} {id root : LayoutId} {count : Count}
  {position next : Position} {token : Token} {loop : Loop} {outer : List Loop}

namespace Count

@[simp]
theorem minus_zero (count : Count) : count.minus 0 = count := by
  cases count <;> rfl

theorem minus_minus (count : Count) (first second : Nat) :
    (count.minus first).minus second = count.minus (first + second) := by
  cases count <;> simp only [minus, Nat.sub_sub]

theorem mayStop_iff : count.mayStop ↔ count.least = 0 := decide_eq_true_iff

theorem least_minus (count : Count) (taken : Nat) :
    (count.minus taken).least = count.least - taken := by
  cases count <;> rfl

def Follows (count toCome : Count) : Prop :=
  ∃ rounds, toCome = count.minus (rounds + 1)

theorem Follows.minus {toCome : Count} (follows : count.Follows toCome) (taken : Nat) :
    count.Follows (toCome.minus taken) := by
  rcases follows with ⟨rounds, rfl⟩
  exact ⟨rounds + taken, by rw [minus_minus]; congr 1; omega⟩

end Count

namespace Position

/-- A move without reading: at the end of a round into the next one or out of the loop, elsewhere
into the first round of a repeat or past it. -/
inductive Move (arena : Arena) : Position → Position → Prop
  | again {body : LayoutId} {exit : StateId} {toCome : Count} {outer : List Loop}
      (continues : toCome.mayContinue) :
      Move arena ⟨arena.stop body, ⟨body, exit, toCome⟩ :: outer⟩
        ⟨arena.start body, ⟨body, exit, toCome.minus 1⟩ :: outer⟩
  | leave {body : LayoutId} {exit : StateId} {toCome : Count} {outer : List Loop}
      (stops : toCome.mayStop) :
      Move arena ⟨arena.stop body, ⟨body, exit, toCome⟩ :: outer⟩ ⟨exit, outer⟩
  | first {state exit : StateId} {loops : List Loop} {body : LayoutId} {count : Count}
      (edge : ⟨.rep body count, exit⟩ ∈ arena.edges state)
      (continues : count.mayContinue) :
      Move arena ⟨state, loops⟩ ⟨arena.start body, ⟨body, exit, count.minus 1⟩ :: loops⟩
  | skip {state exit : StateId} {loops : List Loop} {body : LayoutId} {count : Count}
      (edge : ⟨.rep body count, exit⟩ ∈ arena.edges state) (stops : count.mayStop) :
      Move arena ⟨state, loops⟩ ⟨exit, loops⟩

inductive Own (arena : Arena) : Position → Token → Position → Prop
  | intro {state target : StateId} {loops : List Loop} {token : Token}
      (edge : ⟨.token token, target⟩ ∈ arena.edges state) :
      Own arena ⟨state, loops⟩ token ⟨target, loops⟩

def Final (arena : Arena) (position : Position) : Prop :=
  position.loops = [] ∧ (arena.state position.state).accepting

abbrev Moves (arena : Arena) : Position → Position → Prop :=
  Relation.ReflTransGen (Move arena)

def Reads (arena : Arena) (position : Position) (token : Token) (next : Position) : Prop :=
  ∃ middle, Moves arena position middle ∧ Own arena middle token next

def Ends (arena : Arena) (position : Position) : Prop :=
  ∃ middle, Moves arena position middle ∧ Final arena middle

theorem Reads.of_moves {middle : Position} (moves : Moves arena position middle)
    (reads : Reads arena middle token next) :
    Reads arena position token next := by
  rcases reads with ⟨last, onward, own⟩
  exact ⟨last, moves.trans onward, own⟩

theorem Ends.of_moves {middle : Position} (moves : Moves arena position middle)
    (ends : Ends arena middle) : Ends arena position := by
  rcases ends with ⟨last, onward, final⟩
  exact ⟨last, moves.trans onward, final⟩

theorem mem_ownReads : (token, next) ∈ position.ownReads arena ↔ Own arena position token next := by
  simp only [ownReads, mem_filterMap]
  constructor
  · rintro ⟨⟨label, _⟩, member, found⟩
    cases label with
    | token =>
      simp only [Option.some.injEq, Prod.mk.injEq] at found
      rcases found with ⟨rfl, rfl⟩
      exact .intro member
    | rep => simp at found
  · rintro ⟨edge⟩
    exact ⟨_, edge, rfl⟩

end Position

namespace Arena

namespace Charts

variable {body : LayoutId} {state exit : StateId} {edge : Edge}

variable (charts : arena.Charts plot proper)
include charts

theorem owns_target (owns : arena.Owns plot id state) (member : edge ∈ arena.edges state) :
    arena.Owns plot id edge.target :=
  ((charts.state owns).edges edge member).owns

theorem owns_start (inside : id.index < arena.layouts.size) : arena.Owns plot id (arena.start id) :=
  (charts.layout inside).start

theorem owns_stop (inside : id.index < arena.layouts.size) : arena.Owns plot id (arena.stop id) :=
  (charts.layout inside).stop

theorem accepting_iff (owns : arena.Owns plot id state) :
    (arena.state state).accepting ↔ state = arena.stop id :=
  (charts.state owns).accepting

theorem edges_stop (inside : id.index < arena.layouts.size) : arena.edges (arena.stop id) = [] :=
  (charts.state (charts.owns_stop inside)).stop rfl

section

variable (owns : arena.Owns plot id state) (member : ⟨.rep body count, exit⟩ ∈ arena.edges state)
include owns member

theorem repeats : arena.Repeats plot id body exit := by
  cases (charts.state owns).edges _ member with
  | rep repeats => exact repeats

theorem skips (open_ : ∀ number, count = .exact number → number < 2) :
    (arena.layout id).size = none ∧ exit = arena.stop id := by
  cases (charts.state owns).edges _ member with
  | rep _ rounds =>
    cases count with
    | exact number =>
      have few := open_ _ rfl
      have several : 2 ≤ number := rounds
      omega
    | atLeast => exact rounds

end

theorem start_ne_stop (repeated : arena.Repeats plot id body exit) :
    arena.start body ≠ arena.stop body := by
  rcases repeated.sized with ⟨unit, sized, positive⟩
  have settled := charts.layout repeated.inside
  intro same
  exact positive ((settled.size unit sized).symm.trans (same ▸ settled.zero))

end Charts

end Arena

/-- The loop is one that a layout has: one of its repeats, with a round under way. -/
def Loop.Within (arena : Arena) (plot : Plot) (id : LayoutId) (loop : Loop) : Prop :=
  ∃ source count, arena.Owns plot id source ∧
    ⟨.rep loop.body count, loop.exit⟩ ∈ arena.edges source ∧ count.Follows loop.toCome

namespace Position

def innermost (root : LayoutId) : List Loop → LayoutId
  | [] => root
  | loop :: _ => loop.body

@[simp]
theorem innermost_nil : innermost root [] = root := rfl

@[simp]
theorem innermost_cons : innermost root (loop :: outer) = loop.body := rfl

def Nest (arena : Arena) (plot : Plot) (root : LayoutId) : List Loop → Prop
  | [] => root.index < arena.layouts.size
  | loop :: outer =>
    loop.Within arena plot (innermost root outer) ∧ Nest arena plot root outer

structure Within (arena : Arena) (plot : Plot) (root : LayoutId) (position : Position) : Prop where
  owns : arena.Owns plot (innermost root position.loops) position.state
  nest : Nest arena plot root position.loops

section Within

variable (charts : arena.Charts plot proper)
include charts

theorem loop_repeats (within : loop.Within arena plot id) :
    arena.Repeats plot id loop.body loop.exit := by
  rcases within with ⟨_, _, owns, edge, _⟩
  exact charts.repeats owns edge

theorem loops_eq_nil_of_unsized {loops : List Loop} (nest : Nest arena plot root loops)
    (unsized : (arena.layout (innermost root loops)).size = none) : loops = [] := by
  cases loops with
  | nil => rfl
  | cons =>
    rcases (loop_repeats charts nest.1).sized with ⟨_, sized, _⟩
    simp only [innermost] at unsized
    simp [unsized] at sized

theorem within_root (inside : root.index < arena.layouts.size) :
    (Position.root arena root).Within arena plot root :=
  ⟨charts.owns_start inside, inside⟩

theorem Move.within (move : Move arena position next) (within : position.Within arena plot root) :
    next.Within arena plot root := by
  rcases within with ⟨owns, nest⟩
  cases move with
  | again =>
    rcases nest with ⟨⟨source, count, sourceOwned, edge, follows⟩, nest⟩
    have repeated := charts.repeats sourceOwned edge
    exact ⟨charts.owns_start repeated.inside, ⟨source, count, sourceOwned, edge, follows.minus 1⟩,
      nest⟩
  | leave => exact ⟨(loop_repeats charts nest.1).owns, nest.2⟩
  | @first _ _ _ _ count edge _ =>
    exact ⟨charts.owns_start (charts.repeats owns edge).inside, ⟨_, _, owns, edge, 0, rfl⟩, nest⟩
  | skip edge => exact ⟨charts.owns_target owns edge, nest⟩

theorem Own.within (own : Own arena position token next)
    (within : position.Within arena plot root) :
    next.Within arena plot root := by
  cases own with
  | intro edge => exact ⟨charts.owns_target within.owns edge, within.nest⟩

theorem Moves.within (moves : Moves arena position next)
    (within : position.Within arena plot root) :
    next.Within arena plot root := by
  induction moves with
  | refl => exact within
  | tail _ move ih => exact move.within charts ih

theorem Reads.within (reads : Reads arena position token next)
    (within : position.Within arena plot root) :
    next.Within arena plot root := by
  rcases reads with ⟨_, moves, own⟩
  exact own.within charts (Moves.within charts moves within)

theorem Reads.isProper (reads : Reads arena position token next)
    (within : position.Within arena plot root) :
    proper token := by
  rcases reads with ⟨_, moves, ⟨edge⟩⟩
  have owns := (Moves.within charts moves within).owns
  cases (charts.state owns).edges _ edge with
  | token isProper => exact isProper

end Within

theorem finishedRound_eq_some :
    position.finishedRound? arena = some (loop, outer) ↔
      position = ⟨arena.stop loop.body, loop :: outer⟩ := by
  rcases position with ⟨state, loops⟩
  simp only [finishedRound?]
  rcases loops with _ | ⟨inner, around⟩
  · simp
  · simp only [Position.mk.injEq, cons.injEq]
    split
    · rename_i same
      simp only [Option.some.injEq, Prod.mk.injEq]
      exact ⟨fun ⟨left, right⟩ => ⟨left ▸ same, left, right⟩, fun ⟨_, rest⟩ => rest⟩
    · rename_i other
      simp only [reduceCtorEq, false_iff, not_and]
      rintro same rfl
      exact absurd same other

section

variable (charts : arena.Charts plot proper) (within : position.Within arena plot root)
include charts within

theorem edges_eq_nil_of_finishedRound
    (finished : position.finishedRound? arena ≠ none) : arena.edges position.state = [] := by
  rcases isSome : position.finishedRound? arena with _ | ⟨_, _⟩
  · exact absurd isSome finished
  · rw [finishedRound_eq_some] at isSome
    subst isSome
    exact charts.edges_stop (loop_repeats charts within.nest.1).inside

theorem mem_silent : next ∈ position.silent arena ↔ Move arena position next := by
  rcases finished : position.finishedRound? arena with _ | ⟨loop, outer⟩
  · simp only [silent, finished, mem_flatMap, mem_reverse]
    constructor
    · rintro ⟨⟨label, _⟩, edge, member⟩
      cases label with
      | token => simp [enter] at member
      | rep =>
        simp only [enter, mem_append, mem_ite_nil_right, mem_singleton] at member
        rcases member with ⟨continues, rfl⟩ | ⟨stops, rfl⟩
        · exact .first edge continues
        · exact .skip edge stops
    · intro move
      have notFinished (loop : Loop) (outer : List Loop) : position ≠
          ⟨arena.stop loop.body, loop :: outer⟩ := by
        intro same
        rw [finishedRound_eq_some.mpr same] at finished
        exact Option.some_ne_none _ finished
      cases move with
      | @again body exit toCome outer _ => exact absurd rfl (notFinished ⟨body, exit, toCome⟩ outer)
      | @leave body exit toCome outer _ => exact absurd rfl (notFinished ⟨body, exit, toCome⟩ outer)
      | first edge continues => exact ⟨_, edge, by simp [enter, continues]⟩
      | skip edge stops => exact ⟨_, edge, by simp [enter, stops, goto]⟩
  · have noEdges := edges_eq_nil_of_finishedRound charts within (by simp [finished])
    simp only [silent, finished, afterRound, mem_append, mem_ite_nil_right, mem_singleton]
    rw [finishedRound_eq_some] at finished
    constructor
    · rw [finished]
      rintro (⟨continues, rfl⟩ | ⟨stops, rfl⟩)
      · exact .again continues
      · exact .leave stops
    · intro move
      cases move with
      | again continues =>
        simp only [Position.mk.injEq, cons.injEq] at finished
        rcases finished with ⟨_, rfl, rfl⟩
        exact .inl ⟨continues, rfl⟩
      | leave stops =>
        simp only [Position.mk.injEq, cons.injEq] at finished
        rcases finished with ⟨_, rfl, rfl⟩
        exact .inr ⟨stops, rfl⟩
      | first edge | skip edge => simp [noEdges] at edge

end

/-- A bound on the silent moves from a position: first loops are left, then layouts with ever higher
numbers are entered. A position where the value is over has none. -/
def slack (arena : Arena) (root : LayoutId) (position : Position) : Nat :=
  if position.loops = [] ∧ arena.edges position.state = [] then 0
  else if position.state = arena.start (innermost root position.loops) then
    arena.layouts.size - (innermost root position.loops).index
  else position.loops.length + arena.layouts.size + 1

theorem slack_le : slack arena root position ≤ position.loops.length + arena.layouts.size + 1 := by
  unfold slack
  split
  · omega
  · split <;> omega

theorem Move.slack_lt (charts : arena.Charts plot proper) (move : Move arena position next)
    (within : position.Within arena plot root) :
    slack arena root next < slack arena root position := by
  rcases within with ⟨owns, nest⟩
  cases move with
  | @again body exit toCome outer _ =>
    have repeated := loop_repeats charts nest.1
    have apart := (charts.start_ne_stop repeated).symm
    simp only [slack, reduceCtorEq, false_and, if_false, innermost_cons, if_true, apart,
      length_cons]
    omega
  | @leave body exit toCome outer _ =>
    have repeated := loop_repeats charts nest.1
    have apart := (charts.start_ne_stop repeated).symm
    have bounded : slack arena root ⟨exit, outer⟩ ≤ outer.length + arena.layouts.size + 1 :=
      slack_le
    have large : slack arena root ⟨arena.stop body, ⟨body, exit, toCome⟩ :: outer⟩ =
        outer.length + 1 + arena.layouts.size + 1 := by
      simp [slack, apart]
    omega
  | @first state exit loops body count edge _ =>
    have repeated := charts.repeats owns edge
    have deeper : (innermost root loops).index < body.index := repeated.deeper
    have inside := repeated.inside
    have someEdge := ne_nil_of_mem edge
    simp only [slack, reduceCtorEq, false_and, if_false, innermost_cons, if_true, someEdge,
      and_false]
    by_cases atStart : state = arena.start (innermost root loops)
    · simp only [atStart, if_true]
      omega
    · simp only [atStart, if_false]
      omega
  | @skip state exit loops body count edge stops =>
    have someEdge := ne_nil_of_mem edge
    have few (number : Nat) (isExact : count = .exact number) : number < 2 := by
      subst isExact
      have none : number = 0 := Count.mayStop_iff.mp stops
      omega
    rcases charts.skips owns edge few with ⟨unsized, rfl⟩
    have noLoops := loops_eq_nil_of_unsized charts nest unsized
    subst noLoops
    have inside : root.index < arena.layouts.size := nest
    have noEdges := charts.edges_stop inside
    simp only [slack, innermost_nil, noEdges, someEdge, and_self, and_false, if_true, if_false]
    by_cases atStart : state = arena.start root
    · simp only [atStart, if_true]
      omega
    · simp only [atStart, if_false]
      omega

theorem reads_iff : Reads arena position token next ↔
    Own arena position token next ∨
      ∃ middle, Move arena position middle ∧ Reads arena middle token next := by
  constructor
  · rintro ⟨last, moves, own⟩
    rcases Relation.ReflTransGen.cases_head moves with rfl | ⟨middle, move, onward⟩
    · exact .inl own
    · exact .inr ⟨middle, move, last, onward, own⟩
  · rintro (own | ⟨_, move, reads⟩)
    · exact ⟨position, .refl, own⟩
    · exact .of_moves (.single move) reads

theorem ends_iff : Ends arena position ↔
    Final arena position ∨ ∃ middle, Move arena position middle ∧ Ends arena middle := by
  constructor
  · rintro ⟨last, moves, final⟩
    rcases Relation.ReflTransGen.cases_head moves with rfl | ⟨middle, move, onward⟩
    · exact .inl final
    · exact .inr ⟨middle, move, last, onward, final⟩
  · rintro (final | ⟨_, move, ends⟩)
    · exact ⟨position, .refl, final⟩
    · exact .of_moves (.single move) ends

section Charted

variable (charts : arena.Charts plot proper)
include charts

theorem aheadWithin_succ (depth : Nat) (within : position.Within arena plot root) :
    aheadWithin arena (depth + 1) position =
      position.ownAhead arena ++ Ahead.concat
        ((position.silent arena).map (aheadWithin arena depth)) := by
  rw [aheadWithin]
  rcases finished : position.finishedRound? arena with _ | ⟨_, _⟩
  · rfl
  · have noEdges := edges_eq_nil_of_finishedRound charts within (by simp [finished])
    have nothing : position.ownAhead arena = {} := by
      have inLoop : position.loops.isEmpty = false := by
        rw [finishedRound_eq_some.mp finished]
        rfl
      simp [ownAhead, ownReads, noEdges, inLoop]
    simp only [nothing]
    rcases Ahead.concat _ with ⟨mayEnd, reads⟩
    change (⟨mayEnd, reads⟩ : Ahead) = ⟨false || mayEnd, [] ++ reads⟩
    simp

theorem mem_reads_aheadWithin {depth : Nat} (within : position.Within arena plot root)
    (enough : slack arena root position < depth) :
    (token, next) ∈ (aheadWithin arena depth position).reads ↔ Reads arena position token next := by
  induction depth generalizing position with
  | zero => omega
  | succ depth ih =>
    rw [aheadWithin_succ charts depth within, Ahead.reads_append, mem_append, Ahead.reads_concat,
      reads_iff]
    simp only [ownAhead, mem_ownReads, flatMap_map, mem_flatMap]
    refine or_congr Iff.rfl (exists_congr fun middle => ?_)
    rw [mem_silent charts within]
    refine and_congr_right fun move => ih (move.within charts within) ?_
    have shrinks := move.slack_lt charts within
    omega

theorem mayEnd_aheadWithin {depth : Nat} (within : position.Within arena plot root)
    (enough : slack arena root position < depth) :
    (aheadWithin arena depth position).mayEnd ↔ Ends arena position := by
  induction depth generalizing position with
  | zero => omega
  | succ depth ih =>
    rw [aheadWithin_succ charts depth within, Ahead.mayEnd_append, Bool.or_eq_true,
      Ahead.mayEnd_concat, ends_iff]
    simp only [ownAhead, Bool.and_eq_true, List.isEmpty_iff, any_map, any_eq_true,
      Function.comp_apply]
    refine or_congr Iff.rfl (exists_congr fun middle => ?_)
    rw [mem_silent charts within]
    refine and_congr_right fun move => ih (move.within charts within) ?_
    have shrinks := move.slack_lt charts within
    omega

end Charted

theorem slack_lt_silentDepth : slack arena root position < position.silentDepth arena := by
  have bounded : slack arena root position ≤ _ := slack_le
  simp only [silentDepth]
  omega

section

variable (charts : arena.Charts plot proper) (within : position.Within arena plot root)
include charts within

theorem mem_reads_ahead :
    (token, next) ∈ (position.ahead arena).reads ↔ Reads arena position token next :=
  mem_reads_aheadWithin charts within slack_lt_silentDepth

theorem mayEnd_ahead : (position.ahead arena).mayEnd ↔ Ends arena position :=
  mayEnd_aheadWithin charts within slack_lt_silentDepth

theorem aheadWithin_eq_aheadWithin {depth other : Nat} (enough : slack arena root position < depth)
    (enoughToo : slack arena root position < other) :
    aheadWithin arena depth position = aheadWithin arena other position := by
  induction depth generalizing position other with
  | zero => omega
  | succ depth ih =>
    rcases Nat.exists_eq_succ_of_ne_zero (Nat.ne_zero_of_lt enoughToo) with ⟨less, rfl⟩
    rw [aheadWithin_succ charts depth within, Nat.succ_eq_add_one,
      aheadWithin_succ charts less within]
    congr 2
    refine map_congr_left fun next member => ?_
    have move := (mem_silent charts within).mp member
    have shrinks := move.slack_lt charts within
    exact ih (move.within charts within) (by omega) (by omega)

end

end Position

end Recast
