import Recast.Proofs.Position.Moves

/-!
# Positions inside a loop

A position of the body of a loop, seen from outside: the loop and the loops around it come on top of
its own. What can be read there is what the body can read, and once the body is through, what
follows the round (`reads_inside`, `ends_inside`). A run that must go on stands for the start of its
next round (`Starts.reads_iff`).
-/

namespace Recast

open Position List

variable {arena : Arena} {plot : Plot} {proper : Token → Prop} {root : LayoutId}
  {position next : Position} {token : Token} {outer : List Loop}

namespace Position

variable {loop : Loop}

/-- The position within further loops. -/
def inside (position : Position) (around : List Loop) : Position where
  state := position.state
  loops := position.loops ++ around

def roundEnd (arena : Arena) (loop : Loop) (outer : List Loop) : Position where
  state := arena.stop loop.body
  loops := loop :: outer

/-- At the end of a round, another one begins or the loop is left. -/
theorem move_roundEnd_iff (noEdges : arena.edges (arena.stop loop.body) = []) :
    Move arena (roundEnd arena loop outer) next ↔
      loop.toCome.mayContinue ∧
          next = ⟨arena.start loop.body, { loop with toCome := loop.toCome.minus 1 } :: outer⟩ ∨
        loop.toCome.mayStop ∧ next = ⟨loop.exit, outer⟩ := by
  constructor
  · intro move
    generalize isHere : roundEnd arena loop outer = here at move
    cases move with
    | again continues | leave stops =>
      simp only [roundEnd, mk.injEq, cons.injEq] at isHere
      rcases isHere with ⟨_, rfl, rfl⟩
      simp [*]
    | first edge | skip edge =>
      cases isHere
      simp [noEdges] at edge
  · rintro (⟨continues, rfl⟩ | ⟨stops, rfl⟩)
    · exact .again continues
    · exact .leave stops

theorem inside_injective {other : Position} {around : List Loop}
    (same : position.inside around = other.inside around) : position = other := by
  rcases position with ⟨_, _⟩
  rcases other with ⟨_, _⟩
  simp only [inside, mk.injEq, append_left_inj] at same
  rw [same.1, same.2]

theorem innermost_append (loops : List Loop) :
    innermost root (loops ++ loop :: outer) = innermost loop.body loops := by
  cases loops <;> rfl

theorem nest_append {loops : List Loop} (nest : Nest arena plot loop.body loops)
    (around : Nest arena plot root (loop :: outer)) :
    Nest arena plot root (loops ++ loop :: outer) := by
  induction loops with
  | nil => exact around
  | cons _ rest ih =>
    refine ⟨?_, ih nest.2⟩
    have within := nest.1
    rwa [← innermost_append rest] at within

theorem Within.inside (within : position.Within arena plot loop.body)
    (around : Nest arena plot root (loop :: outer)) :
    (position.inside (loop :: outer)).Within arena plot root := by
  refine ⟨?_, nest_append within.nest around⟩
  have owns := within.owns
  rwa [← innermost_append position.loops] at owns

theorem within_roundEnd (charts : arena.Charts plot proper)
    (around : Nest arena plot root (loop :: outer)) :
    (roundEnd arena loop outer).Within arena plot root :=
  ⟨charts.owns_stop (loop_repeats charts around.1).inside, around⟩

section Lift

theorem Move.inside (move : Move arena position next) (around : List Loop) :
    Move arena (position.inside around) (next.inside around) := by
  cases move with
  | again continues => exact .again continues
  | leave stops => exact .leave stops
  | first edge continues => exact .first edge continues
  | skip edge stops => exact .skip edge stops

theorem Moves.inside (moves : Moves arena position next) (around : List Loop) :
    Moves arena (position.inside around) (next.inside around) := by
  induction moves with
  | refl => exact .refl
  | tail _ move ih => exact ih.tail (move.inside around)

theorem Reads.inside (reads : Reads arena position token next) (around : List Loop) :
    Reads arena (position.inside around) token (next.inside around) := by
  rcases reads with ⟨_, moves, ⟨edge⟩⟩
  exact ⟨_, Moves.inside moves around, .intro edge⟩

theorem Move.of_inside (move : Move arena (position.inside (loop :: outer)) next) :
    (∃ within, Move arena position within ∧ next = within.inside (loop :: outer)) ∨
      position = ⟨arena.stop loop.body, []⟩ := by
  rcases position with ⟨state, loops⟩
  generalize isHere : Position.inside ⟨state, loops⟩ (loop :: outer) = here at move
  simp only [Position.inside] at isHere
  cases move with
  | @again _ _ _ _ continues =>
    simp only [Position.mk.injEq] at isHere
    rcases isHere with ⟨rfl, same⟩
    rcases loops with _ | ⟨_, _⟩
    · simp only [nil_append, cons.injEq] at same
      exact .inr (by rw [same.1])
    · simp only [cons_append, cons.injEq] at same
      rcases same with ⟨rfl, rfl⟩
      exact .inl ⟨_, .again continues, rfl⟩
  | @leave _ _ _ _ stops =>
    simp only [mk.injEq] at isHere
    rcases isHere with ⟨rfl, same⟩
    rcases loops with _ | ⟨_, _⟩
    · simp only [nil_append, cons.injEq] at same
      exact .inr (by rw [same.1])
    · simp only [cons_append, cons.injEq] at same
      rcases same with ⟨rfl, rfl⟩
      exact .inl ⟨_, .leave stops, rfl⟩
  | first edge continues =>
    simp only [mk.injEq] at isHere
    rcases isHere with ⟨rfl, rfl⟩
    exact .inl ⟨_, .first edge continues, rfl⟩
  | skip edge stops =>
    simp only [mk.injEq] at isHere
    rcases isHere with ⟨rfl, rfl⟩
    exact .inl ⟨_, .skip edge stops, rfl⟩

theorem Own.of_inside {around : List Loop} (own : Own arena (position.inside around) token next) :
    ∃ within, Own arena position token within ∧ next = within.inside around := by
  rcases position with ⟨state, loops⟩
  cases own with
  | intro edge => exact ⟨_, .intro edge, rfl⟩

theorem Moves.of_inside (moves : Moves arena (position.inside (loop :: outer)) next) :
    (∃ within, Moves arena position within ∧ next = within.inside (loop :: outer)) ∨
      Moves arena position ⟨arena.stop loop.body, []⟩ ∧
      Moves arena (roundEnd arena loop outer) next := by
  induction moves with
  | refl => exact .inl ⟨position, .refl, rfl⟩
  | @tail _ _ _ move ih =>
    rcases ih with ⟨_, moves, rfl⟩ | ⟨through, onward⟩
    · rcases move.of_inside with ⟨further, step, rfl⟩ | rfl
      · exact .inl ⟨further, moves.tail step, rfl⟩
      · exact .inr ⟨moves, .single move⟩
    · exact .inr ⟨through, onward.tail move⟩

variable (charts : arena.Charts plot proper)
include charts

theorem ends_iff_moves (within : position.Within arena plot root) :
    Ends arena position ↔ Moves arena position ⟨arena.stop root, []⟩ := by
  constructor
  · rintro ⟨last, moves, final⟩
    have isLast : last = ⟨arena.stop root, []⟩ := by
      rcases last with ⟨state, _⟩
      rcases final with ⟨rfl, accepting⟩
      have owns := (Moves.within charts moves within).owns
      have atStop : state = arena.stop root := (charts.accepting_iff owns).mp accepting
      rw [atStop]
    exact isLast ▸ moves
  · intro moves
    have owns : arena.Owns plot root (arena.stop root) := (Moves.within charts moves within).owns
    exact ⟨_, moves, rfl, (charts.accepting_iff owns).mpr rfl⟩

/-- Inside a loop, the body is read, and once it is through, what follows the round. -/
theorem reads_inside (within : position.Within arena plot loop.body) :
    Reads arena (position.inside (loop :: outer)) token next ↔
      (∃ further, Reads arena position token further ∧ next = further.inside (loop :: outer)) ∨
        Ends arena position ∧ Reads arena (roundEnd arena loop outer) token next := by
  rw [ends_iff_moves charts within]
  constructor
  · rintro ⟨middle, moves, own⟩
    rcases Moves.of_inside moves with ⟨further, inner, rfl⟩ | ⟨through, onward⟩
    · rcases own.of_inside with ⟨last, read, rfl⟩
      exact .inl ⟨last, ⟨further, inner, read⟩, rfl⟩
    · exact .inr ⟨through, middle, onward, own⟩
  · rintro (⟨_, reads, rfl⟩ | ⟨through, reads⟩)
    · exact reads.inside _
    · exact .of_moves (Moves.inside through (loop :: outer)) reads

theorem ends_inside (within : position.Within arena plot loop.body) :
    Ends arena (position.inside (loop :: outer)) ↔
      Ends arena position ∧ Ends arena (roundEnd arena loop outer) := by
  rw [ends_iff_moves charts within]
  constructor
  · rintro ⟨middle, moves, final⟩
    rcases Moves.of_inside moves with ⟨_, _, rfl⟩ | ⟨through, onward⟩
    · simp [Final, inside] at final
    · exact ⟨through, middle, onward, final⟩
  · rintro ⟨through, ends⟩
    exact ends.of_moves (Moves.inside through (loop :: outer))

end Lift

end Position

namespace Run

def loop (run : Run) (begun : Nat) : Loop :=
  ⟨run.body, run.exit, run.count.minus begun⟩

def inside (run : Run) (around : List Loop) : Run :=
  { run with outer := run.outer ++ around }

theorem after_inside (run : Run) (arena : Arena) (around : List Loop) (rounds : Nat) :
    (run.inside around).after arena rounds = (run.after arena rounds).inside around := by
  by_cases ended : run.count.minus rounds = .exact 0
  · simp only [after, inside, Position.inside, ended, if_true]
  · simp only [after, inside, Position.inside, ended, if_false, cons_append]

def entry (run : Run) (arena : Arena) : Position :=
  (Position.root arena run.body).inside (run.loop 1 :: run.outer)

end Run

namespace Position

section Runs

variable {run : Run}

theorem run_cases (isRun : position.run? arena = some run) :
    arena.edges position.state = [⟨.rep run.body run.count, run.exit⟩] ∧
    position.loops = run.outer ∨
      position = roundEnd arena (run.loop 0) run.outer ∧ run.count.mayStop = false := by
  simp only [run?] at isRun
  split at isRun
  · rename_i body count exit only
    simp only [Option.some.injEq] at isRun
    subst isRun
    exact .inl ⟨only, rfl⟩
  · split at isRun
    · rename_i loop outer finished
      split at isRun
      · simp at isRun
      · rename_i goesOn
        simp only [Option.some.injEq] at isRun
        subst isRun
        refine .inr ⟨(finishedRound_eq_some.mp finished).trans ?_, by simpa using goesOn⟩
        rcases loop with ⟨_, _, _ | _⟩ <;> rfl
    · simp at isRun

structure Starts (arena : Arena) (position : Position) (run : Run) : Prop where
  isRun : position.run? arena = some run
  goesOn : run.count.least ≠ 0

theorem Starts.of_edge {state exit : StateId} {loops : List Loop} {body : LayoutId} {count : Count}
    (only : arena.edges state = [⟨.rep body count, exit⟩]) (goesOn : count.least ≠ 0) :
    Starts arena ⟨state, loops⟩ ⟨body, count, exit, loops⟩ :=
  ⟨by simp [run?, only], goesOn⟩

theorem Starts.cases (starts : Starts arena position run) :
    arena.edges position.state = [⟨.rep run.body run.count, run.exit⟩] ∧
    position.loops = run.outer ∨ position = roundEnd arena (run.loop 0) run.outer :=
  (run_cases starts.isRun).imp_right And.left

theorem Starts.of_roundEnd (charts : arena.Charts plot proper) {loop : Loop}
    (nest : Nest arena plot root (loop :: outer)) (goesOn : loop.toCome.least ≠ 0) :
    Starts arena (roundEnd arena loop outer) ⟨loop.body, loop.toCome, loop.exit, outer⟩ := by
  have noEdges := charts.edges_stop (loop_repeats charts nest.1).inside
  have goes : loop.toCome.mayStop = false := by
    simpa [Count.mayStop] using goesOn
  refine ⟨?_, goesOn⟩
  simp [run?, finishedRound?, roundEnd, noEdges, goes]

theorem Starts.of_inside (charts : arena.Charts plot proper) {loop : Loop}
    (within : position.Within arena plot loop.body)
    (starts : Starts arena (position.inside (loop :: outer)) run) :
    (∃ inner, Starts arena position inner ∧ run = inner.inside (loop :: outer)) ∨
      position = ⟨arena.stop loop.body, []⟩ := by
  rcases position with ⟨_, loops⟩
  rcases starts.cases with ⟨only, same⟩ | same
  · refine .inl ⟨⟨run.body, run.count, run.exit, loops⟩, .of_edge only starts.goesOn, ?_⟩
    rcases run with ⟨_, _, _, _⟩
    simp only [inside] at same
    simp [Run.inside, same]
  · simp only [inside, roundEnd, mk.injEq] at same
    rcases loops with _ | ⟨_, _⟩
    · simp only [nil_append, cons.injEq] at same
      rcases same with ⟨rfl, rfl, _⟩
      exact .inr rfl
    · simp only [cons_append, cons.injEq] at same
      rcases same with ⟨rfl, rfl, isOuter⟩
      have goesOn : (run.loop 0).toCome.least ≠ 0 := by
        simpa [Run.loop] using starts.goesOn
      refine .inl ⟨_, .of_roundEnd charts within.nest goesOn, ?_⟩
      rcases run with ⟨_, _, _, _⟩
      simp only at isOuter
      simp [Run.inside, Run.loop, isOuter]

theorem Starts.nest (starts : Starts arena position run) (within : position.Within arena plot root)
    (begun : Nat) :
    Nest arena plot root (run.loop (begun + 1) :: run.outer) := by
  rcases starts.cases with ⟨only, same⟩ | rfl
  · rw [← same]
    refine ⟨⟨_, _, within.owns, ?_, ⟨begun, rfl⟩⟩, within.nest⟩
    rw [only]
    exact mem_singleton_self _
  · rcases within.nest with ⟨⟨source, count, owns, edge, follows⟩, nest⟩
    refine ⟨⟨source, count, owns, edge, ?_⟩, nest⟩
    have minus := follows.minus (begun + 1)
    simpa only [Run.loop, Count.minus_minus, Nat.zero_add] using minus

variable (charts : arena.Charts plot proper)
include charts

theorem Within.after {number : Nat}
    (within : (roundEnd arena (run.loop number) run.outer).Within arena plot root) :
    (run.after arena number).Within arena plot root := by
  simp only [Run.after]
  split
  · exact ⟨(loop_repeats charts within.nest.1).owns, within.nest.2⟩
  · exact within

theorem not_own_of_run (within : position.Within arena plot root)
    (isRun : position.run? arena = some run) :
    ¬ Own arena position token next := by
  rintro ⟨edge⟩
  rcases run_cases isRun with ⟨only, _⟩ | ⟨same, _⟩
  · simp [only] at edge
  · simp only [roundEnd, mk.injEq] at same
    rcases same with ⟨rfl, rfl⟩
    have noEdges := charts.edges_stop (loop_repeats charts within.nest.1).inside
    simp [noEdges] at edge

section

variable (starts : Starts arena position run) (within : position.Within arena plot root)
include starts within

theorem Starts.move_iff : Move arena position next ↔ next = run.entry arena := by
  have notStop : run.count.mayStop ≠ true := by
    rw [Ne, Count.mayStop_iff]
    exact starts.goesOn
  have continues : run.count.mayContinue := by
    have goesOn := starts.goesOn
    rcases count : run.count with number | number
    · simpa [Count.mayContinue, count, Count.least] using goesOn
    · rfl
  rcases starts.cases with ⟨only, same⟩ | rfl
  · rcases position with ⟨state, loops⟩
    simp only at only same
    subst same
    have notFinished : finishedRound? arena ⟨state, run.outer⟩ = none := by
      refine Option.eq_none_iff_forall_ne_some.mpr fun _ isFound => ?_
      have noEdges := edges_eq_nil_of_finishedRound charts within (by simp [isFound])
      simp [only] at noEdges
    constructor
    · intro move
      generalize isOuter : run.outer = loops at move within notFinished
      cases move with
      | again | leave => simp [finishedRound?] at notFinished
      | first edge =>
        simp only [only, mem_singleton, Edge.mk.injEq, Label.rep.injEq] at edge
        rcases edge with ⟨⟨rfl, rfl⟩, rfl⟩
        simp [Run.entry, Position.inside, Run.loop, Position.root, isOuter]
      | skip edge stops =>
        simp only [only, mem_singleton, Edge.mk.injEq, Label.rep.injEq] at edge
        rcases edge with ⟨⟨rfl, rfl⟩, rfl⟩
        exact absurd stops notStop
    · rintro rfl
      have edge : ⟨.rep run.body run.count, run.exit⟩ ∈ arena.edges state := by simp [only]
      exact .first edge continues
  · have noEdges := charts.edges_stop (loop_repeats charts within.nest.1).inside
    rw [move_roundEnd_iff noEdges]
    simp [Run.loop, Count.minus_zero, notStop, continues, Run.entry, Position.inside, Position.root]

theorem Starts.not_final : ¬ Final arena position := by
  rintro ⟨noLoops, accepting⟩
  rcases position with ⟨state, _⟩
  subst noLoops
  rcases starts.cases with ⟨only, _⟩ | same
  · have atStop : state = arena.stop root := (charts.accepting_iff within.owns).mp accepting
    have noEdges : arena.edges (arena.stop root) = [] :=
      charts.edges_stop (charts.owner within.owns)
    simp [atStop, noEdges] at only
  · simp [roundEnd] at same

theorem Starts.reads_iff :
    Reads arena position token next ↔ Reads arena (run.entry arena) token next := by
  rw [Position.reads_iff]
  simp [not_own_of_run charts within starts.isRun, starts.move_iff charts within]

theorem Starts.ends_iff : Ends arena position ↔ Ends arena (run.entry arena) := by
  rw [Position.ends_iff]
  simp [starts.not_final charts within, starts.move_iff charts within]

theorem within_after (begun : Nat) : (run.after arena (begun + 1)).Within arena plot root :=
  (within_roundEnd charts (starts.nest within begun)).after charts

end

end Runs

end Position

end Recast
