import Recast.Position

/-!
# Runs

A run is a number of rounds of one body right ahead of a position, seen as a whole.
-/

namespace Recast

/-- A number of rounds of a body, and where they lead. -/
structure Run where
  body : LayoutId
  count : Count
  exit : StateId
  outer : List Loop

/-- The run ahead of a position, if nothing but a run is ahead: the only edge is a repeat, or a
round is through and more must follow. -/
def Position.run? (arena : Arena) (position : Position) : Option Run :=
  match arena.edges position.state with
  | [⟨.rep body count, exit⟩] => some ⟨body, count, exit, position.loops⟩
  | _ =>
    match position.finishedRound? arena with
    | some (loop, outer) =>
      if loop.toCome.mayStop then none
      else some ⟨loop.body, loop.toCome, loop.exit, outer⟩
    | none => none

namespace Run

def after (run : Run) (arena : Arena) (rounds : Nat) : Position :=
  let toCome := run.count.minus rounds
  if toCome = .exact 0 then { state := run.exit, loops := run.outer }
  else { state := arena.stop run.body, loops := ⟨run.body, run.exit, toCome⟩ :: run.outer }

/-- The position behind all rounds of a run, with no more of them than there must be. -/
def past (run : Run) : Position where
  state := run.exit
  loops := run.outer

end Run

end Recast
