import Recast.Position.Run

/-!
# Padding

Bytes without a value may be passed over in two ways: a fixed number of them, or all of them up to
the end of the value.
-/

namespace Recast.Position

def afterUninit (arena : Arena) (position : Position) : List Position :=
  (position.ahead arena).reads.filterMap fun (token, next) =>
    if token = .cell .uninit then some next else none

/-- The positions behind a number of bytes without a value, from any of some positions. -/
def passUninit (arena : Arena) : (width : Nat) → List Position → List Position
  | 0, positions => positions
  | _ + 1, [] => []
  | width + 1, positions =>
    passUninit arena width (positions.flatMap (afterUninit arena)).eraseDups

/-- The position with all that matters for what can be read from it, now and later, short of how
often: a loop that has to go on goes on once. -/
def blur (position : Position) : Position :=
  { position with
    loops := position.loops.map fun loop =>
      { loop with
        toCome := match loop.toCome with
          | .exact number => .exact (min number 1)
          | .atLeast number => .atLeast (min number 1) } }

/-- What lies ahead of a position, except that a run of padding counts as one byte of it. -/
def aheadOfPadding (arena : Arena) (position : Position) : Ahead :=
  match position.run? arena with
  | some run =>
    if (arena.layout run.body).padding then { reads := [(.cell .uninit, run.past)] }
    else position.ahead arena
  | none => position.ahead arena

/-- From some positions on, is all that can be read without a value, and may the value end? `seen`
are positions that have been looked at, and `mayEnd` tells whether it may at one of them. -/
def padsOut (arena : Arena) :
    (rounds : Nat) → (seen pending : List Position) → (mayEnd : Bool) → Bool
  | 0, _, _, _ => false
  | _ + 1, _, [], mayEnd => mayEnd
  | rounds + 1, seen, pending, mayEnd =>
    let all := Ahead.concat (pending.map (aheadOfPadding arena))
    if all.reads.all fun (token, _) => token = .cell .uninit then
      let known := seen ++ pending
      let next := (all.reads.map fun (_, next) => next.blur).eraseDups.filter (· ∉ known)
      padsOut arena rounds known next (mayEnd || all.mayEnd)
    else false

/-- May the value end after nothing but bytes without a value? Counts matter only as far as they
tell whether a loop may or must go on, so there are only so many positions to look at: for each
state, each layout may be looping around it or not, and if so with one of four counts and some
exit. -/
def endsInPadding (arena : Arena) (position : Position) : Bool :=
  let positions := arena.states.size * Nat.pow (4 * arena.states.size + 1) arena.layouts.size
  padsOut arena (positions + 2) [] [position.blur] false

end Recast.Position
