import Recast.Arena

/-!
# Positions

A position is a state of an arena together with the loops that it is in: repeats whose body is
under way. Loops are unrolled on demand. `Position.ahead` says what can be read next, looking
through the starts and ends of loops.
-/

namespace Recast

structure Loop where
  body : LayoutId
  exit : StateId
  toCome : Count
deriving DecidableEq

/-- A state and the loops around it, innermost first. -/
structure Position where
  state : StateId
  loops : List Loop := []
deriving DecidableEq

structure Ahead where
  mayEnd : Bool := false
  reads : List (Token × Position) := []

namespace Ahead

instance : Append Ahead where
  append first second :=
    { mayEnd := first.mayEnd || second.mayEnd
      reads := first.reads ++ second.reads }

def concat (all : List Ahead) : Ahead :=
  all.foldr (· ++ ·) {}

@[simp]
theorem mayEnd_append (first second : Ahead) :
    (first ++ second).mayEnd = (first.mayEnd || second.mayEnd) := rfl

@[simp]
theorem reads_append (first second : Ahead) :
    (first ++ second).reads = first.reads ++ second.reads := rfl

theorem mayEnd_concat (all : List Ahead) : (concat all).mayEnd = all.any mayEnd := by
  induction all with
  | nil => rfl
  | cons first rest ih => simpa [concat] using congrArg (first.mayEnd || ·) ih

theorem reads_concat (all : List Ahead) : (concat all).reads = all.flatMap reads := by
  induction all with
  | nil => rfl
  | cons first rest ih => simpa [concat] using congrArg (first.reads ++ ·) ih

end Ahead

/-- Tells loops apart and orders them: by body, exit, kind and number of the rounds to come. -/
def Loop.key (loop : Loop) : List Nat :=
  let kind := if loop.toCome.isExact then 0 else 1
  [loop.body.index, loop.exit.index, kind, loop.toCome.least]

namespace Position

/-- Tells positions apart and orders them: by state, then by loops from the outermost on. -/
def key (position : Position) : List Nat :=
  position.state.index :: position.loops.reverse.flatMap Loop.key

def root (arena : Arena) (id : LayoutId) : Position where
  state := arena.start id

def goto (position : Position) (state : StateId) : Position :=
  { position with state }

/-- At the end of a round, the loop that it is a round of and the loops around that one. -/
def finishedRound? (arena : Arena) (position : Position) : Option (Loop × List Loop) :=
  match position.loops with
  | [] => none
  | loop :: outer => if position.state = arena.stop loop.body then some (loop, outer) else none

/-- Where a finished round leads: into another round, or out of the loop. -/
def afterRound (arena : Arena) (loop : Loop) (outer : List Loop) : List Position :=
  let again : Position :=
    { state := arena.start loop.body
      loops := { loop with toCome := loop.toCome.minus 1 } :: outer }
  let leave : Position := { state := loop.exit, loops := outer }
  (if loop.toCome.mayContinue then [again] else []) ++
    (if loop.toCome.mayStop then [leave] else [])

/-- Where an edge leads without reading anything: a repeat into its first round, or past it. -/
def enter (arena : Arena) (position : Position) (edge : Edge) : List Position :=
  match edge.label with
  | .token _ => []
  | .rep body count =>
    let first : Position :=
      { state := arena.start body
        loops := ⟨body, edge.target, count.minus 1⟩ :: position.loops }
    (if count.mayContinue then [first] else []) ++
      (if count.mayStop then [position.goto edge.target] else [])

def ownReads (arena : Arena) (position : Position) : List (Token × Position) :=
  (arena.edges position.state).filterMap fun edge =>
    match edge.label with
    | .token token => some (token, position.goto edge.target)
    | .rep _ _ => none

def ownAhead (arena : Arena) (position : Position) : Ahead where
  mayEnd := position.loops.isEmpty && (arena.state position.state).accepting
  reads := position.ownReads arena

/-- The positions that a position also stands for, because the way there reads nothing. Later
edges come before earlier ones. -/
def silent (arena : Arena) (position : Position) : List Position :=
  match position.finishedRound? arena with
  | some (loop, outer) => afterRound arena loop outer
  | none => (arena.edges position.state).reverse.flatMap (position.enter arena)

/-- What lies ahead of a position, looking through at most `depth` starts and ends of loops. At the
end of a round only what the loop leads to counts. -/
def aheadWithin (arena : Arena) : (depth : Nat) → Position → Ahead
  | 0, _ => {}
  | depth + 1, position =>
    let beyond := Ahead.concat ((position.silent arena).map (aheadWithin arena depth))
    match position.finishedRound? arena with
    | some _ => beyond
    | none => position.ownAhead arena ++ beyond

/-- A bound on the starts and ends of loops that can follow each other with nothing read between:
the loops around the position may all end, and each layout may start with a loop. -/
def silentDepth (arena : Arena) (position : Position) : Nat :=
  position.loops.length + arena.layouts.size + 2

def ahead (arena : Arena) (position : Position) : Ahead :=
  aheadWithin arena (position.silentDepth arena) position

end Position

end Recast
