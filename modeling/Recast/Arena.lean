import Recast.Defect
import Recast.Pattern

/-!
# Arenas

A layout is an automaton whose states stand for byte offsets of a value and whose edges are labelled
with tokens, or with another layout to be repeated. All layouts of one question live in one arena,
so that states and layouts have numbers of their own and references can name their referents, in
cycles too. An arena only grows: layouts are reserved, and a reserved layout is defined once.
-/

namespace Recast

/-- What an edge reads: a token, or a number of values of another layout. -/
inductive Label where
  | token (letter : Token)
  | rep (body : LayoutId) (count : Count)
deriving DecidableEq

def Label.text : Label → String
  | .token letter => letter.text
  | .rep body count => s!"{body.text} x {count.text}"

structure Edge where
  label : Label
  target : StateId
deriving DecidableEq

structure State where
  offset : Nat
  accepting : Bool := false
  edges : List Edge := []
deriving DecidableEq

instance : Inhabited State where
  default := { offset := 0 }

/-- Where a layout starts and ends, and what is known of its values. -/
structure Layout where
  start : StateId
  stop : StateId
  size : Option Nat
  guarded : Bool
  padding : Bool
deriving DecidableEq

instance : Inhabited Layout where
  default := ⟨default, default, some 0, false, false⟩

structure Arena where
  states : Array State := #[]
  layouts : Array Layout := #[]
deriving DecidableEq

namespace Arena

instance : Inhabited Arena where
  default := {}

def layout (arena : Arena) (id : LayoutId) : Layout :=
  arena.layouts[id.index]?.getD default

def state (arena : Arena) (id : StateId) : State :=
  arena.states[id.index]?.getD default

def start (arena : Arena) (id : LayoutId) : StateId :=
  (arena.layout id).start

def stop (arena : Arena) (id : LayoutId) : StateId :=
  (arena.layout id).stop

def edges (arena : Arena) (id : StateId) : List Edge :=
  (arena.state id).edges

/-- States and layouts have 32-bit numbers, so an arena has room for no more of either. -/
def capacity : Nat :=
  UInt32.size

def inCapacity (arena : Arena) : Bool :=
  arena.states.size ≤ capacity && arena.layouts.size ≤ capacity

def layout? (arena : Arena) (index : Nat) : Option LayoutId :=
  if index < arena.layouts.size then some ⟨index⟩ else none

/-- The states found from some pending ones over edges, those done first; breadth first, each once.
Bodies of repeats and referents are not entered. -/
def discover (arena : Arena) : (rounds : Nat) → (found pending : List StateId) → List StateId
  | 0, found, pending => found ++ pending
  | _ + 1, found, [] => found
  | rounds + 1, found, id :: rest =>
    let known := found ++ id :: rest
    let fresh := ((arena.edges id).map Edge.target).eraseDups.filter (· ∉ known)
    arena.discover rounds (found ++ [id]) (rest ++ fresh)

/-- The states of a layout that can be reached from its start, breadth first. -/
def statesOf (arena : Arena) (id : LayoutId) : List StateId :=
  arena.discover arena.states.size [] [arena.start id]

end Arena

end Recast
