import Recast.Budget
import Recast.Inclusion.Agenda

/-!
# Checks

What a check is given, what it keeps track of, and what its steps are. A step may record progress
and may find a mismatch; what it recorded stays recorded either way.
-/

namespace Recast

structure Terms where
  arena : Arena
  assumed : Assumptions := ∅
  outlives : Lifetime → Lifetime → Bool := Lifetime.outlivesAlways
  budget : Budget := {}

structure Tally where
  pairs : Nat := 0
  /-- Pairings that were met again, and checks of referents that were decided before. -/
  repeats : Nat := 0
  cycles : Nat := 0
  runs : Nat := 0
deriving DecidableEq, Repr

/-- Whether the values of one layout are values of another: under which assumptions, or why not. -/
abbrev Outcome := Except Diagnostic Assumptions

abbrev Inquiry := LayoutId × LayoutId

structure Progress where
  decided : List (Inquiry × Outcome) := []
  underWay : List Inquiry := []
  /-- The outermost inquiry under way, by depth, that the innermost one has relied on. -/
  reliance : Option Nat := none
  tally : Tally := {}

abbrev Check := EStateM Diagnostic Progress

abbrev Nested := LayoutId → LayoutId → Check Assumptions

namespace Check

def ofExcept {α : Type} : Except Diagnostic α → Check α
  | .ok value => pure value
  | .error diagnostic => throw diagnostic

def attempt {α : Type} (step : Check α) : Check (Except Diagnostic α) := fun progress =>
  match step progress with
  | .ok value after => .ok (.ok value) after
  | .error diagnostic after => .ok (.error diagnostic) after

def count (add : Tally → Tally) : Check Unit :=
  modify fun progress => { progress with tally := add progress.tally }

end Check

structure Onward where
  exercised : Assumptions := ∅
  next : List (Nat × Pairing) := []

instance : Append Onward where
  append first second :=
    { exercised := first.exercised ∪ second.exercised
      next := first.next ++ second.next }

end Recast
