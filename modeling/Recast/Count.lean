/-!
# Counts

How often the element of an array repeats: a fixed number of times, or any number of times from
some minimum on.
-/

namespace Recast

/-- How many elements an array has. -/
inductive Count where
  | exact (number : Nat)
  | atLeast (number : Nat)
deriving DecidableEq, Repr

namespace Count

def least : Count → Nat
  | exact number => number
  | atLeast number => number

def isExact : Count → Bool
  | exact _ => true
  | atLeast _ => false

def minus : Count → Nat → Count
  | exact number, taken => exact (number - taken)
  | atLeast number, taken => atLeast (number - taken)

def mayContinue : Count → Bool
  | exact number => number ≠ 0
  | atLeast _ => true

def mayStop (count : Count) : Bool :=
  count.least = 0

def text : Count → String
  | exact number => "Exact(" ++ number.repr ++ ")"
  | atLeast number => "AtLeast(" ++ number.repr ++ ")"

end Count

end Recast
