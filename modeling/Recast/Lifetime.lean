/-!
# Lifetimes

A lifetime is either the whole run of the program or a region known by its number. Which lifetime
outlives which is for the host to say: `LifetimeBounds` holds what it has declared and closes it
under chaining.
-/

namespace Recast

/-- How long the referent of a reference lives. -/
inductive Lifetime where
  | static
  | region (number : Nat)
deriving DecidableEq, Repr

namespace Lifetime

def lastRegion : Nat := UInt32.size - 2

/-- The region with the given number; numbers past the last one all mean the last one. -/
def ofNumber (number : Nat) : Lifetime :=
  .region (min number lastRegion)

def text : Lifetime → String
  | static => "'static"
  | region number => "'r" ++ number.repr

/-- The place of a lifetime in the order: the static lifetime first, then regions by number. -/
def rank : Lifetime → Nat
  | static => 0
  | region number => number + 1

instance : LT Lifetime where
  lt left right := left.rank < right.rank

instance (left right : Lifetime) : Decidable (left < right) :=
  inferInstanceAs (Decidable (left.rank < right.rank))

/-- Does `longer` outlive `shorter` whatever the host says? The static lifetime outlives every
lifetime, and every lifetime outlives itself. -/
def outlivesAlways (longer shorter : Lifetime) : Bool :=
  longer = static || longer = shorter

end Lifetime

/-- The bounds a host has declared, each a longer lifetime with a shorter one. -/
structure LifetimeBounds where
  declared : List (Lifetime × Lifetime) := []
deriving DecidableEq, Repr

namespace LifetimeBounds

def declare (bounds : LifetimeBounds) (longer shorter : Lifetime) : LifetimeBounds where
  declared := bounds.declared ++ [(longer, shorter)]

/-- The lifetimes that some known one is declared to outlive, and that are not known yet. -/
def fresh (bounds : LifetimeBounds) (known : List Lifetime) : List Lifetime :=
  (bounds.declared.filter fun bound => bound.1 ∈ known && bound.2 ∉ known).map Prod.snd

/-- The known lifetimes together with all that at most `rounds` bounds lead to. -/
def reach (bounds : LifetimeBounds) : (rounds : Nat) → (known : List Lifetime) → List Lifetime
  | 0, known => known
  | rounds + 1, known =>
    match bounds.fresh known with
    | [] => known
    | more => bounds.reach rounds (known ++ more)

/-- Does `longer` outlive `shorter`, always or by a chain of declared bounds? A chain never needs
more bounds than are declared. -/
def outlives (bounds : LifetimeBounds) (longer shorter : Lifetime) : Bool :=
  longer.outlivesAlways shorter || shorter ∈ bounds.reach bounds.declared.length [longer]

end LifetimeBounds

end Recast
