import Recast.Defect

/-!
# Tags

Each variant of a tagged shape has one bit pattern for its tag. Two variants never share one, and
the patterns that no variant has are the complement of those declared.
-/

namespace Recast

namespace TagSlot

/-- The bit pattern of a tag: the tag itself, or its two's complement if it is negative. A tag may
be read as signed or unsigned, so it has to fit in one of the two ways; sixteen bytes fit any. -/
def bits (slot : TagSlot) (tag : Int) : Except Defect Nat :=
  let bound : Int := Extent.numbers slot.size
  if slot.size < 16 ∧ (2 * tag < -bound ∨ bound ≤ tag) then
    .error (.tagOutOfRange tag slot.size)
  else
    .ok (tag % bound).toNat

/-- Adds the bit pattern of a tag to those declared, unless it is among them. -/
def declareTag (slot : TagSlot) (declared : List Nat) (tag : Int) :
    Except Defect (Nat × List Nat) := do
  let bits ← slot.bits tag
  if bits ∈ declared then
    throw (.duplicateTag tag)
  return (bits, bits :: declared)

def insertAscending (value : Nat) : List Nat → List Nat
  | [] => [value]
  | head :: tail =>
    if value ≤ head then value :: head :: tail else head :: insertAscending value tail

/-- The numbers from `next` up to `largest` that are not in an ascending list, as ranges. -/
def gaps (largest : Nat) : (next : Nat) → List Nat → List Range
  | next, [] => if next ≤ largest then [⟨next, largest⟩] else []
  | next, value :: rest =>
    if next < value then ⟨next, value - 1⟩ :: gaps largest (value + 1) rest
    else gaps largest (value + 1) rest

def undeclared (slot : TagSlot) (declared : List Nat) : List Range :=
  gaps (Scalar.largest slot.size) 0 (declared.foldr insertAscending [])

end TagSlot

end Recast
