import Recast.Assembly
import Recast.Pattern.Digits

/-!
# Scalars

The values of a scalar are the numbers from some ranges, or anything.
-/

namespace Recast

namespace Scalar

def rejects (largest : Nat) (range : Range) : Bool :=
  range.last < range.first || largest < range.last

def draft (machine : Machine) (scalar : Scalar) : Except Defect Draft := do
  requirePowerOfTwo scalar.align
  match scalar.contents with
  | .anything => return { pattern := .padding scalar.size, align := scalar.align }
  | .ranges ranges =>
    if 16 < scalar.size then
      throw (.badScalar (.tooWide scalar.size))
    match ranges.find? (rejects (largest scalar.size)) with
    | some range => throw (.badScalar (.badRange range (largest scalar.size)))
    | none =>
      let pattern :=
        if scalar.size ≠ 0 then Pattern.ofRanges machine.byteOrder scalar.size ranges
        else if ranges.isEmpty then .never
        else .unit
      return { pattern, align := scalar.align }

end Scalar

end Recast
