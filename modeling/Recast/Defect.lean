import Recast.Shape
import Recast.Text.Hex

/-!
# Defects

The ways in which a shape fails to describe a layout, each with the numbers that its message
names.
-/

namespace Recast

/-- What is wrong with a scalar or a tag. -/
inductive ScalarFault where
  | tooWide (size : Nat)
  | badRange (range : Range) (largest : Nat)
  | tagWidth (size : Nat)
deriving DecidableEq, Repr

/-- Why a shape describes no layout. -/
inductive Defect where
  | overlap (offset previousStop : Nat)
  | fieldOverrun (offset stop size : Nat)
  | variantOverrun (tag : Int) (stop size : Nat)
  | misaligned (offset align : Nat)
  | badAlignment (align : Nat)
  | duplicateTag (tag : Int)
  | tagOutOfRange (tag : Int) (size : Nat)
  | emptyUnion
  | infiniteSize (name : String)
  | unnamedRecursion (name : String)
  | unknownDefinition (id : DefId)
  | unsizedNotLast (offset : Nat)
  | unsizedMember (offset : Nat)
  | tailLength (offset element length : Nat)
  | badScalar (fault : ScalarFault)
  | mismatchedAlternatives (offset : Nat)
  | tooLarge
  /-- A field must lie at a multiple of nothing, because references have no width. -/
  | noAlignment (offset : Nat)
deriving DecidableEq, Repr

namespace ScalarFault

open Text

def message : ScalarFault → String
  | tooWide size => s!"{size} bytes is wider than 16"
  | badRange range largest =>
    s!"range {hex range.first}..={hex range.last} is empty or exceeds {hex largest}"
  | tagWidth size => s!"tag of {size} bytes"

end ScalarFault

namespace Defect

open Text

def message : Defect → String
  | overlap offset previousStop =>
    s!"field at {hex offset} overlaps the previous field, which ends at {hex previousStop}"
  | fieldOverrun offset stop size =>
    s!"field at {hex offset} ends at {hex stop}, past the end of its {hex size}-byte parent"
  | variantOverrun tag stop size =>
    s!"variant with tag {tag} ends at {hex stop}, past the end of its {hex size}-byte enum"
  | misaligned offset align => s!"field at {hex offset} is not aligned to {align}"
  | badAlignment align => s!"alignment {align} is not a power of two"
  | duplicateTag tag => s!"tag {tag} is declared more than once"
  | tagOutOfRange tag size => s!"tag {tag} does not fit in {size} bytes"
  | emptyUnion => "union has no fields"
  | infiniteSize name => s!"`{name}` contains itself without indirection"
  | unnamedRecursion name =>
    s!"`{name}` refers to itself through an unnamed pointee; name the pointee instead"
  | unknownDefinition id => s!"no definition for {id.text}"
  | unsizedNotLast offset => s!"dynamically-sized field at {hex offset} is not the last field"
  | unsizedMember offset =>
    s!"dynamically-sized type at {hex offset} may only be the last field of a struct"
  | tailLength offset element length =>
    s!"tail at {hex offset} with {element}-byte elements cannot end at total length {hex length}"
  | badScalar fault => s!"invalid scalar: {fault.message}"
  | mismatchedAlternatives offset => s!"alternatives at {hex offset} have different sizes"
  | tooLarge => "layout is too large"
  | noAlignment offset => s!"field at {hex offset} has no alignment"

end Defect

end Recast
