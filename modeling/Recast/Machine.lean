/-!
# The machine

What a layout depends on besides the type: the order of the bytes in a number and the width of a
reference.
-/

namespace Recast

/-- The order in which the bytes of a number lie in memory. -/
inductive ByteOrder where
  | little
  | big
deriving DecidableEq, Repr

/-- The machine whose memory the layouts describe. -/
structure Machine where
  byteOrder : ByteOrder := .little
  pointerSize : Nat := 8
deriving DecidableEq, Repr

end Recast
