import Recast.Count
import Recast.Extent
import Recast.Lifetime

/-!
# Shapes

A shape is what a host says about a type: where its parts lie and which values they take. Sizes,
offsets and alignments are the host's; nothing is computed anew. A shape need not describe a
layout: whether it does is found out when it is assembled.
-/

namespace Recast

structure DefId where
  number : Nat
deriving DecidableEq, Repr

def DefId.text (id : DefId) : String :=
  "Def(" ++ id.number.repr ++ ")"

/-- Whether a reference shares its referent or has it to itself. -/
inductive Access where
  | shared
  | exclusive
deriving DecidableEq, Repr

/-- The numbers from `first` up to `last`, both included. -/
structure Range where
  first : Nat
  last : Nat
deriving DecidableEq, Repr

/-- What the bytes of a scalar may hold. -/
inductive Contents where
  /-- A number from one of these ranges, written in the byte order of the machine. -/
  | ranges (ranges : List Range)
  | anything
deriving DecidableEq, Repr

structure Scalar where
  size : Nat
  align : Nat
  contents : Contents
deriving DecidableEq, Repr

structure Placed (α : Type) where
  offset : Nat
  content : α
deriving DecidableEq, Repr

/-- One case of a tagged shape: its tag and its fields, placed from the start of the whole. -/
structure Variant (α : Type) where
  tag : Int
  fields : List (Placed α)
deriving DecidableEq, Repr

structure TagSlot where
  offset : Nat
  size : Nat
deriving DecidableEq, Repr

/-- What a reference promises about its referent. -/
structure Guarantee where
  align : Nat
  access : Access
  lifetime : Lifetime
deriving DecidableEq, Repr

/-- What a host says about a type. -/
inductive Shape where
  | scalar (number : Scalar)
  | struct (size align : Nat) (fields : List (Placed Shape))
  | union (size align : Nat) (fields : List (Placed Shape))
  /-- The variant that the tag selects. `others` are the fields selected by every tag that no
  variant has, if such tags are allowed. -/
  | tagged (size align : Nat) (slot : TagSlot) (variants : List (Variant Shape))
      (others : Option (List (Placed Shape)))
  /-- Elements one after the other. With an open count it is a tail of unknown length. -/
  | array (element : Shape) (count : Count)
  | reference (referent : Shape) (guarantee : Guarantee)
  | sealed (name : String) (size align : Nat)
  /-- What the catalog says under this identity; the only way to a recursive shape. -/
  | named (id : DefId)
deriving Repr

instance : Inhabited Shape where
  default := .struct 0 1 []

namespace Scalar

/-- The largest number that `size` bytes can hold; a scalar never holds more than sixteen. -/
def largest (size : Nat) : Nat :=
  Extent.numbers (min size 16) - 1

def int (size : Nat) : Scalar where
  size := size
  align := max size 1
  contents := .ranges [⟨0, largest size⟩]

def nonzero (size : Nat) : Scalar where
  size := size
  align := max size 1
  contents := .ranges [⟨1, largest size⟩]

def uninit (size : Nat) : Scalar where
  size := size
  align := 1
  contents := .anything

def bool : Scalar where
  size := 1
  align := 1
  contents := .ranges [⟨0, 1⟩]

def char : Scalar where
  size := 4
  align := 4
  contents := .ranges [⟨0, 0xd7ff⟩, ⟨0xe000, 0x10ffff⟩]

end Scalar

namespace Shape

def fieldless (size : Nat) (tags : List Int) : Shape :=
  .tagged size (max size 1) ⟨0, size⟩ (tags.map fun tag => ⟨tag, []⟩) none

def nullable (referent : Shape) (guarantee : Guarantee) (pointerSize : Nat) : Shape :=
  .union pointerSize pointerSize
    [⟨0, .scalar ⟨pointerSize, pointerSize, .ranges [⟨0, 0⟩]⟩⟩, ⟨0, .reference referent guarantee⟩]

end Shape

end Recast
