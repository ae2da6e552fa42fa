import Recast.Assembly.Fields
import Recast.Pattern.Digits
import Recast.Shape.Tag

/-!
# Tagged shapes

A tagged shape is any one of its variants. In a variant the tag is one more part beside the fields;
parts must not overlap, and what lies between them is padding.
-/

namespace Recast

/-- A part of a variant: its size and its pattern. -/
structure VariantPart where
  size : Nat
  pattern : Pattern

def Plan.variantParts (scope : Scope) (offset : Nat) :
    List (Placed Plan) → Assembly (List (Placed VariantPart))
  | [] => pure []
  | field :: rest => do
    let draft ← field.content scope (Extent.satAdd offset field.offset)
    Assembly.ofExcept (requireAligned field.offset draft.align)
    match draft.fixedSize with
    | none => throw (.unsizedMember field.offset)
    | some size =>
      let others ← variantParts scope offset rest
      return ⟨field.offset, size, draft.pattern⟩ :: others

/-- The parts of a variant one behind the other from `stop` on, padded to the size of the whole.
The tag is only for the message. -/
def packVariant (size : Nat) (tag : Int) :
    (stop : Nat) → List (Placed VariantPart) → Except Defect (List Pattern)
  | stop, [] => .ok [.padding (size - stop)]
  | stop, part :: rest => do
    if part.offset < stop then
      throw (.overlap part.offset stop)
    match Extent.add? part.offset part.content.size with
    | none => throw .tooLarge
    | some next =>
      if size < next then
        throw (.variantOverrun tag next size)
      let others ← packVariant size tag next rest
      return .padding (part.offset - stop) :: part.content.pattern :: others

/-- One variant: the tag, which may have any of the given bit patterns, and the fields. -/
def Plan.variant (machine : Machine) (size : Nat) (slot : TagSlot) (scope : Scope) (offset : Nat)
    (tag : Int) (tagRanges : List Range) (fields : List (Placed Plan)) : Assembly Pattern := do
  let parts ← variantParts scope offset fields
  let tagPart : VariantPart := ⟨slot.size, .ofRanges machine.byteOrder slot.size tagRanges⟩
  let sorted := Placed.sortByOffset (⟨slot.offset, tagPart⟩ :: parts)
  let packed ← Assembly.ofExcept (packVariant size tag 0 sorted)
  return .concat packed

/-- The variants in the order given, with the bit patterns of all their tags. -/
def Plan.variants (machine : Machine) (size : Nat) (slot : TagSlot) (scope : Scope) (offset : Nat) :
    List (Variant Plan) → (declared : List Nat) → Assembly (List Pattern × List Nat)
  | [], declared => pure ([], declared)
  | next :: rest, declared => do
    let (bits, declared) ← Assembly.ofExcept (slot.declareTag declared next.tag)
    let member ← variant machine size slot scope offset next.tag [⟨bits, bits⟩] next.fields
    let (others, declared) ← variants machine size slot scope offset rest declared
    return (member :: others, declared)

def TagSlot.check (slot : TagSlot) (size : Nat) : Except Defect Unit := do
  if slot.size = 0 ∨ 16 < slot.size then
    throw (.badScalar (.tagWidth slot.size))
  match Extent.add? slot.offset slot.size with
  | none => throw .tooLarge
  | some stop =>
    if size < stop then
      throw (.fieldOverrun slot.offset stop size)

/-- The variant that the tag selects. The fields for other tags belong to every bit pattern that no
variant has; without such a pattern they are not assembled. -/
def Plan.tagged (machine : Machine) (size align : Nat) (slot : TagSlot)
    (variants : List (Variant Plan)) (others : Option (List (Placed Plan))) : Plan :=
  fun scope offset => do
    Assembly.ofExcept (requirePowerOfTwo align)
    Assembly.ofExcept (slot.check size)
    let (members, declared) ← Plan.variants machine size slot scope offset variants []
    let undeclared := slot.undeclared declared
    match others with
    | none => return { pattern := .alt members, align }
    | some fields =>
      if undeclared.isEmpty then
        return { pattern := .alt members, align }
      else
        let rest ← variant machine size slot scope offset (-1) undeclared fields
        return { pattern := .alt (members ++ [rest]), align }

end Recast
