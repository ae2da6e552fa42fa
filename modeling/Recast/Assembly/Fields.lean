import Recast.Assembly

/-!
# Structs and unions

Shapes with placed fields. In a struct the fields must not overlap, and what lies between them is
padding. A union is any one of its fields, padded to the size of the whole.
-/

namespace Recast

namespace Placed

variable {α : Type}

/-- Puts something in front of those that lie at its offset or behind it. -/
def insertByOffset (item : Placed α) : List (Placed α) → List (Placed α)
  | [] => [item]
  | head :: tail =>
    if item.offset ≤ head.offset then item :: head :: tail
    else head :: insertByOffset item tail

/-- In the order of offsets; those with the same offset keep their order. -/
def sortByOffset (items : List (Placed α)) : List (Placed α) :=
  items.foldr insertByOffset []

end Placed

structure StructBody where
  parts : List Pattern := []
  stop : Nat := 0
  hasTail : Bool := false

/-- Adds one field to a struct of the given size. Only the last one may have a tail; such a field
may reach past the size. -/
def StructBody.addField (body : StructBody) (size : Nat) (isLast : Bool) (field : Placed Draft) :
    Except Defect StructBody := do
  requireAligned field.offset field.content.align
  let fieldSize := field.content.pattern.size
  let hasTail := field.content.hasTail || fieldSize.isNone
  if hasTail && !isLast then
    throw (.unsizedNotLast field.offset)
  match Extent.add? field.offset (fieldSize.getD 0) with
  | none => throw .tooLarge
  | some stop =>
    if !hasTail && size < stop then
      throw (.fieldOverrun field.offset stop size)
    let padding := .padding (field.offset - body.stop)
    return { parts := body.parts ++ [padding, field.content.pattern], stop, hasTail }

def StructBody.pattern (body : StructBody) (size : Nat) : Pattern :=
  if body.hasTail then .concat body.parts
  else .concat (body.parts ++ [.padding (size - body.stop)])

/-- The fields of a struct, in the order of their offsets. A field that starts before the one in
front of it ends is not assembled. -/
def Plan.structBody (size : Nat) (scope : Scope) (offset : Nat) :
    List (Placed Plan) → StructBody → Assembly StructBody
  | [], body => pure body
  | field :: rest, body => do
    if field.offset < body.stop then
      throw (.overlap field.offset body.stop)
    let draft ← field.content scope (Extent.satAdd offset field.offset)
    let extended ← Assembly.ofExcept (body.addField size rest.isEmpty ⟨field.offset, draft⟩)
    structBody size scope offset rest extended

def Plan.struct (size align : Nat) (fields : List (Placed Plan)) : Plan := fun scope offset => do
  Assembly.ofExcept (requirePowerOfTwo align)
  let body ← structBody size scope offset (Placed.sortByOffset fields) {}
  return { pattern := body.pattern size, align, hasTail := body.hasTail }

def unionMember (size : Nat) (field : Placed Draft) : Except Defect Pattern := do
  requireAligned field.offset field.content.align
  match field.content.fixedSize with
  | none => throw (.unsizedMember field.offset)
  | some fieldSize =>
    match Extent.add? field.offset fieldSize with
    | none => throw .tooLarge
    | some stop =>
      if size < stop then
        throw (.fieldOverrun field.offset stop size)
      return .concat [.padding field.offset, field.content.pattern, .padding (size - stop)]

def Plan.unionMembers (size : Nat) (scope : Scope) (offset : Nat) :
    List (Placed Plan) → Assembly (List Pattern)
  | [] => pure []
  | field :: rest => do
    let draft ← field.content scope (Extent.satAdd offset field.offset)
    let member ← Assembly.ofExcept (unionMember size ⟨field.offset, draft⟩)
    let others ← unionMembers size scope offset rest
    return member :: others

def Plan.union (size align : Nat) (fields : List (Placed Plan)) : Plan := fun scope offset => do
  Assembly.ofExcept (requirePowerOfTwo align)
  if fields.isEmpty then
    throw .emptyUnion
  let members ← unionMembers size scope offset fields
  return { pattern := .alt members, align }

end Recast
