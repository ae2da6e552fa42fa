import Recast.Defect

/-!
# Fields laid out in order

Where a host has only the sizes and alignments of the fields, they can be placed one after the
other: each at the next offset that suits its alignment, the whole padded to the largest
alignment.
-/

namespace Recast

structure Member where
  size : Nat
  align : Nat
  shape : Shape

/-- Fields placed so far, the offset behind the last one, and the largest alignment met. -/
structure Placement where
  fields : List (Placed Shape) := []
  stop : Nat := 0
  align : Nat := 1

namespace Placement

/-- Places one more field at the next offset that suits it. An alignment of zero counts as one. -/
def place (placement : Placement) (member : Member) : Except Defect Placement :=
  let align := max member.align 1
  match Extent.roundUp? placement.stop align with
  | none => .error .tooLarge
  | some offset =>
    match Extent.add? offset member.size with
    | none => .error .tooLarge
    | some stop =>
      .ok
        { fields := placement.fields ++ [⟨offset, member.shape⟩]
          stop
          align := max placement.align align }

def placeAll (placement : Placement) : List Member → Except Defect Placement
  | [] => .ok placement
  | member :: rest =>
    match placement.place member with
    | .error defect => .error defect
    | .ok placed => placed.placeAll rest

end Placement

/-- The struct of the given fields in order, refused if an offset passes the cap. -/
def Shape.sequential (members : List Member) : Except Defect Shape :=
  match ({} : Placement).placeAll members with
  | .error defect => .error defect
  | .ok placement =>
    match Extent.roundUp? placement.stop placement.align with
    | none => .error .tooLarge
    | some size => .ok (.struct size placement.align placement.fields)

end Recast
