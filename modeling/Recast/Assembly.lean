import Recast.Arena.Automaton
import Recast.Catalog
import Recast.Machine

/-!
# Assembly

Assembly turns shapes into layouts of an arena. It works in a `Workshop`, which holds the arena and
remembers the layouts of named referents, so that each is made once and a shape may refer to
itself. What was added to the workshop stays there when the assembly of a shape fails.

Each kind of shape has a `Plan`: what it becomes in a given scope at a given offset. The plan of a
compound shape is made from the plans of its parts.
-/

namespace Recast

/-- A pattern, with what an enclosing shape needs to know about it. -/
structure Draft where
  pattern : Pattern
  align : Nat
  hasTail : Bool := false

def Draft.fixedSize (draft : Draft) : Option Nat :=
  if draft.hasTail then none else draft.pattern.size

/-- The arena under construction, and the layouts of named referents so far. -/
structure Workshop where
  arena : Arena := {}
  referents : List (DefId × LayoutId) := []

/-- What surrounds the shape that is being assembled. -/
structure Scope where
  inPlace : List DefId := []
  underWay : List DefId := []
  /-- The length of the whole value, where it is known and settles the length of a tail. -/
  totalLength : Option Nat := none

/-- A step of assembly: it may change the workshop and it may find a defect. -/
abbrev Assembly := EStateM Defect Workshop

/-- What a shape becomes in a scope, at an offset from the start of the whole value. -/
abbrev Plan := Scope → (offset : Nat) → Assembly Draft

namespace Assembly

def ofExcept {α : Type} : Except Defect α → Assembly α
  | .ok value => pure value
  | .error defect => throw defect

def reserve : Assembly LayoutId := fun shop =>
  let (id, arena) := shop.arena.reserve
  .ok id { shop with arena }

def define (id : LayoutId) (pattern : Pattern) : Assembly Unit := fun shop =>
  match shop.arena.define id pattern with
  | .ok arena => .ok () { shop with arena }
  | .error defect => .error defect shop

def referent? (id : DefId) : Assembly (Option LayoutId) := do
  return (← get).referents.lookup id

def recordReferent (id : DefId) (layout : LayoutId) : Assembly Unit :=
  modify fun shop => { shop with referents := (id, layout) :: shop.referents }

/-- A step in an arena of limited capacity. An arena only grows, so whether it was outgrown on the
way is seen at the end. What does not fit is left in place then: nothing can be added to it any
more. -/
def bounded {α : Type} (step : Assembly α) : Assembly α := fun shop =>
  match step shop with
  | .ok value later => if later.arena.inCapacity then .ok value later else .error .tooLarge later
  | .error defect later => .error (if later.arena.inCapacity then defect else .tooLarge) later

end Assembly

def requirePowerOfTwo (align : Nat) : Except Defect Unit :=
  if Extent.isPowerOfTwo align then .ok () else .error (.badAlignment align)

def requireAligned (offset align : Nat) : Except Defect Unit :=
  if align = 0 then .error (.noAlignment offset)
  else if offset % align = 0 then .ok ()
  else .error (.misaligned offset align)

end Recast
