import Recast.Assembly.Scalar
import Recast.Assembly.Tagged

/-!
# The layout of a shape

The plan of a shape is made from the plans of its parts. Two things lead out of a shape: a
definition expanded in place, and the layout of a named referent. Both are parameters of
`Shape.plan`, and are tied to the catalog afterwards. In place, no definition is expanded within
itself; and each named referent is recorded before it is assembled. So there are never more
expansions within each other, nor more referents under assembly, than the catalog has definitions,
and recursion on these two numbers reaches everything.
-/

namespace Recast

namespace Plan

/-- How many elements an array has. A tail takes their number from the length of the whole value,
where that is known and the elements have bytes. -/
def arrayCount (offset size : Nat) (count : Count) (totalLength : Option Nat) :
    Except Defect Count :=
  match count, totalLength with
  | .exact number, _ =>
    if (Extent.mul? size number).isSome then .ok count else .error .tooLarge
  | .atLeast number, some length =>
    if size = 0 then .ok count
    else if length < offset ∨ (length - offset) % size ≠ 0 ∨ (length - offset) / size < number then
      .error (.tailLength offset size length)
    else .ok (.exact ((length - offset) / size))
  | .atLeast _, none => .ok count

def array (element : Plan) (count : Count) : Plan := fun scope offset => do
  let draft ← element scope offset
  match draft.fixedSize with
  | none => throw (.unsizedMember offset)
  | some size =>
    let settled ← Assembly.ofExcept (arrayCount offset size count scope.totalLength)
    let pattern := draft.pattern.replicate settled
    return { pattern, align := draft.align, hasTail := !count.isExact }

def sealed (name : String) (size align : Nat) : Plan := fun _ _ => do
  Assembly.ofExcept (requirePowerOfTwo align)
  return { pattern := .andThen (.leaf (.marker name)) (.data size), align }

def anonymousReferent (referent : Plan) (scope : Scope) : Assembly LayoutId := do
  let id ← Assembly.reserve
  let draft ← referent { scope with inPlace := [], totalLength := none } 0
  Assembly.define id draft.pattern
  return id

/-- A reference; it is twice as wide if the values of its referent differ in length, for then it
holds the length too. -/
def reference (machine : Machine) (guarantee : Guarantee) (referent : Assembly LayoutId) :
    Assembly Draft := do
  Assembly.ofExcept (requirePowerOfTwo guarantee.align)
  let id ← referent
  let width := match ((← get).arena.layout id).size with
    | some _ => machine.pointerSize
    | none => Extent.satMul machine.pointerSize 2
  let token := .reference { guarantee with referent := id, width }
  return { pattern := .leaf token, align := machine.pointerSize }

end Plan

mutual

/-- The plan of a shape, given those of definitions expanded in place and the layouts of named
referents. -/
def Shape.plan (machine : Machine) (expand : DefId → Plan)
    (referentOf : DefId → Assembly LayoutId) : Shape → Plan
  | .scalar number => fun _ _ => Assembly.ofExcept (number.draft machine)
  | .struct size align fields =>
    .struct size align (Shape.fieldPlans machine expand referentOf fields)
  | .union size align fields =>
    .union size align (Shape.fieldPlans machine expand referentOf fields)
  | .tagged size align slot variants others =>
    .tagged machine size align slot (Shape.variantPlans machine expand referentOf variants)
      (Shape.otherPlans machine expand referentOf others)
  | .array element count => .array (element.plan machine expand referentOf) count
  | .reference (.named id) guarantee => fun _ _ =>
    Plan.reference machine guarantee (referentOf id)
  | .reference referent guarantee => fun scope _ =>
    Plan.reference machine guarantee
      (Plan.anonymousReferent (referent.plan machine expand referentOf) scope)
  | .sealed name size align => .sealed name size align
  | .named id => expand id

def Shape.fieldPlans (machine : Machine) (expand : DefId → Plan)
    (referentOf : DefId → Assembly LayoutId) : List (Placed Shape) → List (Placed Plan)
  | [] => []
  | ⟨offset, shape⟩ :: rest =>
    ⟨offset, shape.plan machine expand referentOf⟩ ::
      Shape.fieldPlans machine expand referentOf rest

def Shape.variantPlans (machine : Machine) (expand : DefId → Plan)
    (referentOf : DefId → Assembly LayoutId) : List (Variant Shape) → List (Variant Plan)
  | [] => []
  | ⟨tag, fields⟩ :: rest =>
    ⟨tag, Shape.fieldPlans machine expand referentOf fields⟩ ::
      Shape.variantPlans machine expand referentOf rest

def Shape.otherPlans (machine : Machine) (expand : DefId → Plan)
    (referentOf : DefId → Assembly LayoutId) :
    Option (List (Placed Shape)) → Option (List (Placed Plan))
  | none => none
  | some fields => some (Shape.fieldPlans machine expand referentOf fields)

end

namespace Catalog

def find (catalog : Catalog) (id : DefId) : Except Defect Definition :=
  match catalog.get? id with
  | some definition => .ok definition
  | none => .error (.unknownDefinition id)

/-- A definition expanded in place, with at most `expansions` more within it. Once there are none
left, every definition is being expanded already. -/
def expand (catalog : Catalog) (machine : Machine) (referentOf : DefId → Assembly LayoutId) :
    (expansions : Nat) → DefId → Plan
  | expansions, id => fun scope offset => do
    let definition ← Assembly.ofExcept (catalog.find id)
    if id ∈ scope.inPlace then
      throw (.infiniteSize definition.name)
    match expansions with
    | 0 => throw (.unnamedRecursion definition.name)
    | left + 1 =>
      if id ∈ scope.underWay then
        throw (.unnamedRecursion definition.name)
      definition.shape.plan machine (catalog.expand machine referentOf left) referentOf
        { scope with inPlace := id :: scope.inPlace, underWay := id :: scope.underWay } offset

/-- The layout of a named referent, made at its first mention, with at most `referents` more made
on the way. Once there are none left, every definition has its layout already. -/
def referent (catalog : Catalog) (machine : Machine) : (referents : Nat) → DefId → Assembly LayoutId
  | referents, id => do
    match ← Assembly.referent? id with
    | some layout => return layout
    | none =>
      let definition ← Assembly.ofExcept (catalog.find id)
      match referents with
      | 0 => throw (.unknownDefinition id)
      | left + 1 =>
        let layout ← Assembly.reserve
        Assembly.recordReferent id layout
        let draft ← definition.shape.plan machine
          (catalog.expand machine (catalog.referent machine left) catalog.size)
          (catalog.referent machine left)
          { inPlace := [id], underWay := [id] } 0
        Assembly.define layout draft.pattern
        return layout

end Catalog

def Shape.planIn (shape : Shape) (catalog : Catalog) (machine : Machine) : Plan :=
  let referentOf := catalog.referent machine catalog.size
  shape.plan machine (catalog.expand machine referentOf catalog.size) referentOf

/-- Makes the layout of a shape, whatever the capacity of the arena. A known total length settles
the tail of the shape itself, not those of its referents. -/
def Shape.assemble (shape : Shape) (catalog : Catalog) (machine : Machine)
    (totalLength : Option Nat) : Assembly LayoutId := do
  let draft ← shape.planIn catalog machine { totalLength } 0
  let id ← Assembly.reserve
  Assembly.define id draft.pattern
  return id

/-- Makes the layout of a shape within the capacity of the arena. -/
def Shape.build (shape : Shape) (catalog : Catalog) (machine : Machine)
    (totalLength : Option Nat) : Assembly LayoutId :=
  (shape.assemble catalog machine totalLength).bounded

end Recast
