import Recast.Assembly.Shape
import Recast.Inclusion

/-!
# Questions about shapes

May memory that holds a value of one shape be taken for a value of another? Both shapes are
assembled in one fresh arena, and then every value of the first layout must be a value of the
second.
-/

namespace Recast

/-- What the answer to a question depends on besides the two shapes and the assumptions. -/
structure Setting where
  catalog : Catalog := {}
  machine : Machine := {}
  budget : Budget := {}
  outlives : Lifetime → Lifetime → Bool := Lifetime.outlivesAlways
  sourceLength : Option Nat := none
  destinationLength : Option Nat := none

/-- Why memory may not be taken for a value of another shape. -/
inductive Refusal where
  | malformed (defect : Defect)
  | rejected (diagnostic : Diagnostic)

def Refusal.message : Refusal → String
  | .malformed defect => "malformed descriptor: " ++ defect.message
  | .rejected diagnostic => "not transmutable: " ++ diagnostic.text

namespace Setting

def assemble (setting : Setting) (shape : Shape) (totalLength : Option Nat) (arena : Arena) :
    Except Defect (LayoutId × Arena) :=
  match shape.build setting.catalog setting.machine totalLength { arena } with
  | .ok id shop => .ok (id, shop.arena)
  | .error defect _ => .error defect

def terms (setting : Setting) (arena : Arena) (assumed : Assumptions) : Terms where
  arena := arena
  assumed := assumed
  outlives := setting.outlives
  budget := setting.budget

/-- May memory that holds a value of `source` be taken for a value of `destination`? Yields those of
the assumptions that were needed. -/
def recast (setting : Setting) (source destination : Shape) (assumed : Assumptions) :
    Except Refusal Assumptions :=
  match setting.assemble source setting.sourceLength {} with
  | .error defect => .error (.malformed defect)
  | .ok (sourceId, arena) =>
    match setting.assemble destination setting.destinationLength arena with
    | .error defect => .error (.malformed defect)
    | .ok (destinationId, arena) =>
      match ((setting.terms arena assumed).check sourceId destinationId {}).1 with
      | .ok exercised => .ok exercised
      | .error diagnostic => .error (.rejected diagnostic)

end Setting

end Recast
