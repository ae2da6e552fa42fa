import Recast.Assumption
import Recast.Text.Blank

/-!
# Justified assumptions

Who asks for a written reason behind every assumption keeps a `Justification` and takes the
assumptions from `Justification.justified`, which hands them out only if none lacks its reason.
-/

namespace Recast

/-- Assumptions together with the reasons given for them. -/
structure Justification where
  assumed : Assumptions := ∅
  reason : Assumption → Option String := fun _ => none

structure Unjustified where
  assumption : Assumption
deriving DecidableEq, Repr

def Unjustified.message (fault : Unjustified) : String :=
  "assuming " ++ fault.assumption.label ++ " requires a justification"

namespace Justification

/-- Makes the assumption and records why it holds, in place of any earlier reason. -/
def assume (justification : Justification) (assumption : Assumption) (reason : String) :
    Justification where
  assumed := justification.assumed ∪ {assumption}
  reason := fun other => if other = assumption then some reason else justification.reason other

def lacksReason (justification : Justification) (assumption : Assumption) : Bool :=
  match justification.reason assumption with
  | none => true
  | some reason => Text.isBlank reason

/-- The assumptions, if each has a reason; otherwise the first one without. -/
def justified (justification : Justification) : Except Unjustified Assumptions :=
  match justification.assumed.toList.find? justification.lacksReason with
  | some assumption => .error ⟨assumption⟩
  | none => .ok justification.assumed

end Justification

end Recast
