import Recast.Inclusion.Terms

/-!
# References

How the destination reads a reference of the source: as a reference that promises no more, with a
referent that includes the other's values, or as bytes without a value, which forget what it was.
-/

namespace Recast

namespace Reference

def compareForm (source destination : Reference) : Except Diagnostic Unit :=
  if source.access = .shared ∧ destination.access = .exclusive then .error ⟨0, .access⟩
  else if source.width ≠ destination.width then
    .error ⟨0, .mismatch (.reference source.access source.align)
      (.reference destination.access destination.align)⟩
  else .ok ()

end Reference

namespace Terms

def compareAlignment (terms : Terms) (source destination : Reference) : Outcome :=
  if destination.align ≤ source.align then .ok ∅
  else if terms.assumed.alignment then .ok {.alignment}
  else .error ⟨0, .alignment destination.align source.align⟩

def compareLifetime (terms : Terms) (source destination : Reference) : Outcome :=
  if terms.outlives source.lifetime destination.lifetime then .ok ∅
  else if terms.assumed.lifetimes then .ok {.lifetimes}
  else .error ⟨0, .lifetime source.lifetime destination.lifetime⟩

def compareReferents (nested : Nested) (source destination : LayoutId) : Check Assumptions := do
  match ← Check.attempt (nested source destination) with
  | .ok exercised => return exercised
  | .error inner => throw inner.atReferent

/-- May a reference be read as another one? Through an exclusive one the referent may be written as
well as read, so the referents must agree both ways. -/
def compareReferences (terms : Terms) (nested : Nested) (source destination : Reference) :
    Check Assumptions := do
  Check.ofExcept (source.compareForm destination)
  let aligned ← Check.ofExcept (terms.compareAlignment source destination)
  let outlived ← Check.ofExcept (terms.compareLifetime source destination)
  let forth ← compareReferents nested source.referent destination.referent
  match destination.access with
  | .shared => return aligned ∪ outlived ∪ forth
  | .exclusive =>
    let back ← compareReferents nested destination.referent source.referent
    return aligned ∪ outlived ∪ forth ∪ back

end Terms

/-- What the references of the destination make of one of the source. -/
structure Coverage where
  exercised : Assumptions := ∅
  footholds : List Foothold := []
  failure : Option Diagnostic := none

namespace Terms

def tryReferences (terms : Terms) (nested : Nested) (source : Reference) :
    List (Token × Foothold) → Check Coverage
  | [] => pure {}
  | (.reference target, foothold) :: rest => do
    let verdict ← Check.attempt (terms.compareReferences nested source target)
    let others ← terms.tryReferences nested source rest
    match verdict with
    | .ok exercised =>
      return { others with
        exercised := exercised ∪ others.exercised
        footholds := foothold :: others.footholds }
    | .error diagnostic => return { others with failure := some diagnostic }
  | _ :: rest => terms.tryReferences nested source rest

def matchReference (terms : Terms) (nested : Nested) (entry : Entry) (source : Position)
    (reference : Reference) : Check Onward := do
  let coverage ← terms.tryReferences nested reference entry.prospects.reads
  let forgotten := entry.footholds.flatMap fun foothold =>
    (Position.passUninit terms.arena reference.width [foothold.position]).map foothold.moveTo
  let footholds := coverage.footholds ++ forgotten
  if footholds.isEmpty then
    throw (coverage.failure.getD (entry.refusal (.reference reference.access reference.align)))
  return {
    exercised := coverage.exercised ∪ Foothold.assumptionOf footholds
    next := [(reference.width, ⟨source, Foothold.distinct footholds⟩)] }

end Terms

end Recast
