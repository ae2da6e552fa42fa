import Recast.ByteSet.Runs
import Recast.Shape

/-!
# Diagnostics

Why, and at which offset, a value of one layout may fail to be a value of another. A failure
between the referents of two references is reported at the reference and carries the failure
inside.
-/

namespace Recast

/-- What one side may hold, or accepts, at an offset. -/
inductive Offer where
  | bytes (values : ByteSet)
  | uninit
  | reference (access : Access) (align : Nat)
  | stop
  | sealed (name : String)
  | oneOf (options : List Offer)
deriving BEq

namespace Offer

mutual

def text : Offer → String
  | .bytes values => "bytes " ++ values.text
  | .uninit => "uninitialized bytes"
  | .reference .shared align => s!"a shared reference (align {align})"
  | .reference .exclusive align => s!"an exclusive reference (align {align})"
  | .stop => "the end of the value"
  | .sealed name => s!"a `{name}`"
  | .oneOf [] => "nothing"
  | .oneOf (option :: rest) => option.text ++ textOfRest rest

def textOfRest : List Offer → String
  | [] => ""
  | option :: rest => " or " ++ option.text ++ textOfRest rest

end

end Offer

/-- Why a value of the source may fail to be one of the destination. -/
inductive Reason where
  | mismatch (found expected : Offer)
  | alignment (required available : Nat)
  | lifetime (source destination : Lifetime)
  | access
  | invariant (name : String)
  | referent (offset : Nat) (inner : Reason)
  | budget (limit : Nat)

/-- The side of safety that a failure belongs to. -/
inductive Dimension where
  | validity
  | alignment
  | lifetime
  | safety
  | resource
deriving DecidableEq, Repr

/-- What failed between two references. -/
inductive ReferenceFault where
  | alignment
  | lifetime
  | access
  | referent
deriving DecidableEq, Repr

/-- A reason, and the offset of the first byte it concerns. -/
structure Diagnostic where
  offset : Nat
  reason : Reason

open Text in
def Reason.text : Reason → String
  | .mismatch found expected =>
    s!"source may hold {found.text} where the destination requires {expected.text}"
  | .alignment required available =>
    s!"reference is aligned to {available} but {required} is required"
  | .lifetime source destination =>
    s!"lifetime {source.text} is not known to outlive {destination.text}"
  | .access => "shared reference cannot become exclusive"
  | .invariant name => s!"writing into `{name}` may violate its safety invariants"
  | .referent offset inner => s!"referents differ ({inner.text} at offset {hex offset})"
  | .budget limit => s!"gave up after exceeding a budget of {limit}"

/-- The side of safety that a reason belongs to: for referents, that of the failure inside. -/
def Reason.dimension : Reason → Dimension
  | .mismatch _ _ => .validity
  | .alignment _ _ => .alignment
  | .lifetime _ _ => .lifetime
  | .access => .validity
  | .invariant _ => .safety
  | .referent _ inner => inner.dimension
  | .budget _ => .resource

/-- What failed between two references, if the reason is about references. -/
def Reason.referenceFault? : Reason → Option ReferenceFault
  | .alignment _ _ => some .alignment
  | .lifetime _ _ => some .lifetime
  | .access => some .access
  | .referent _ _ => some .referent
  | _ => none

namespace Diagnostic

def text (diagnostic : Diagnostic) : String :=
  s!"{diagnostic.reason.text} at offset {Text.hex diagnostic.offset}"

def shift (diagnostic : Diagnostic) (distance : Nat) : Diagnostic :=
  { diagnostic with offset := Extent.satAdd diagnostic.offset distance }

def rootOf (offset : Nat) : Reason → Diagnostic
  | .referent inside inner => rootOf inside inner
  | reason => ⟨offset, reason⟩

def rootCause (diagnostic : Diagnostic) : Diagnostic :=
  rootOf diagnostic.offset diagnostic.reason

def atReferent (inner : Diagnostic) : Diagnostic :=
  ⟨0, .referent inner.offset inner.reason⟩

end Diagnostic

end Recast
