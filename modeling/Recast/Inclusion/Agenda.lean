import Std.Data.TreeSet
import Recast.Inclusion.Foothold

/-!
# The agenda

A survey looks at pairings: a position of the source with all footholds in the destination
that may correspond to it. The agenda holds those still to be looked at, the least offset first, and
first come, first served at one offset. A pairing is put on it once only.
-/

namespace Recast

/-- A position of the source and the footholds that may correspond to it. -/
structure Pairing where
  source : Position
  footholds : List Foothold
deriving DecidableEq

/-- Tells pairings apart: the source, then the footholds, each with its guard. -/
def Pairing.key (pairing : Pairing) : List (List Nat) :=
  pairing.source.key ::
    pairing.footholds.map fun foothold =>
      (if foothold.guarded then 1 else 0) :: foothold.position.key

/-- The pairings to look at that were reached at one offset: those to come first, next one first,
and those to come after them, last one first. -/
structure Bucket where
  offset : Nat
  front : List Pairing := []
  back : List Pairing := []

/-- The pairings to look at, by ascending offset, and the keys of all that were ever put down. -/
structure Agenda where
  queue : List Bucket := []
  seen : Std.TreeSet (List (List Nat)) := ∅

namespace Agenda

def insert (offset : Nat) (pairing : Pairing) : List Bucket → List Bucket
  | [] => [{ offset, front := [pairing] }]
  | bucket :: rest =>
    if offset < bucket.offset then { offset, front := [pairing] } :: bucket :: rest
    else if offset = bucket.offset then { bucket with back := pairing :: bucket.back } :: rest
    else bucket :: insert offset pairing rest

/-- The first pairing at the least offset, with that offset, and what is left without it. -/
def pop? : List Bucket → Option ((Nat × Pairing) × List Bucket)
  | [] => none
  | ⟨offset, pairing :: front, back⟩ :: rest =>
    some ((offset, pairing), ⟨offset, front, back⟩ :: rest)
  | ⟨offset, [], back⟩ :: rest =>
    match back.reverse with
    | pairing :: front => some ((offset, pairing), ⟨offset, front, []⟩ :: rest)
    | [] => pop? rest

def next? (agenda : Agenda) : Option ((Nat × Pairing) × Agenda) :=
  (pop? agenda.queue).map fun (first, queue) => (first, { agenda with queue })

def add? (agenda : Agenda) (offset : Nat) (pairing : Pairing) : Option Agenda :=
  let key := pairing.key
  if agenda.seen.contains key then none
  else some { queue := insert offset pairing agenda.queue, seen := agenda.seen.insert key }

/-- Puts down those pairings that are new, each at its distance from an offset. Returns how many
were not. -/
def addAll (agenda : Agenda) (offset : Nat) : List (Nat × Pairing) → Agenda × Nat
  | [] => (agenda, 0)
  | (distance, pairing) :: rest =>
    match agenda.add? (Extent.satAdd offset distance) pairing with
    | some more => more.addAll offset rest
    | none =>
      let (filled, repeated) := agenda.addAll offset rest
      (filled, repeated + 1)

def ofRoots (arena : Arena) (source destination : LayoutId) : Agenda :=
  let pairing : Pairing := ⟨.root arena source, [⟨.root arena destination, false⟩]⟩
  { queue := [{ offset := 0, front := [pairing] }], seen := {pairing.key} }

end Agenda

end Recast
