import Std.Data.TreeMap
import Recast.Assumption
import Recast.Diagnostic
import Recast.Position.Padding

/-!
# Footholds

The source of a check is followed one position at a time, the destination by all positions that may
correspond to it. Such a position is a `Foothold`. It is guarded if the way to it wrote into a
region under safety invariants. Sets of footholds are kept in ascending order, each position once.
-/

namespace Recast

/-- A position of the destination that the source may have reached. -/
structure Foothold where
  position : Position
  guarded : Bool := false
deriving DecidableEq

namespace Foothold

def moveTo (foothold : Foothold) (position : Position) : Foothold :=
  { foothold with position }

/-- Adds a foothold to some by the keys of their positions. Two at one position become one, which is
guarded only if both are. -/
def addTo (map : Std.TreeMap (List Nat) Foothold) (foothold : Foothold) :
    Std.TreeMap (List Nat) Foothold :=
  let key := foothold.position.key
  match map[key]? with
  | none => map.insert key foothold
  | some other => map.insert key { other with guarded := foothold.guarded && other.guarded }

def distinct (footholds : List Foothold) : List Foothold :=
  (footholds.foldl addTo ∅).values

/-- The assumption that is needed if there is no way but through guarded regions. -/
def assumptionOf (footholds : List Foothold) : Assumptions :=
  if !footholds.isEmpty && footholds.all guarded then {.safety} else ∅

end Foothold

structure Outlook where
  foothold : Foothold
  ahead : Ahead

namespace Outlook

def ofFoothold (arena : Arena) (foothold : Foothold) : Outlook where
  foothold := foothold
  ahead := foothold.position.ahead arena

def isOver (outlook : Outlook) : Bool :=
  outlook.ahead.mayEnd && outlook.ahead.reads.isEmpty

def reads (outlook : Outlook) : List (Token × Foothold) :=
  outlook.ahead.reads.map fun (token, next) => (token, outlook.foothold.moveTo next)

end Outlook

structure Prospects where
  mayEnd : Bool
  isOver : Bool
  isOverPlainly : Bool
  /-- The cells and references that can be read, each with the foothold behind it. -/
  reads : List (Token × Foothold)
  /-- The guarded regions that can be entered, each with the foothold behind its marker. -/
  markers : List (String × Foothold)

namespace Prospects

def ofFootholds (arena : Arena) (footholds : List Foothold) : Prospects :=
  let outlooks := footholds.map (Outlook.ofFoothold arena)
  let reads := outlooks.flatMap Outlook.reads
  { mayEnd := outlooks.any fun outlook => outlook.ahead.mayEnd
    isOver := outlooks.any Outlook.isOver
    isOverPlainly := outlooks.any fun outlook => outlook.isOver && !outlook.foothold.guarded
    reads := reads.filter fun (token, _) =>
      match token with
      | .marker _ => false
      | _ => true
    markers := reads.filterMap fun (token, next) =>
      match token with
      | .marker name => some (name, next)
      | _ => none }

def readable (prospects : Prospects) : ByteSet :=
  prospects.reads.foldl
    (fun values (token, _) =>
      match token with
      | .cell (.init accepted) => values ∪ accepted
      | _ => values)
    ∅

/-- What the destination accepts besides values: bytes without one, references, guarded regions. -/
def otherOffers (prospects : Prospects) : List Offer :=
  let reads := prospects.reads.filterMap fun (token, _) =>
    match token with
    | .cell .uninit => some Offer.uninit
    | .reference target => some (.reference target.access target.align)
    | _ => none
  let markers := prospects.markers.map fun (name, _) => Offer.sealed name
  (reads ++ markers).eraseDups

def offer (prospects : Prospects) : Offer :=
  let readable := prospects.readable
  let bytes := if readable.isEmpty then [] else [Offer.bytes readable]
  let stop := if prospects.mayEnd then [Offer.stop] else []
  match bytes ++ prospects.otherOffers ++ stop with
  | [offer] => offer
  | offers => .oneOf offers

end Prospects

/-- The footholds of a destination once it has entered the guarded regions that it may. -/
structure Entry where
  footholds : List Foothold
  prospects : Prospects
  barred : Option String

namespace Entry

/-- The guarded regions ahead whose inside is not among the footholds yet. -/
def freshMarkers (footholds : List Foothold) (prospects : Prospects) : List (String × Foothold) :=
  prospects.markers.filter fun (_, next) =>
    footholds.all fun foothold => foothold.position ≠ next.position

/-- Enters guarded regions, and those within them, if that is assumed to be safe. -/
def enter (arena : Arena) (allowed : Bool) : (rounds : Nat) → List Foothold → Entry
  | rounds, footholds =>
    let prospects := Prospects.ofFootholds arena footholds
    let fresh := freshMarkers footholds prospects
    let barred := fresh.head?.map Prod.fst
    if allowed && barred.isSome then
      match rounds with
      | 0 => { footholds, prospects, barred := none }
      | left + 1 =>
        let inside := fresh.map fun (_, next) => { next with guarded := true }
        enter arena allowed left (Foothold.distinct (footholds ++ inside))
    else { footholds, prospects, barred }

/-- The mismatch to report where the destination accepts nothing of what the source may hold: a
guarded region in the way is the reason, if there is one. -/
def refusal (entry : Entry) (found : Offer) : Diagnostic :=
  match entry.barred with
  | some name => ⟨0, .invariant name⟩
  | none => ⟨0, .mismatch found entry.prospects.offer⟩

end Entry

end Recast
