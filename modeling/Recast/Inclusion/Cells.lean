import Recast.Inclusion.Terms

/-!
# Cells

How the destination reads a byte of the source. The values that the byte may have are parted into
classes by the reads that accept them, and each class goes on along all reads that accept it. A byte
without a value can only be read where none is needed.
-/

namespace Recast

/-- A class of byte values and the footholds behind the reads that accept them. -/
structure ByteClass where
  values : ByteSet
  footholds : List Foothold

namespace ByteClass

/-- Splits a class by what one more read accepts. Parts without values are dropped. -/
def split (accepted : ByteSet) (foothold : Foothold) (part : ByteClass) : List ByteClass :=
  let inside : ByteClass := ⟨part.values ∩ accepted, foothold :: part.footholds⟩
  let outside : ByteClass := ⟨part.values \ accepted, part.footholds⟩
  [inside, outside].filter fun part => !part.values.isEmpty

/-- The values, parted by the reads that accept them. A cell that need not hold a value accepts
every value. -/
def partition (values : ByteSet) (reads : List (Token × Foothold)) : List ByteClass :=
  reads.foldl
    (fun classes (token, foothold) =>
      match token with
      | .cell cell => classes.flatMap (split cell.accepted foothold)
      | _ => classes)
    [⟨values, []⟩]

end ByteClass

/-- The footholds behind all cells that hold values, whichever values they accept. -/
def Prospects.behindValues (prospects : Prospects) : List Foothold :=
  prospects.reads.filterMap fun (token, foothold) =>
    match token with
    | .cell (.init _) => some foothold
    | _ => none

namespace Terms

/-- Where a class of values leads, and the assumptions it takes. If no read accepts its values, the
value at hand may be assumed not to have them. -/
def matchClass (terms : Terms) (entry : Entry) (part : ByteClass) :
    Except Diagnostic (Assumptions × List Foothold) :=
  if !part.footholds.isEmpty then
    .ok (Foothold.assumptionOf part.footholds, Foothold.distinct part.footholds)
  else
    let footholds := entry.prospects.behindValues
    if terms.assumed.validity && !footholds.isEmpty then
      .ok ({.validity} ∪ Foothold.assumptionOf footholds, Foothold.distinct footholds)
    else .error (entry.refusal (.bytes part.values))

def matchClasses (terms : Terms) (entry : Entry) (source : Position) :
    List ByteClass → Except Diagnostic Onward
  | [] => .ok {}
  | part :: rest =>
    match terms.matchClass entry part with
    | .error diagnostic => .error diagnostic
    | .ok (exercised, footholds) =>
      match terms.matchClasses entry source rest with
      | .error diagnostic => .error diagnostic
      | .ok others => .ok ({ exercised, next := [(1, ⟨source, footholds⟩)] } ++ others)

def matchBytes (terms : Terms) (entry : Entry) (source : Position) (values : ByteSet) :
    Except Diagnostic Onward :=
  terms.matchClasses entry source (ByteClass.partition values entry.prospects.reads)

end Terms

namespace Entry

def matchUninit (entry : Entry) (source : Position) : Except Diagnostic Onward :=
  let footholds := entry.prospects.reads.filterMap fun (token, foothold) =>
    if token = .cell .uninit then some foothold else none
  if footholds.isEmpty then .error (entry.refusal .uninit)
  else
    .ok
      { exercised := Foothold.assumptionOf footholds
        next := [(1, ⟨source, Foothold.distinct footholds⟩)] }

/-- The start of a guarded region of the source: its bytes may be read as they are, from the
footholds before any region was entered, or as those of the same region. -/
def matchMarker (entry : Entry) (source : Position) (footholds : List Foothold) (name : String) :
    Onward :=
  let inside := entry.prospects.markers.filterMap fun (other, foothold) =>
    if other = name then some foothold else none
  { next := [(0, ⟨source, Foothold.distinct (footholds ++ inside)⟩)] }

end Entry

end Recast
