import Recast.Inclusion.Cells
import Recast.Inclusion.References

/-!
# One pairing

What a pairing demands: that the destination reads whatever the source may hold next, and that the
pairings behind it hold in turn. How inquiries about referents are answered is a parameter.

Two ways lead on. `Terms.runStep?` takes a run of elements at once; `Terms.walkStep` goes on by one
token. `Terms.step` takes the first where it can.
-/

namespace Recast.Terms

def matchToken (terms : Terms) (nested : Nested) (entry : Entry) (footholds : List Foothold)
    (source : Position) : Token → Check Onward
  | .cell (.init values) => Check.ofExcept (terms.matchBytes entry source values)
  | .cell .uninit => Check.ofExcept (entry.matchUninit source)
  | .reference target => terms.matchReference nested entry source target
  | .marker name => return entry.matchMarker source footholds name

def matchTokens (terms : Terms) (nested : Nested) (entry : Entry) (footholds : List Foothold) :
    List (Token × Position) → Check Onward
  | [] => pure {}
  | (token, source) :: rest => do
    let first ← terms.matchToken nested entry footholds source token
    let others ← terms.matchTokens nested entry footholds rest
    return first ++ others

/-- Enters the guarded regions that the destination may enter; a chain of markers passes each state
at most once. -/
def enter (terms : Terms) (footholds : List Foothold) : Entry :=
  Entry.enter terms.arena terms.assumed.safety (terms.arena.states.size + 1) footholds

/-- Goes on by one token. A destination that is over takes no more of the source. A source that ends
must not leave the destination in need of more than padding. -/
def walkStep (terms : Terms) (nested : Nested) (pairing : Pairing) : Check Onward := do
  let ahead := pairing.source.ahead terms.arena
  let entry := terms.enter pairing.footholds
  if entry.prospects.isOver then
    return { exercised := if entry.prospects.isOverPlainly then ∅ else {.safety} }
  if ahead.mayEnd && !entry.prospects.mayEnd &&
      !entry.footholds.any (fun foothold => foothold.position.endsInPadding terms.arena) then
    throw ⟨0, .mismatch .stop entry.prospects.offer⟩
  terms.matchTokens nested entry pairing.footholds ahead.reads

/-- Takes as many rounds of two bodies of equal size as both sides must have: one element is
compared, and then what follows the last round. -/
def runStep? (terms : Terms) (pairing : Pairing) : Option Onward :=
  match pairing.footholds with
  | [foothold] =>
    match pairing.source.run? terms.arena, foothold.position.run? terms.arena with
    | some source, some destination =>
      let rounds := min source.count.least destination.count.least
      match (terms.arena.layout source.body).size with
      | none | some 0 => none
      | some size =>
        if (terms.arena.layout destination.body).size = some size ∧ rounds ≠ 0 then
          let element : Pairing :=
            ⟨.root terms.arena source.body, [foothold.moveTo (.root terms.arena destination.body)]⟩
          let rest : Pairing :=
            ⟨source.after terms.arena rounds,
              [foothold.moveTo (destination.after terms.arena rounds)]⟩
          some { next := [(0, element), (Extent.satMul rounds size, rest)] }
        else none
    | _, _ => none
  | _ => none

def step (terms : Terms) (nested : Nested) (pairing : Pairing) : Check Onward := do
  match terms.runStep? pairing with
  | some onward =>
    Check.count fun tally => { tally with runs := tally.runs + 1 }
    return onward
  | none => terms.walkStep nested pairing

end Recast.Terms
