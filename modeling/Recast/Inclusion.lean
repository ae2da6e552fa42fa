import Recast.Inclusion.Step

/-!
# Inclusion of layouts

Is every value of one layout a value of another? All pairings that can be reached from the two
starts are surveyed, the least offset first, so that the first mismatch found is the first in the
value. Inquiries about referents are made within: one that is under way is taken to hold, which
makes the answer the greatest one that agrees with itself. An acceptance that relied on an inquiry
still under way is not kept.
-/

namespace Recast

namespace Terms

/-- Looks at the pairings on an agenda and at those they demand, `left` of them at most; `step` says
what a pairing demands. -/
def surveyFrom (terms : Terms) (step : Pairing → Check Onward) :
    (left : Nat) → Agenda → Assumptions → Check Assumptions
  | left, agenda, exercised =>
    match agenda.next? with
    | none => pure exercised
    | some ((offset, pairing), rest) =>
      match left with
      | 0 => throw ⟨offset, .budget terms.budget.maxPairs⟩
      | left + 1 => do
        if terms.budget.maxPairs ≤ (← get).tally.pairs then
          throw ⟨offset, .budget terms.budget.maxPairs⟩
        Check.count fun tally => { tally with pairs := tally.pairs + 1 }
        match ← Check.attempt (step pairing) with
        | .error diagnostic => throw (diagnostic.shift offset)
        | .ok onward =>
          let (filled, repeated) := rest.addAll offset onward.next
          Check.count fun tally => { tally with repeats := tally.repeats + repeated }
          terms.surveyFrom step left filled (exercised ∪ onward.exercised)

/-- Looks at all pairings that can be reached from the starts of two layouts, as far as the budget
goes. -/
def survey (terms : Terms) (step : Pairing → Check Onward) : Nested := fun source destination => do
  let left := terms.budget.maxPairs - (← get).tally.pairs
  terms.surveyFrom step left (.ofRoots terms.arena source destination) ∅

end Terms

namespace Progress

def depth? (progress : Progress) (inquiry : Inquiry) : Option Nat :=
  progress.underWay.reverse.idxOf? inquiry

def relyOn (progress : Progress) (depth : Nat) : Progress :=
  { progress with
    reliance := some (match progress.reliance with
      | none => depth
      | some other => min other depth) }

def begin (progress : Progress) (inquiry : Inquiry) : Progress :=
  { progress with underWay := inquiry :: progress.underWay, reliance := none }

/-- Puts down an inquiry with its outcome. It is decided, unless it is an acceptance that relied on
an inquiry further out; then the one around it relies on that too. `before` is the progress from
before the inquiry was taken up. -/
def finish (before after : Progress) (inquiry : Inquiry) (outcome : Outcome) : Progress :=
  let outer := { after with underWay := before.underWay, reliance := before.reliance }
  let closed := { outer with decided := (inquiry, outcome) :: outer.decided }
  match outcome, after.reliance with
  | .ok _, some depth => if depth < before.underWay.length then outer.relyOn depth else closed
  | _, _ => closed

def countRepeat (progress : Progress) : Progress :=
  { progress with tally.repeats := progress.tally.repeats + 1 }

def countCycle (progress : Progress) : Progress :=
  { progress with tally.cycles := progress.tally.cycles + 1 }

end Progress

namespace Terms

/-- Is every value of one layout a value of another, with at most `levels` inquiries within each
other from here on? `step` says what a pairing demands, given how inquiries about referents are
answered. -/
def includesBy (terms : Terms) (step : Nested → Pairing → Check Onward) : (levels : Nat) → Nested
  | levels, source, destination => fun progress =>
    let inquiry := (source, destination)
    match progress.decided.lookup inquiry with
    | some outcome => Check.ofExcept outcome progress.countRepeat
    | none =>
      match progress.depth? inquiry with
      | some depth => .ok ∅ (progress.countCycle.relyOn depth)
      | none =>
        match levels with
        | 0 => .error ⟨0, .budget terms.budget.maxDepth⟩ progress
        | left + 1 =>
          let nested := terms.includesBy step left
          match terms.survey (step nested) source destination (progress.begin inquiry) with
          | .ok exercised after =>
            .ok exercised (progress.finish after inquiry (.ok exercised))
          | .error diagnostic after =>
            .error diagnostic (progress.finish after inquiry (.error diagnostic))

/-- Is every value of one layout a value of another? Yields the assumptions that were needed, or
the first mismatch, and what was found out on the way. -/
def checkBy (terms : Terms) (step : Nested → Pairing → Check Onward) (source destination : LayoutId)
    (progress : Progress) : Outcome × Progress :=
  match terms.includesBy step terms.budget.maxDepth source destination progress with
  | .ok exercised after => (.ok exercised, after)
  | .error diagnostic after => (.error diagnostic, after)

def check (terms : Terms) (source destination : LayoutId) (progress : Progress) :
    Outcome × Progress :=
  terms.checkBy terms.step source destination progress

end Terms

end Recast
