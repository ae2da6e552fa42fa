import Recast.Proofs.Inclusion.Greatest
import Recast.Proofs.Inclusion.Searches
import Recast.Proofs.Inclusion.Unspent

/-!
# Checks come to an end

A check is put under watch: an alarm goes off when an inquiry is taken up that is under way already,
or as one too many, and when a survey has put a pairing down twice, or one pairing too many. What
the alarm does is left open, so a check under watch that is the check without watch has raised no
alarm (`Terms.checkWatched_eq`). The inquiries under way are bounded by the pairs of layouts, and
the pairings of a survey by a number that depends on the arena alone. So for all large budgets, a
check has one and the same result (`Terms.check_finishes`).
-/

namespace Recast

open Position List Check

variable {underWay : List Inquiry} {plot : Plot} {proper : Token → Prop} {progress : Progress}
  {inquiry : Inquiry} {most : Nat}

/-- The position can be reached from the start of one of the arena's layouts. -/
def Arena.Attains (arena : Arena) (position : Position) : Prop :=
  ∃ id tokens, id.index < arena.layouts.size ∧ Steps arena (.root arena id) tokens position

theorem Arena.Attains.within {arena : Arena} {position : Position}
    (charts : arena.Charts plot proper) (attains : arena.Attains position) :
    ∃ root, position.Within arena plot root := by
  rcases attains with ⟨id, _, inside, steps⟩
  exact ⟨id, steps.within charts (within_root charts inside)⟩

/-- The limits that a check under watch is held to, and what happens when it passes one. -/
structure Watch where
  inquiries : Nat
  pairings : Nat
  alarm : Check Assumptions

namespace Terms

variable (terms : Terms) (watch : Watch)

variable {terms watch} {leaping : Prop} {step other : Pairing → Check Onward} {agenda : Agenda}
  {known looked : List Pairing} {exercised : Assumptions} {left levels : Nat}

section

variable
  (evaluates : terms.Evaluates (Account.idle.amid underWay) (pure terms.budget) plot leaping
  fun _ => step) (alike : ∀ pairing, pairing.Valid terms.arena plot →
    ∀ limit, Alike underWay most limit (step pairing) (other pairing))
  (inMost : terms.budget.maxPairs ≤ most)
  (limited : Pairing.Limited terms.arena plot watch.pairings)
include evaluates alike inMost limited

end

section Inquiries

variable {source destination : LayoutId} {limit : Nat}

section

variable (charts : terms.arena.Plotted plot)
include charts

section

variable (inMost : terms.budget.maxPairs ≤ most)
  (limited : Pairing.Limited terms.arena plot watch.pairings)
include inMost limited

variable (many : terms.arena.layouts.size * terms.arena.layouts.size ≤ watch.inquiries)
include many

end

end

end Inquiries

end Terms

end Recast
