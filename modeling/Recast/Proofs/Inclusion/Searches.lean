import Recast.Proofs.Inclusion.Footholds

/-!
# Searches come to an end

Each step of a check makes searches of its own: through the starts and ends of loops, through
padding up to the end of the value, and through guarded regions inside each other. In a charted
arena the number of rounds they are given is large enough: further rounds make no difference.
-/

namespace Recast

open Position
open Foothold (positions)

variable {arena : Arena} {plot : Plot} {proper : Token → Prop} {rounds : Nat}

namespace Position

variable {root : LayoutId} {position : Position}

variable (charts : arena.Charts plot proper)
include charts

section

variable (within : position.Within arena plot root)
include within

theorem aheadWithin_eq_ahead {depth : Nat} (enough : position.silentDepth arena ≤ depth) :
    aheadWithin arena depth position = position.ahead arena := by
  have bounded : slack arena root position < position.silentDepth arena := slack_lt_silentDepth
  exact aheadWithin_eq_aheadWithin charts within (by omega) bounded

end

end Position

namespace Entry

variable {allowed : Bool} {footholds : List Foothold}

variable (charts : arena.Charts plot proper)
include charts

section

variable {length : Nat} (located : Located arena plot (positions footholds))
  (spread : Spread arena plot length (positions footholds))
include located spread

theorem Spread.not_opens (long : arena.states.size ≤ length) : ¬ Opens arena allowed footholds := by
  rintro ⟨_, some⟩
  rcases List.exists_mem_of_ne_nil _ some with ⟨⟨name, foothold⟩, fresh⟩
  simp only [freshMarkers, List.mem_filter, Prospects.mem_markers charts located, List.all_eq_true,
    decide_eq_true_eq] at fresh
  rcases fresh with ⟨⟨origin, isOrigin, next, reads, rfl⟩, unknown⟩
  rcases spread origin.position ⟨origin, isOrigin, rfl⟩ with followed | ⟨chain, isChain, isLength⟩
  · rcases followed name next reads with ⟨known, isKnown, same⟩
    exact unknown known isKnown same
  · have few := isChain.length_le charts located
    rw [List.length_cons] at few
    omega

theorem enter_add (enough : arena.states.size ≤ length + rounds) (more : Nat) :
    enter arena allowed (rounds + more) footholds = enter arena allowed rounds footholds := by
  induction rounds generalizing footholds length with
  | zero =>
    have closed : ¬ Opens arena allowed footholds := spread.not_opens charts located enough
    rw [enter_of_not_opens closed, enter_of_not_opens closed]
  | succ rounds ih =>
    by_cases opens : Opens arena allowed footholds
    · rw [Nat.succ_add, enter_succ opens, enter_succ opens]
      exact ih (located_entered charts located) (spread.entered charts located) (by omega)
    · rw [enter_of_not_opens opens, enter_of_not_opens opens]

end

theorem enter_eq (located : Located arena plot (positions footholds))
    (enough : arena.states.size ≤ rounds) :
    enter arena allowed rounds footholds = enter arena allowed arena.states.size footholds := by
  have total : rounds = arena.states.size + (rounds - arena.states.size) := by omega
  rw [total]
  exact enter_add charts located (.start _) (by omega) _

end Entry

end Recast
