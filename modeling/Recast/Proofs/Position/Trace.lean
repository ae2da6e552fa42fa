import Recast.Proofs.Arena.Walk
import Recast.Proofs.Position.Moves

/-!
# Traces

What can be read from a position up to the end of the value. `Position.Trace` reads token by token,
as a check goes along. `Position.Spells` takes the loops apart, as the walks of the layout do: the
rest of the present round, then whole rounds, then what follows the loop. The two agree
(`spells_iff`).
-/

namespace Recast

open List

namespace Count

theorem admits_succ {count : Count} {rounds : Nat} :
    count.Admits (rounds + 1) ↔ count.mayContinue ∧ (count.minus 1).Admits rounds := by
  cases count with
  | exact number =>
    simp only [Admits, mayContinue, minus, decide_eq_true_eq]
    omega
  | atLeast number =>
    simp only [Admits, mayContinue, minus, true_and]
    omega

end Count

namespace Position

variable {arena : Arena} {plot : Plot} {proper : Token → Prop} {root : LayoutId}
  {position next middle last : Position} {token : Token} {tokens more : List Token}

/-- Any number of moves and reads, with the tokens that are read. -/
inductive Steps (arena : Arena) : Position → List Token → Position → Prop
  | refl (position : Position) : Steps arena position [] position
  | move {position next last : Position} {tokens : List Token} (move : Move arena position next)
      (onward : Steps arena next tokens last) : Steps arena position tokens last
  | own {position next last : Position} {token : Token} {tokens : List Token}
      (own : Own arena position token next) (onward : Steps arena next tokens last) :
      Steps arena position (token :: tokens) last

theorem Steps.trans (front : Steps arena position tokens middle)
    (back : Steps arena middle more last) : Steps arena position (tokens ++ more) last := by
  induction front with
  | refl => exact back
  | move move _ ih => exact .move move (ih back)
  | own own _ ih => exact .own own (ih back)

theorem Steps.of_moves (moves : Moves arena position middle)
    (onward : Steps arena middle tokens last) : Steps arena position tokens last := by
  induction moves using Relation.ReflTransGen.head_induction_on with
  | refl => exact onward
  | head move _ ih => exact .move move ih

theorem Steps.of_reads (reads : Reads arena position token middle)
    (onward : Steps arena middle tokens last) : Steps arena position (token :: tokens) last := by
  rcases reads with ⟨_, moves, own⟩
  exact .of_moves moves (.own own onward)

theorem Steps.within (charts : arena.Charts plot proper) (steps : Steps arena position tokens last)
    (within : position.Within arena plot root) : last.Within arena plot root := by
  induction steps with
  | refl => exact within
  | move move _ ih => exact ih (move.within charts within)
  | own own _ ih => exact ih (own.within charts within)

section Paths

variable {source target exit : StateId} {loops : List Loop} {body : LayoutId}

theorem Steps.of_rounds {rounds : List (List Token)} {toCome : Count}
    (admitted : toCome.Admits rounds.length)
    (each : ∀ round ∈ rounds, ∀ loops, Steps arena ⟨arena.start body, loops⟩ round
      ⟨arena.stop body, loops⟩) :
    Steps arena ⟨arena.stop body, ⟨body, exit, toCome⟩ :: loops⟩ rounds.flatten ⟨exit, loops⟩ := by
  induction rounds generalizing toCome with
  | nil =>
    have stops : toCome.mayStop := Count.admits_zero.mp admitted
    exact .move (.leave stops) (.refl _)
  | cons round _ ih =>
    rcases Count.admits_succ.mp admitted with ⟨continues, restAdmitted⟩
    refine .move (.again continues) ((each round mem_cons_self _).trans (ih restAdmitted ?_))
    exact fun other member => each other (mem_cons_of_mem _ member)

theorem Steps.of_path (path : arena.Path source tokens target) (loops : List Loop) :
    Steps arena ⟨source, loops⟩ tokens ⟨target, loops⟩ := by
  induction path generalizing loops with
  | nil => exact .refl _
  | token edge _ ih => exact .own (.intro edge) (ih loops)
  | @rep _ _ _ _ _ rounds _ edge admitted _ _ each ih =>
    rcases rounds with _ | ⟨round, _⟩
    · exact .move (.skip edge (Count.admits_zero.mp admitted)) (ih loops)
    · rcases Count.admits_succ.mp admitted with ⟨continues, othersAdmitted⟩
      refine .move (.first edge continues) ?_
      rw [flatten_cons, append_assoc]
      refine (each round mem_cons_self _).trans
        ((Steps.of_rounds othersAdmitted ?_).trans (ih loops))
      exact fun other member => each other (mem_cons_of_mem _ member)

end Paths

/-- What can be read from a state inside some loops, up to the end of the value: the rest of the
present round, the rounds that are still to come, and what follows the loop. -/
def Spelled (arena : Arena) (root : LayoutId) : List Loop → StateId → List Token → Prop
  | [], state, tokens => arena.Path state tokens (arena.stop root)
  | loop :: outer, state, tokens =>
    ∃ (present : List Token) (rounds : List (List Token)) (rest : List Token),
      tokens = present ++ (rounds.flatten ++ rest) ∧
      arena.Path state present (arena.stop loop.body) ∧ loop.toCome.Admits rounds.length ∧
      (∀ round ∈ rounds, arena.Walk loop.body round) ∧ Spelled arena root outer loop.exit rest

/-- The tokens can be read from the position up to the end of the value, loop by loop. -/
def Spells (arena : Arena) (root : LayoutId) (position : Position) (tokens : List Token) : Prop :=
  Spelled arena root position.loops position.state tokens

/-- The tokens can be read from the position up to the end of the value, one by one. -/
inductive Trace (arena : Arena) : Position → List Token → Prop
  | ends {position : Position} (ends : Ends arena position) : Trace arena position []
  | reads {position next : Position} {token : Token} {tokens : List Token}
      (reads : Reads arena position token next) (onward : Trace arena next tokens) :
      Trace arena position (token :: tokens)

theorem Trace.of_moves (moves : Moves arena position next) (trace : Trace arena next tokens) :
    Trace arena position tokens := by
  cases trace with
  | ends ends => exact .ends (ends.of_moves moves)
  | reads reads onward => exact .reads (reads.of_moves moves) onward

theorem Trace.of_steps (steps : Steps arena position tokens next)
    (trace : Trace arena next more) : Trace arena position (tokens ++ more) := by
  induction steps with
  | refl => exact trace
  | move move _ ih => exact .of_moves (.single move) (ih trace)
  | own own _ ih => exact .reads ⟨_, .refl, own⟩ (ih trace)

theorem Trace.steps (trace : Trace arena position tokens) :
    ∃ last, Steps arena position tokens last ∧ Final arena last := by
  induction trace with
  | ends ends =>
    rcases ends with ⟨last, moves, final⟩
    exact ⟨last, .of_moves moves (.refl last), final⟩
  | reads reads _ ih =>
    rcases ih with ⟨last, steps, final⟩
    exact ⟨last, .of_reads reads steps, final⟩

theorem Trace.isProper (charts : arena.Charts plot proper) (trace : Trace arena position tokens)
    (within : position.Within arena plot root) : ∀ token ∈ tokens, proper token := by
  induction trace with
  | ends => simp
  | reads reads _ ih =>
    intro token member
    rcases mem_cons.mp member with rfl | later
    · exact reads.isProper charts within
    · exact ih (reads.within charts within) token later

section Spells

variable {state target : StateId} {loops : List Loop}

theorem Spelled.prepend (path : arena.Path state tokens target)
    (spelled : Spelled arena root loops target more) :
    Spelled arena root loops state (tokens ++ more) := by
  cases loops with
  | nil => exact path.append spelled
  | cons =>
    rcases spelled with ⟨present, rounds, rest, rfl, onward, admitted, each, outside⟩
    exact ⟨tokens ++ present, rounds, rest, by simp, path.append onward, admitted, each, outside⟩

theorem Spells.of_move (move : Move arena position next) (spells : next.Spells arena root tokens) :
    position.Spells arena root tokens := by
  cases move with
  | again continues =>
    rcases spells with ⟨present, rounds, rest, rfl, path, admitted, each, outside⟩
    refine ⟨[], present :: rounds, rest, by simp, .nil _, ?_, ?_, outside⟩
    · exact Count.admits_succ.mpr ⟨continues, admitted⟩
    · rintro round (_ | ⟨_, member⟩)
      · exact path
      · exact each round member
  | leave stops =>
    exact ⟨[], [], tokens, rfl, .nil _, Count.admits_zero.mpr stops, by simp, spells⟩
  | @first state exit _ _ _ edge continues =>
    rcases spells with ⟨present, rounds, _, rfl, path, admitted, each, outside⟩
    have walked : arena.Path state ((present :: rounds).flatten ++ []) exit := by
      refine .rep edge (Count.admits_succ.mpr ⟨continues, admitted⟩) ?_ (.nil _)
      rintro round (_ | ⟨_, member⟩)
      · exact path
      · exact each round member
    have spelled := Spelled.prepend walked outside
    simpa [Spells] using spelled
  | skip edge stops =>
    have walked : arena.Path _ (([] : List (List Token)).flatten ++ []) _ :=
      .rep edge (Count.admits_zero.mpr stops) (by simp) (.nil _)
    exact Spelled.prepend walked spells

theorem Spells.of_own (own : Own arena position token next)
    (spells : next.Spells arena root tokens) : position.Spells arena root (token :: tokens) := by
  cases own with
  | intro edge => exact Spelled.prepend (.token edge (.nil _)) spells

theorem Spells.of_steps (steps : Steps arena position tokens next)
    (spells : next.Spells arena root more) : position.Spells arena root (tokens ++ more) := by
  induction steps with
  | refl => exact spells
  | move move _ ih => exact (ih spells).of_move move
  | own own _ ih => exact (ih spells).of_own own

theorem final_stop (charts : arena.Charts plot proper) (inside : root.index < arena.layouts.size) :
    Final arena ⟨arena.stop root, []⟩ :=
  ⟨rfl, (charts.accepting_iff (charts.owns_stop inside)).mpr rfl⟩

theorem eq_of_final (charts : arena.Charts plot proper) (within : position.Within arena plot root)
    (final : Final arena position) : position = ⟨arena.stop root, []⟩ := by
  rcases position with ⟨state, _⟩
  rcases final with ⟨rfl, accepting⟩
  have atStop : state = arena.stop root := (charts.accepting_iff within.owns).mp accepting
  rw [atStop]

theorem Spelled.steps (spelled : Spelled arena root loops state tokens) :
    Steps arena ⟨state, loops⟩ tokens ⟨arena.stop root, []⟩ := by
  induction loops generalizing state tokens with
  | nil => exact .of_path spelled []
  | cons _ _ ih =>
    rcases spelled with ⟨_, _, _, rfl, path, admitted, each, outside⟩
    refine (Steps.of_path path _).trans ((Steps.of_rounds admitted ?_).trans (ih outside))
    exact fun round member loops => .of_path (each round member) loops

theorem spells_iff (charts : arena.Charts plot proper) (within : position.Within arena plot root) :
    position.Spells arena root tokens ↔ Trace arena position tokens := by
  constructor
  · intro spells
    have inside : root.index < arena.layouts.size := by
      exact charts.owner (spells.steps.within charts within).owns
    have ends : Ends arena ⟨arena.stop root, []⟩ := ⟨_, .refl, final_stop charts inside⟩
    simpa using Trace.of_steps spells.steps (.ends ends)
  · intro trace
    rcases trace.steps with ⟨_, steps, final⟩
    have isEnd := eq_of_final charts (steps.within charts within) final
    subst isEnd
    have done : Spells arena root ⟨arena.stop root, []⟩ [] := Arena.Path.nil _
    simpa using Spells.of_steps steps done

theorem walk_iff (charts : arena.Charts plot proper) (inside : root.index < arena.layouts.size) :
    arena.Walk root tokens ↔ Trace arena (Position.root arena root) tokens :=
  spells_iff charts (within_root charts inside)

end Spells

end Position

end Recast
