import Recast.Proofs.Position.Padding

/-!
# Positions that read the same

Different positions may read the same: the end of a last round and what follows the loop, the end of
a body inside a loop and the end of the round, the start of a run and the start of its first round.
They differ only in which runs lie ahead of them.
-/

namespace Recast

theorem Ahead.concat_singleton (ahead : Ahead) : concat [ahead] = ahead := by
  rcases ahead with ⟨mayEnd, reads⟩
  exact congrArg₂ Ahead.mk (Bool.or_false mayEnd) (List.append_nil reads)

namespace Position

variable {arena : Arena} {plot : Plot} {proper : Token → Prop} {root : LayoutId}
  {position other next : Position} {token : Token} {tokens : List Token} {loop : Loop}
  {outer : List Loop} {run : Run}

/-- The same can be read from both positions, and the value may end at both or at neither. -/
structure Alike (arena : Arena) (position other : Position) : Prop where
  reads : ∀ token next, Reads arena position token next ↔ Reads arena other token next
  ends : Ends arena position ↔ Ends arena other

theorem Alike.refl (position : Position) : Alike arena position position :=
  ⟨fun _ _ => Iff.rfl, Iff.rfl⟩

section

variable (alike : Alike arena position other)
include alike

theorem Alike.symm : Alike arena other position :=
  ⟨fun token next => (alike.reads token next).symm, alike.ends.symm⟩

theorem Alike.trans {third : Position} (onward : Alike arena other third) :
    Alike arena position third :=
  ⟨fun token next => (alike.reads token next).trans (onward.reads token next),
    alike.ends.trans onward.ends⟩

theorem Alike.trace (trace : Trace arena position tokens) : Trace arena other tokens := by
  cases trace with
  | ends ends => exact .ends (alike.ends.mp ends)
  | reads reads onward => exact .reads ((alike.reads _ _).mp reads) onward

theorem Alike.meets (meets : Meets arena position token) : Meets arena other token := by
  rcases meets_iff_reads.mp meets with ⟨letter, next, reads, onward⟩
  exact meets_iff_reads.mpr ⟨letter, next, (alike.reads _ _).mp reads, onward⟩

theorem Alike.pads (pads : Pads arena position) : Pads arena other := by
  rcases pads with ⟨padding, tokens, trace⟩
  exact ⟨fun token meets => padding token (alike.symm.meets meets), tokens, alike.trace trace⟩

end

section

variable (charts : arena.Charts plot proper)
include charts

theorem Alike.of_ahead_eq (within : position.Within arena plot root)
    (withinToo : other.Within arena plot root) (same : position.ahead arena = other.ahead arena) :
    Alike arena position other where
  reads token next := by
    rw [← mem_reads_ahead charts within, same, mem_reads_ahead charts withinToo]
  ends := by rw [← mayEnd_ahead charts within, same, mayEnd_ahead charts withinToo]

/-- At the end of a round, what lies ahead is what lies ahead of the only position that the loop
leads to. -/
theorem ahead_eq_of_afterRound (within : position.Within arena plot root)
    (finished : position.finishedRound? arena = some (loop, outer))
    (only : afterRound arena loop outer = [next]) : position.ahead arena = next.ahead arena := by
  have silent : position.silent arena = [next] := by simp only [silent, finished, only]
  have move := (mem_silent charts within).mp (silent ▸ List.mem_singleton_self next)
  have shrinks := move.slack_lt charts within
  have enough : slack arena root position < position.silentDepth arena := slack_lt_silentDepth
  obtain ⟨depth, isDepth⟩ := Nat.exists_eq_succ_of_ne_zero (Nat.ne_zero_of_lt enough)
  have deep : slack arena root next < depth := by omega
  rw [ahead, isDepth, aheadWithin, finished, silent, List.map_singleton, Ahead.concat_singleton]
  exact aheadWithin_eq_aheadWithin charts (move.within charts within) deep slack_lt_silentDepth

/-- Where the body of a loop may end, what lies ahead is what lies ahead of the end of the round. -/
theorem ahead_inside_eq (nest : Nest arena plot root (loop :: outer))
    (within : position.Within arena plot loop.body) (ends : Ends arena position) :
    (position.inside (loop :: outer)).ahead arena = (roundEnd arena loop outer).ahead arena := by
  have sized := (loop_repeats charts nest.1).isSized
  have moves := (ends_iff_moves charts within).mp ends
  induction moves using Relation.ReflTransGen.head_induction_on with
  | refl => rfl
  | @head position next move moves ih =>
    have none := ends.left_eq charts sized within
    have nextWithin := move.within charts within
    rw [← ih nextWithin ((ends_iff_moves charts nextWithin).mpr moves)]
    -- Nothing is left of the body, so a loop within it comes to its end, and its last round was the
    -- last.
    rcases move.is_leave charts sized within none with ⟨body, exit, toCome, inner, rfl, rfl⟩
    rcases toCome_eq_exact charts sized within.nest with ⟨number, rfl : toCome = .exact number⟩
    have last : number = 0 := by
      have unit := (loop_repeats charts within.nest.1).bytes_ne_zero
      simp only [left, beyond, Count.least] at none
      have product : arena.bytes body * number = 0 := by omega
      exact (Nat.mul_eq_zero.mp product).resolve_left unit
    subst last
    have finished : finishedRound? arena
        (Position.inside ⟨arena.stop body, ⟨body, exit, .exact 0⟩ :: inner⟩ (loop :: outer)) =
        some (⟨body, exit, .exact 0⟩, inner ++ loop :: outer) := finishedRound_eq_some.mpr rfl
    exact ahead_eq_of_afterRound charts (within.inside nest) finished rfl

/-- The end of the last round that was taken at once has the same ahead as the position behind these
rounds. -/
theorem ahead_roundEnd_eq {number : Nat}
    (nest : Nest arena plot root (run.loop number :: run.outer)) :
    (roundEnd arena (run.loop number) run.outer).ahead arena =
      (run.after arena number).ahead arena := by
  by_cases ended : run.count.minus number = .exact 0
  · have isAfter : run.after arena number = ⟨run.exit, run.outer⟩ := by simp [Run.after, ended]
    rw [isAfter]
    refine ahead_eq_of_afterRound charts (within_roundEnd charts nest)
      (finishedRound_eq_some.mpr rfl) ?_
    simp [afterRound, Run.loop, ended, Count.mayContinue, Count.mayStop, Count.least]
  · simp [Run.after, ended, roundEnd, Run.loop]

theorem alike_roundEnd (nest : Nest arena plot root (loop :: outer))
    (within : position.Within arena plot loop.body) (ends : Ends arena position) :
    Alike arena (position.inside (loop :: outer)) (roundEnd arena loop outer) :=
  .of_ahead_eq charts (within.inside nest) (within_roundEnd charts nest)
    (ahead_inside_eq charts nest within ends)

theorem alike_after {number : Nat} (nest : Nest arena plot root (run.loop number :: run.outer)) :
    Alike arena (roundEnd arena (run.loop number) run.outer) (run.after arena number) := by
  have within := within_roundEnd charts nest
  exact .of_ahead_eq charts within (within.after charts) (ahead_roundEnd_eq charts nest)

theorem Starts.alike (starts : Starts arena position run)
    (within : position.Within arena plot root) :
    Alike arena position (run.entry arena) :=
  ⟨fun _ _ => starts.reads_iff charts within, starts.ends_iff charts within⟩

theorem not_starts_roundEnd (nest : Nest arena plot root (loop :: outer))
    (stops : loop.toCome.least = 0) :
    ¬ Starts arena (roundEnd arena loop outer) run := by
  intro starts
  have noEdges := charts.edges_stop (loop_repeats charts nest.1).inside
  rcases starts.cases with ⟨only, _⟩ | same
  · simp [roundEnd, noEdges] at only
  · simp only [roundEnd, Position.mk.injEq, List.cons.injEq] at same
    have goesOn := starts.goesOn
    rw [same.2.1, Run.loop, Count.minus_zero] at stops
    exact goesOn stops

theorem after_eq_or_alike {rounds : Nat}
    (nest : Nest arena plot root (run.loop rounds :: run.outer)) :
    roundEnd arena (run.loop rounds) run.outer = run.after arena rounds ∨
      Alike arena (roundEnd arena (run.loop rounds) run.outer) (run.after arena rounds) ∧
        ∀ more, ¬ Starts arena (roundEnd arena (run.loop rounds) run.outer) more := by
  by_cases ended : run.count.minus rounds = .exact 0
  · refine .inr ⟨alike_after charts nest, fun _ => not_starts_roundEnd charts nest ?_⟩
    simp [Run.loop, ended, Count.least]
  · left
    simp [Run.after, ended, roundEnd, Run.loop]

end

section Sized

variable (charts : arena.Charts plot proper) (sized : arena.Sized root)
  (within : position.Within arena plot root)

include charts sized within

theorem not_starts_of_left (none : left arena root position = 0) : ¬ Starts arena position run := by
  intro starts
  have bytes := starts.left_eq charts sized within
  have positive := Nat.mul_ne_zero (starts.bytes_ne_zero charts within) starts.goesOn
  omega

theorem Pads.ends (none : left arena root position = 0) (pads : Pads arena position) :
    Ends arena position := by
  rcases pads with ⟨padding, tokens, trace⟩
  cases trace with
  | ends ends => exact ends
  | @reads _ next token _ reads _ =>
    have isPadding := padding token (meets_iff_reads.mpr ⟨token, next, reads, .inl rfl⟩)
    have taken := reads.left_eq charts sized within
    rw [isPadding] at taken
    simp only [Token.width] at taken
    omega

end Sized

theorem Starts.eq_roundEnd (charts : arena.Charts plot proper)
    (nest : Nest arena plot root (loop :: outer)) (within : position.Within arena plot loop.body)
    (none : left arena loop.body position = 0)
    (starts : Starts arena (position.inside (loop :: outer)) run) :
    position.inside (loop :: outer) = roundEnd arena loop outer := by
  rcases starts.of_inside charts within with ⟨_, innerStarts, _⟩ | rfl
  · have sized := (loop_repeats charts nest.1).isSized
    exact absurd innerStarts (not_starts_of_left charts sized within none)
  · rfl

end Position

end Recast
