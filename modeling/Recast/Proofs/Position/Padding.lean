import Recast.Proofs.Position.Finite
import Recast.Proofs.Position.Left
import Recast.Proofs.Position.Seen

/-!
# Padding to the end

`Position.endsInPadding` looks at blurred positions only, and takes a run of padding as one byte of
it. It still tells whether all that can be met from the position is padding and the value can be
brought to an end (`endsInPadding_iff`). The positions that were looked at are closed under reading,
up to blurring: a way through the body of a loop leads back to a position of the set. And there are
not more blurred positions than the rounds that the search may take.
-/

namespace Recast

open List Arena Position

variable {arena : Arena} {plot : Plot} {proper : Token → Prop} {id : LayoutId}
  {state target : StateId} {token : Token} {tokens : List Token}

namespace Arena

theorem sees_of_padding (charts : arena.Charts plot proper) (owns : arena.Owns plot id state)
    (padding : (arena.layout id).padding) (sees : arena.Sees token state) :
    token = .cell .uninit := by
  induction sees generalizing id with
  | here edge =>
    cases (charts.state owns).edges _ edge with
    | token _ pads => exact pads padding
  | later edge _ ih => exact ih (charts.owns_target owns edge) padding
  | within edge _ _ ih =>
    have repeated := charts.repeats owns edge
    exact ih (charts.owns_start repeated.inside) (repeated.pads padding)
  | past edge _ _ ih => exact ih (charts.owns_target owns edge) padding

theorem path_of_padding (charts : arena.Charts plot proper) (sized : arena.Sized id)
    (owns : arena.Owns plot id state) (padding : (arena.layout id).padding) :
    ∃ tokens, arena.Path state tokens (arena.stop id) := by
  -- Layouts to be repeated have higher numbers; within a layout, offsets grow.
  generalize depth : arena.layouts.size - id.index = height
  induction height using Nat.strongRecOn generalizing id state with
  | ind height ihHeight =>
    generalize rest : arena.bytes id - arena.offset state = left
    induction left using Nat.strongRecOn generalizing state with
    | ind left ihLeft =>
      by_cases atStop : state = arena.stop id
      · exact ⟨[], atStop ▸ .nil _⟩
      have idInside := charts.owner owns
      have someEdge : arena.edges state ≠ [] := (charts.state owns).onward padding atStop
      rcases exists_mem_of_ne_nil _ someEdge with ⟨⟨label, next⟩, edge⟩
      have nextOwned : arena.Owns plot id next := charts.owns_target owns edge
      cases label with
      | token letter =>
        have isPadding := sees_of_padding charts owns padding (.here edge)
        rcases charts.offset_token sized owns edge with ⟨offset, bounded⟩
        simp only [isPadding, Token.width] at offset
        rcases ihLeft _ (by omega) nextOwned rfl with ⟨tokens, path⟩
        exact ⟨letter :: tokens, .token edge path⟩
      | rep body count =>
        have repeated := charts.repeats owns edge
        have deeper := repeated.deeper
        have inside := repeated.inside
        rcases charts.offset_rep sized owns edge with ⟨number, _, several, offset, bounded⟩
        have positive : arena.bytes body * number ≠ 0 :=
          Nat.mul_ne_zero repeated.bytes_ne_zero (by omega)
        rcases ihHeight _ (by omega) repeated.isSized (charts.owns_start inside)
          (repeated.pads padding) rfl with ⟨walk, isWalk⟩
        rcases path_past edge (.inr ⟨walk, isWalk⟩) with ⟨first, past⟩
        rcases ihLeft _ (by omega) nextOwned rfl with ⟨tokens, path⟩
        exact ⟨first ++ tokens, past.append path⟩

end Arena

namespace Position

variable {root : LayoutId} {position next : Position} {run : Run}

structure Skips (arena : Arena) (position : Position) (run : Run) : Prop where
  isRun : position.run? arena = some run
  padding : (arena.layout run.body).padding

section Ahead

theorem aheadOfPadding_of_skips (skips : Skips arena position run) :
    position.aheadOfPadding arena = { reads := [(.cell .uninit, run.past)] } := by
  simp [aheadOfPadding, skips.isRun, skips.padding]

theorem aheadOfPadding_of_not_skips (notSkips : ¬ ∃ run, Skips arena position run) :
    position.aheadOfPadding arena = position.ahead arena := by
  unfold aheadOfPadding
  split
  · rename_i run isRun
    split
    · rename_i padding
      exact absurd ⟨run, isRun, padding⟩ notSkips
    · rfl
  · rfl

variable (charts : arena.Charts plot proper)
include charts

theorem Skips.steps (skips : Skips arena position run) (within : position.Within arena plot root) :
    ∃ tokens, Steps arena position tokens run.past := by
  rcases position with ⟨state, loops⟩
  rcases run_cases skips.isRun with ⟨only, same⟩ | ⟨same, _⟩
  · simp only at only same
    subst same
    have edge : ⟨.rep run.body run.count, run.exit⟩ ∈ arena.edges state := by simp [only]
    have repeated := charts.repeats within.owns edge
    have inhabited :=
      path_of_padding charts repeated.isSized (charts.owns_start repeated.inside) skips.padding
    rcases path_past edge (.inr inhabited) with ⟨tokens, path⟩
    exact ⟨tokens, .of_path path _⟩
  · rw [same] at within ⊢
    have repeated := loop_repeats charts within.nest.1
    have inhabited :=
      path_of_padding charts repeated.isSized (charts.owns_start repeated.inside) skips.padding
    rcases passes_iff.mp (.inr inhabited) with ⟨rounds, admitted, each⟩
    refine ⟨rounds.flatten, .of_rounds ?_ fun round member loops =>
      .of_path (each round member) loops⟩
    rw [Count.minus_zero]
    exact admitted

theorem steps_of_mem_aheadOfPadding (within : position.Within arena plot root)
    (member : (token, next) ∈ (position.aheadOfPadding arena).reads) :
    (token ≠ .cell .uninit → Meets arena position token) ∧
    ∃ tokens, Steps arena position tokens next := by
  by_cases skips : ∃ run, Skips arena position run
  · rcases skips with ⟨_, isSkip⟩
    rw [aheadOfPadding_of_skips isSkip] at member
    simp only [mem_singleton, Prod.mk.injEq] at member
    rcases member with ⟨rfl, rfl⟩
    exact ⟨fun other => absurd rfl other, isSkip.steps charts within⟩
  · rw [aheadOfPadding_of_not_skips skips, mem_reads_ahead charts within] at member
    exact ⟨fun _ => meets_iff_reads.mpr ⟨token, next, member, .inl rfl⟩, _,
      .of_reads member (.refl next)⟩

theorem ends_of_mayEnd_aheadOfPadding (within : position.Within arena plot root)
    (mayEnd : (position.aheadOfPadding arena).mayEnd) : Ends arena position := by
  by_cases skips : ∃ run, Skips arena position run
  · rcases skips with ⟨_, isSkip⟩
    simp [aheadOfPadding_of_skips isSkip] at mayEnd
  · rwa [aheadOfPadding_of_not_skips skips, mayEnd_ahead charts within] at mayEnd

end Ahead

section Explored

variable {seen : Position → Prop} {exit : StateId} {loops outer : List Loop} {body : LayoutId}
  {count : Count}

/-- From the positions of a set, nothing but padding is read, and reading it leads to positions of
the set again, up to blurring. -/
structure Explored (arena : Arena) (plot : Plot) (root : LayoutId) (seen : Position → Prop) :
    Prop where
  within : ∀ position, seen position → position.Within arena plot root
  pads : ∀ position, seen position → ∀ token next,
    (token, next) ∈ (position.aheadOfPadding arena).reads → token = .cell .uninit
  closed : ∀ position, seen position → ∀ token next,
    (token, next) ∈ (position.aheadOfPadding arena).reads → seen next.blur

/-- The position is in the set, or it was looked through on the way to what is read there. -/
def Visited (arena : Arena) (seen : Position → Prop) (position : Position) : Prop :=
  seen position ∨ ∃ origin, seen origin ∧ (¬ ∃ run, Skips arena origin run) ∧
    Moves arena origin position

def Blurred (loops : List Loop) : Prop :=
  loops.map Loop.blur = loops

theorem blurred_map (loops : List Loop) : Blurred (loops.map Loop.blur) := by
  simp [Blurred]

theorem Visited.origin (visited : Visited arena seen position)
    (notSkips : ¬ ∃ run, Skips arena position run) :
    ∃ origin, seen origin ∧ (¬ ∃ run, Skips arena origin run) ∧ Moves arena origin position := by
  rcases visited with isSeen | visited
  · exact ⟨position, isSeen, notSkips, .refl⟩
  · exact visited

section

variable (charts : arena.Charts plot proper) (explored : Explored arena plot root seen)
  (visited : Visited arena seen position)
include charts explored visited

theorem Visited.within : position.Within arena plot root := by
  rcases visited with isSeen | ⟨origin, isSeen, _, moves⟩
  · exact explored.within position isSeen
  · exact Moves.within charts moves (explored.within origin isSeen)

theorem Visited.own (own : Own arena position token next) :
    token = .cell .uninit ∧ Visited arena seen next.blur := by
  have notSkips : ¬ ∃ run, Skips arena position run := fun ⟨_, isSkip⟩ =>
    not_own_of_run charts (visited.within charts explored) isSkip.isRun own
  rcases visited.origin notSkips with ⟨origin, isSeen, notSkips, moves⟩
  have reads : (token, next) ∈ (origin.aheadOfPadding arena).reads := by
    rw [aheadOfPadding_of_not_skips notSkips,
      mem_reads_ahead charts (explored.within origin isSeen)]
    exact ⟨position, moves, own⟩
  exact ⟨explored.pads origin isSeen token next reads,
    .inl (explored.closed origin isSeen token next reads)⟩

end

theorem Visited.moves (explored : Explored arena plot root seen)
    (visited : Visited arena seen position) :
    (∀ next, Move arena position next → Visited arena seen next) ∨
      ∃ run, Skips arena position run ∧ Visited arena seen run.past.blur := by
  by_cases skips : ∃ run, Skips arena position run
  · rcases visited with isSeen | ⟨origin, isSeen, notSkips, moves⟩
    · rcases skips with ⟨run, isSkip⟩
      refine .inr ⟨run, isSkip, .inl ?_⟩
      refine explored.closed position isSeen (.cell .uninit) run.past ?_
      simp [aheadOfPadding_of_skips isSkip]
    · exact .inl fun next move => .inr ⟨origin, isSeen, notSkips, moves.tail move⟩
  · rcases visited.origin skips with ⟨origin, isSeen, notSkips, moves⟩
    exact .inl fun _ move => .inr ⟨origin, isSeen, notSkips, moves.tail move⟩

variable (charts : arena.Charts plot proper)
include charts

section

variable (explored : Explored arena plot root seen)
include explored

theorem Visited.rep (visited : Visited arena seen ⟨state, loops⟩)
    (edge : ⟨.rep body count, exit⟩ ∈ arena.edges state) :
    (∀ next, Move arena ⟨state, loops⟩ next → Visited arena seen next) ∨
      (arena.layout body).padding ∧ Visited arena seen ⟨exit, loops.map Loop.blur⟩ := by
  rcases visited.moves explored with onward | ⟨run, ⟨isRun, padding⟩, past⟩
  · exact .inl onward
  · right
    have same : run = ⟨body, count, exit, loops⟩ := by
      rcases run_cases isRun with ⟨only, rfl⟩ | ⟨same, _⟩
      · simp only [only, mem_singleton, Edge.mk.injEq, Label.rep.injEq] at edge
        rcases edge with ⟨⟨rfl, rfl⟩, rfl⟩
        rfl
      · have within := visited.within charts explored
        rw [same] at within
        have noEdges := charts.edges_stop (loop_repeats charts within.nest.1).inside
        simp only [roundEnd, mk.injEq] at same
        rw [same.1, noEdges] at edge
        simp at edge
    subst same
    exact ⟨padding, by simpa [Run.past, blur_eq] using past⟩

theorem Visited.round {toCome : Count}
    (visited : Visited arena seen ⟨arena.stop body, ⟨body, exit, toCome⟩ :: outer⟩) :
    (∀ next, Move arena ⟨arena.stop body, ⟨body, exit, toCome⟩ :: outer⟩ next →
      Visited arena seen next) ∨ (arena.layout body).padding ∧ toCome.mayStop = false ∧
        Visited arena seen ⟨exit, outer.map Loop.blur⟩ := by
  rcases visited.moves explored with onward | ⟨run, ⟨isRun, padding⟩, past⟩
  · exact .inl onward
  · right
    have noEdges :=
      charts.edges_stop (loop_repeats charts (visited.within charts explored).nest.1).inside
    rcases run_cases isRun with ⟨only, _⟩ | ⟨same, goesOn⟩
    · simp [noEdges] at only
    · rcases run with ⟨_, _, _, _⟩
      simp only [roundEnd, Run.loop, Count.minus_zero, mk.injEq, cons.injEq, Loop.mk.injEq] at same
      rcases same with ⟨_, ⟨rfl, rfl, rfl⟩, rfl⟩
      exact ⟨padding, goesOn, by simpa [Run.past, blur_eq] using past⟩

theorem Visited.leave {toCome : Count} (blurred : Blurred (⟨body, exit, toCome⟩ :: outer))
    (visited : Visited arena seen ⟨arena.stop body, ⟨body, exit, toCome⟩ :: outer⟩)
    (passes : toCome.mayStop ∨ ∀ loops, Visited arena seen ⟨arena.start body, loops⟩ →
      Visited arena seen ⟨arena.stop body, loops.map Loop.blur⟩) :
    Visited arena seen ⟨exit, outer⟩ := by
  simp only [Blurred, map_cons, cons.injEq, Loop.blur, Loop.mk.injEq, true_and] at blurred
  rcases visited.round charts explored with onward | ⟨_, _, past⟩
  · by_cases stops : toCome.mayStop
    · exact onward _ (.leave stops)
    · -- One more round brings the blurred count to the point where the loop may stop.
      have continues : toCome.mayContinue := by
        cases toCome with
        | exact => simpa [Count.mayContinue, Count.mayStop_iff, Count.least] using stops
        | atLeast => rfl
      have stopsNext : (toCome.minus 1).blur.mayStop := by
        rw [Count.mayStop_blur, Count.mayStop_iff, Count.least_minus, ← blurred.1]
        cases toCome <;> simp only [Count.blur, Count.least] <;> omega
      have again := onward _ (.again continues)
      have through := (passes.resolve_left stops) _ again
      simp only [map_cons, Loop.blur, blurred.2] at through
      rcases through.round charts explored with next | ⟨_, goesOn, _⟩
      · exact next _ (.leave stopsNext)
      · simp [stopsNext] at goesOn
  · rwa [blurred.2] at past

end

theorem walk_ne_nil (repeated : arena.Repeats plot id body exit) (walk : arena.Walk body tokens) :
    tokens ≠ [] := by
  rintro rfl
  have width := width_walk charts repeated.isSized repeated.inside walk
  exact repeated.bytes_ne_zero width.symm

section

variable (explored : Explored arena plot root seen)
include explored

theorem Visited.path (path : arena.Path state tokens target) (loops : List Loop)
    (visited : Visited arena seen ⟨state, loops⟩) :
    Visited arena seen ⟨target, loops.map Loop.blur⟩ ∨
      tokens = [] ∧ Visited arena seen ⟨target, loops⟩ := by
  induction path generalizing loops with
  | nil => exact .inr ⟨rfl, visited⟩
  | token edge _ ih =>
    have read := (visited.own charts explored (.intro edge)).2
    rw [blur_eq] at read
    rcases ih _ read with onward | ⟨_, onward⟩
    · rw [blurred_map] at onward
      exact .inl onward
    · exact .inl onward
  | @rep _ exit target body count rounds _ edge admitted each _ ihEach ih =>
    have repeated := charts.repeats (visited.within charts explored).owns edge
    have through (round : List Token) (isRound : round ∈ rounds) (around : List Loop)
        (start : Visited arena seen ⟨arena.start body, around⟩) :
        Visited arena seen ⟨arena.stop body, around.map Loop.blur⟩ := by
      have isWalk : arena.Walk body round := each round isRound
      rcases ihEach round isRound around start with stop | ⟨empty, _⟩
      · exact stop
      · exact absurd empty (walk_ne_nil charts repeated isWalk)
    have fromExit (past : Visited arena seen ⟨exit, loops.map Loop.blur⟩) :
        Visited arena seen ⟨target, loops.map Loop.blur⟩ := by
      rcases ih _ past with stop | ⟨_, stop⟩
      · rwa [blurred_map] at stop
      · exact stop
    rcases visited.rep charts explored edge with moves | ⟨_, past⟩
    · rcases rounds with _ | ⟨round, _⟩
      · have skipped := moves _ (.skip edge (Count.admits_zero.mp admitted))
        simpa using ih loops skipped
      · left
        have continues := (Count.admits_succ.mp admitted).1
        have atStop := through round mem_cons_self _ (moves _ (.first edge continues))
        have blurred := blurred_map (⟨body, exit, count.minus 1⟩ :: loops)
        refine fromExit (atStop.leave charts explored blurred (.inr ?_))
        exact through round mem_cons_self
    · exact .inl (fromExit past)

theorem Visited.past (visited : Visited arena seen ⟨state, loops⟩)
    (edge : ⟨.rep body count, exit⟩ ∈ arena.edges state)
    (passes : count.mayStop ∨ arena.Inhabited body) :
    ∃ around, Visited arena seen ⟨exit, around⟩ := by
  rcases path_past edge passes with ⟨_, path⟩
  rcases Visited.path charts explored path loops visited with onward | ⟨_, onward⟩
  · exact ⟨_, onward⟩
  · exact ⟨_, onward⟩

theorem Visited.sees (sees : arena.Sees token state) (loops : List Loop)
    (visited : Visited arena seen ⟨state, loops⟩) : token = .cell .uninit := by
  induction sees generalizing loops with
  | here edge => exact (visited.own charts explored (.intro edge)).1
  | later edge _ ih =>
    have read := (visited.own charts explored (.intro edge)).2
    rw [blur_eq] at read
    exact ih _ read
  | within edge continues sees ih =>
    have repeated := charts.repeats (visited.within charts explored).owns edge
    rcases visited.rep charts explored edge with moves | ⟨padding, _⟩
    · exact ih _ (moves _ (.first edge continues))
    · exact sees_of_padding charts (charts.owns_start repeated.inside) padding sees
  | past edge passes _ ih =>
    rcases visited.past charts explored edge passes with ⟨around, onward⟩
    exact ih around onward

theorem Visited.present (path : arena.Path state tokens target) (blurred : Blurred loops)
    (visited : Visited arena seen ⟨state, loops⟩) : Visited arena seen ⟨target, loops⟩ := by
  rcases Visited.path charts explored path loops visited with onward | ⟨_, onward⟩
  · rwa [blurred] at onward
  · exact onward

theorem Visited.through (inhabited : arena.Inhabited body)
    (repeated : arena.Repeats plot id body exit) (loops : List Loop)
    (visited : Visited arena seen ⟨arena.start body, loops⟩) :
    Visited arena seen ⟨arena.stop body, loops.map Loop.blur⟩ := by
  rcases inhabited with ⟨_, isWalk⟩
  rcases Visited.path charts explored isWalk loops visited with onward | ⟨empty, _⟩
  · exact onward
  · exact absurd empty (walk_ne_nil charts repeated isWalk)

theorem Visited.outside {loop : Loop} (path : arena.Path state tokens (arena.stop loop.body))
    (blurred : Blurred (loop :: outer)) (passes : loop.toCome.mayStop ∨ arena.Inhabited loop.body)
    (visited : Visited arena seen ⟨state, loop :: outer⟩) :
    Visited arena seen ⟨loop.exit, outer⟩ := by
  have repeated := loop_repeats charts (visited.within charts explored).nest.1
  refine (visited.present charts explored path blurred).leave charts explored blurred ?_
  exact passes.imp_right fun inhabited =>
    fun loops start => start.through charts explored inhabited repeated loops

theorem Visited.seesFrom (blurred : Blurred loops) (visited : Visited arena seen ⟨state, loops⟩)
    (sees : SeesFrom arena token loops state) :
    token = .cell .uninit := by
  induction loops generalizing state with
  | nil => exact visited.sees charts explored sees []
  | cons _ outer ih =>
    have repeated := loop_repeats charts (visited.within charts explored).nest.1
    rcases sees with sees | ⟨⟨_, path⟩, ⟨continues, sees⟩ | ⟨passes, sees⟩⟩
    · exact visited.sees charts explored sees _
    · have atStop := visited.present charts explored path blurred
      rcases atStop.round charts explored with moves | ⟨padding, _, _⟩
      · exact (moves _ (.again continues)).sees charts explored sees _
      · exact sees_of_padding charts (charts.owns_start repeated.inside) padding sees
    · have outerBlurred : Blurred outer := (cons.inj blurred).2
      exact ih outerBlurred (visited.outside charts explored path blurred passes) sees

theorem Visited.passes (blurred : Blurred loops) (visited : Visited arena seen ⟨state, loops⟩)
    (passes : Passes arena root loops state) :
    Visited arena seen ⟨arena.stop root, []⟩ := by
  induction loops generalizing state with
  | nil =>
    rcases passes with ⟨_, path⟩
    exact visited.present charts explored path blurred
  | cons _ outer ih =>
    rcases passes with ⟨⟨_, path⟩, passesLoop, outside⟩
    have outerBlurred : Blurred outer := (cons.inj blurred).2
    exact ih outerBlurred (visited.outside charts explored path blurred passesLoop) outside

theorem Visited.mayEnd (visited : Visited arena seen ⟨arena.stop root, []⟩) :
    ∃ position, seen position ∧ (position.aheadOfPadding arena).mayEnd := by
  have within := visited.within charts explored
  have inside : root.index < arena.layouts.size := charts.owner within.owns
  have notSkips : ¬ ∃ run, Skips arena ⟨arena.stop root, []⟩ run := by
    rintro ⟨_, isRun, _⟩
    rcases run_cases isRun with ⟨only, _⟩ | ⟨same, _⟩
    · simp [charts.edges_stop inside] at only
    · simp [roundEnd] at same
  rcases visited.origin notSkips with ⟨origin, isSeen, notSkips, moves⟩
  refine ⟨origin, isSeen, ?_⟩
  rw [aheadOfPadding_of_not_skips notSkips, mayEnd_ahead charts (explored.within origin isSeen)]
  exact ⟨_, moves, final_stop charts inside⟩

end

end Explored

/-- All that can be met from the position is padding, and the value can be brought to an end. -/
structure Pads (arena : Arena) (position : Position) : Prop where
  padding : ∀ token, Meets arena position token → token = .cell .uninit
  finishes : Finishes arena position

theorem pads_blur (charts : arena.Charts plot proper) (within : position.Within arena plot root) :
    Pads arena position.blur ↔ Pads arena position := by
  constructor
  · rintro ⟨padding, finishes⟩
    exact ⟨fun token meets => padding token (meets_blur.mpr meets),
      (finishes_blur charts within).mp finishes⟩
  · rintro ⟨padding, finishes⟩
    exact ⟨fun token meets => padding token (meets_blur.mp meets),
      (finishes_blur charts within).mpr finishes⟩

section Search

variable {origin : Position} {seen pending : List Position} {mayEnd : Bool}

/-- The position can be reached from the origin, up to blurring. -/
structure Reached (arena : Arena) (plot : Plot) (root : LayoutId) (origin position : Position) :
    Prop where
  within : position.Within arena plot root
  blurred : position.blur = position
  meets : ∀ token, Meets arena position token → Meets arena origin token
  finishes : Finishes arena position → Finishes arena origin

theorem Reached.onward (charts : arena.Charts plot proper)
    (reached : Reached arena plot root origin position)
    (member : (token, next) ∈ (position.aheadOfPadding arena).reads) :
    Reached arena plot root origin next.blur := by
  rcases steps_of_mem_aheadOfPadding charts reached.within member with ⟨_, _, steps⟩
  have nextWithin := steps.within charts reached.within
  refine ⟨nextWithin.blur, blur_blur, fun letter meets => ?_, fun finishes => ?_⟩
  · exact reached.meets letter (.of_steps steps (meets_blur.mp meets))
  · exact reached.finishes (.of_steps steps ((finishes_blur charts nextWithin).mp finishes))

theorem Reached.length_le (charts : arena.Charts plot proper) (distinct : seen.Nodup)
    (reached : ∀ position ∈ seen, Reached arena plot root origin position) :
    seen.length ≤ arena.states.size * (4 * arena.states.size + 1) ^ arena.layouts.size := by
  have bounded (position : Position) (member : position ∈ seen) : position.Bounded arena plot
      2 := by
    refine ⟨⟨root, (reached position member).within⟩, fun loop isLoop => ?_⟩
    have same := (reached position member).blurred
    rw [blur_eq, mk.injEq] at same
    have isBlurred : loop.blur = loop :=
      map_inj_left.mp (same.2.trans (map_id _).symm) loop isLoop
    rw [← isBlurred]
    rcases loop with ⟨body, exit, _ | _⟩ <;> simp only [Loop.blur, Count.blur, Count.least] <;>
      omega
  have few := length_le_of_nodup charts distinct bounded
  rwa [Nat.mul_comm arena.states.size (2 * 2)] at few

structure Search (arena : Arena) (plot : Plot) (root : LayoutId) (origin : Position)
    (seen pending : List Position) (mayEnd : Bool) : Prop where
  begun : origin ∈ seen ++ pending
  distinct : (seen ++ pending).Nodup
  reached : ∀ position ∈ seen ++ pending, Reached arena plot root origin position
  pads : ∀ position ∈ seen, ∀ token next,
    (token, next) ∈ (position.aheadOfPadding arena).reads → token = .cell .uninit
  closed : ∀ position ∈ seen, ∀ token next,
    (token, next) ∈ (position.aheadOfPadding arena).reads → next.blur ∈ seen ++ pending
  mayEnd : mayEnd ↔ ∃ position ∈ seen, (position.aheadOfPadding arena).mayEnd

theorem Search.iff_pads (charts : arena.Charts plot proper)
    (search : Search arena plot root origin seen [] mayEnd) :
    mayEnd ↔ Pads arena origin := by
  have reached (position : Position) (isSeen : position ∈ seen) : Reached arena plot root origin
      position :=
    search.reached position (by simpa using isSeen)
  have explored : Explored arena plot root (· ∈ seen) := by
    refine ⟨fun position isSeen => (reached position isSeen).within, search.pads, ?_⟩
    intro position isSeen token next member
    simpa using search.closed position isSeen token next member
  have originSeen : origin ∈ seen := by simpa using search.begun
  have visited : Visited arena (· ∈ seen) ⟨origin.state, origin.loops⟩ := .inl originSeen
  have blurred : Blurred origin.loops := by
    have same := (reached origin originSeen).blurred
    rw [blur_eq] at same
    exact congrArg loops same
  have originWithin := (reached origin originSeen).within
  rw [search.mayEnd]
  constructor
  · rintro ⟨position, isSeen, mayEnd⟩
    have ends := ends_of_mayEnd_aheadOfPadding charts (reached position isSeen).within mayEnd
    refine ⟨fun _ meets => ?_, (reached position isSeen).finishes ⟨[], .ends ends⟩⟩
    exact visited.seesFrom charts explored blurred (meets_iff_seesFrom.mp meets)
  · intro pads
    have passes := (finishes_iff_passes charts originWithin).mp pads.finishes
    exact (visited.passes charts explored blurred passes).mayEnd charts explored

theorem Search.not_pads (charts : arena.Charts plot proper)
    (search : Search arena plot root origin seen pending mayEnd) (isPending : position ∈ pending)
    (member : (token, next) ∈ (position.aheadOfPadding arena).reads)
    (other : token ≠ .cell .uninit) : ¬ Pads arena origin := by
  intro pads
  have reached := search.reached position (mem_append_right _ isPending)
  have meets := (steps_of_mem_aheadOfPadding charts reached.within member).1 other
  exact other (pads.padding token (reached.meets token meets))

theorem nodup_eraseDups (positions : List Position) : positions.eraseDups.Nodup := by
  generalize length : positions.length = bound
  induction bound using Nat.strongRecOn generalizing positions with
  | ind bound ih =>
    cases positions with
    | nil => simp
    | cons first rest =>
      have shorter := length_filter_le (fun position => !position == first) rest
      simp only [length_cons] at length
      rw [eraseDups_cons, nodup_cons]
      refine ⟨?_, ih _ (by omega) _ rfl⟩
      simp [mem_eraseDups]

section

variable (charts : arena.Charts plot proper)
  (search : Search arena plot root origin seen pending mayEnd)
include charts search

theorem Search.onward (pads : ∀ position ∈ pending, ∀ token next,
      (token, next) ∈ (position.aheadOfPadding arena).reads → token = .cell .uninit) :
    let all := Ahead.concat (pending.map (aheadOfPadding arena))
    Search arena plot root origin (seen ++ pending)
      ((all.reads.map fun (_, next) => next.blur).eraseDups.filter (· ∉ seen ++ pending))
      (mayEnd || all.mayEnd) := by
  intro all
  have mem_next (after : Position) :
      after ∈ (all.reads.map fun (_, next) => next.blur).eraseDups.filter (· ∉ seen ++ pending) ↔
        (∃ position ∈ pending, ∃ token next,
          (token, next) ∈ (position.aheadOfPadding arena).reads ∧ next.blur = after) ∧
        after ∉ seen ++ pending := by
    simp only [all, mem_filter, mem_eraseDups, mem_map, Ahead.reads_concat,
      mem_flatMap, decide_eq_true_eq, Prod.exists]
    refine and_congr_left fun _ => ⟨?_, ?_⟩
    · rintro ⟨token, next, ⟨_, ⟨position, isPending, rfl⟩, member⟩, same⟩
      exact ⟨position, isPending, token, next, member, same⟩
    · rintro ⟨position, isPending, token, next, member, same⟩
      exact ⟨token, next, ⟨_, ⟨position, isPending, rfl⟩, member⟩, same⟩
  refine ⟨mem_append_left _ search.begun, ?_, ?_, ?_, ?_, ?_⟩
  · refine nodup_append'.mpr ⟨search.distinct, (nodup_eraseDups _).filter _, ?_⟩
    exact fun position known isNext => ((mem_next position).mp isNext).2 known
  · intro position member
    rcases mem_append.mp member with known | isNext
    · exact search.reached position known
    · rcases (mem_next position).mp isNext with ⟨⟨before, isPending, _, _, reads, rfl⟩, _⟩
      exact (search.reached before (mem_append_right _ isPending)).onward charts reads
  · intro position member
    rcases mem_append.mp member with isSeen | isPending
    · exact search.pads position isSeen
    · exact pads position isPending
  · intro position member token next reads
    rcases mem_append.mp member with isSeen | isPending
    · exact mem_append_left _ (search.closed position isSeen token next reads)
    · by_cases known : next.blur ∈ seen ++ pending
      · exact mem_append_left _ known
      · refine mem_append_right _ ((mem_next _).mpr ⟨?_, known⟩)
        exact ⟨position, isPending, token, next, reads, rfl⟩
  · simp only [all, Bool.or_eq_true, search.mayEnd, Ahead.mayEnd_concat, any_map,
      any_eq_true, Function.comp_apply, mem_append, or_and_right, exists_or]

/-- The search decides whether there is nothing but padding up to the end: each round that finds
new positions takes at least one from those that there are. -/
theorem padsOut_iff {rounds : Nat}
    (enough :
      arena.states.size * (4 * arena.states.size + 1) ^ arena.layouts.size < rounds + seen.length) :
    padsOut arena rounds seen pending mayEnd ↔ Pads arena origin := by
  induction rounds generalizing seen pending mayEnd with
  | zero =>
    have few := Reached.length_le charts search.distinct.of_append_left fun position isSeen =>
      search.reached position (mem_append_left _ isSeen)
    omega
  | succ rounds ih =>
    cases pending with
    | nil =>
      rw [padsOut]
      exact search.iff_pads charts
    | cons first rest =>
      rw [padsOut]
      · simp only
        split
        · rename_i allPads
          rw [all_eq_true] at allPads
          refine ih (search.onward charts ?_) ?_
          · intro position isPending token next member
            have isPadding := allPads (token, next) (by
              simp only [Ahead.reads_concat, mem_flatMap, mem_map]
              exact ⟨_, ⟨position, isPending, rfl⟩, member⟩)
            simpa using isPadding
          · simp only [length_append, length_cons]
            omega
        · rename_i notAll
          simp only [all_eq_true, Ahead.reads_concat, mem_flatMap, mem_map, decide_eq_true_eq,
            not_forall] at notAll
          rcases notAll with ⟨⟨_, _⟩, ⟨_, ⟨_, isPending, rfl⟩, member⟩, other⟩
          simp only [Bool.false_eq_true, false_iff]
          exact search.not_pads charts isPending member other
      · simp

end

theorem Search.start (within : position.Within arena plot root) :
    Search arena plot root position.blur [] [position.blur] false := by
  refine ⟨by simp, by simp, ?_, by simp, by simp, by simp⟩
  intro _ member
  rw [nil_append, mem_singleton] at member
  subst member
  exact ⟨within.blur, blur_blur, fun _ meets => meets, fun finishes => finishes⟩

theorem endsInPadding_iff (charts : arena.Charts plot proper)
    (within : position.Within arena plot root) :
    position.endsInPadding arena ↔ Pads arena position := by
  rw [← pads_blur charts within, ← padsOut_iff charts (.start within) ?_]
  · rfl
  · change _ < arena.states.size * (4 * arena.states.size + 1) ^ arena.layouts.size + 2 + 0
    omega

end Search

end Position

end Recast
