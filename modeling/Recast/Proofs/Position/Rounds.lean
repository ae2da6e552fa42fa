import Recast.Proofs.Assembly.Shapes
import Recast.Proofs.Position.Alike

/-!
# Loops unrolled on demand

A position reads on along what lies ahead of it (`Position.Follows`). What is read in this way from
the start of a layout to its end are the walks of the layout, loops and all. A run may be read round
by round, each as a value of its body, or be left behind as a whole. Where this leads to is not the
same position, but what lies ahead there is the same (`Position.Rounds.ahead_eq`), so that nothing
is lost when a run is taken at once (`Workshop.Filled.unrolls`).
-/

namespace Recast

open Position

namespace Position

variable {arena : Arena} {plot : Plot} {proper : Token → Prop} {root id : LayoutId}
  {position next middle last : Position} {token : Token} {tokens : List Token} {loop : Loop}
  {outer : List Loop} {run : Run} {rounds : List (List Token)}

/-- Reads token by token, each of those that lie ahead. -/
inductive Follows (arena : Arena) : Position → List Token → Position → Prop
  | nil (position : Position) : Follows arena position [] position
  | cons {position next last : Position} {token : Token} {tokens : List Token}
      (ahead : (token, next) ∈ (position.ahead arena).reads)
        (onward : Follows arena next tokens last) :
      Follows arena position (token :: tokens) last

/-- The positions that a check may come to in a layout: it reads on, or takes a number of rounds at
once. -/
inductive Accessible (arena : Arena) (id : LayoutId) : Position → Prop
  | root : Accessible arena id (.root arena id)
  | reads {position next : Position} {token : Token} (accessible : Accessible arena id position)
      (ahead : (token, next) ∈ (position.ahead arena).reads) : Accessible arena id next
  | after {position : Position} {run : Run} {number : Nat}
      (accessible : Accessible arena id position) (isRun : position.run? arena = some run)
        (some : 1 ≤ number) (few : number ≤ run.count.least) :
      Accessible arena id (run.after arena number)

/-- Reads whole rounds of a run, one after the other. In each round the same is read as in the body
by itself, up to where the body may end. The last round is the first one in the list. -/
inductive Rounds (arena : Arena) (run : Run) (position : Position) : List (List Token) → Position →
    Prop
  | nil : Rounds arena run position [] position
  | cons {rounds : List (List Token)} {middle stop : Position} {tokens : List Token}
      (earlier : Rounds arena run position rounds middle)
      (value : Follows arena (.root arena run.body) tokens stop) (ends : (stop.ahead arena).mayEnd)
      (along : Follows arena middle tokens
        (stop.inside (run.loop (rounds.length + 1) :: run.outer))) :
      Rounds arena run position (tokens :: rounds)
        (stop.inside (run.loop (rounds.length + 1) :: run.outer))

section Charted

variable (charts : arena.Charts plot proper)
include charts

theorem Follows.within (follows : Follows arena position tokens last)
    (within : position.Within arena plot root) :
    last.Within arena plot root := by
  induction follows with
  | nil => exact within
  | cons ahead _ ih => exact ih (((mem_reads_ahead charts within).mp ahead).within charts within)

section

variable (within : position.Within arena plot root)
include within

/-- What is read from a position up to where the value may end is a trace, and nothing else is. -/
theorem follows_iff_trace :
    (∃ last, Follows arena position tokens last ∧ (last.ahead arena).mayEnd) ↔
    Trace arena position tokens := by
  constructor
  · rintro ⟨last, follows, ends⟩
    induction follows with
    | nil => exact .ends ((mayEnd_ahead charts within).mp ends)
    | cons ahead _ ih =>
      have reads := (mem_reads_ahead charts within).mp ahead
      exact .reads reads (ih (reads.within charts within) ends)
  · intro trace
    induction trace with
    | ends ends => exact ⟨_, .nil _, (mayEnd_ahead charts within).mpr ends⟩
    | reads reads _ ih =>
      rcases ih (reads.within charts within) with ⟨last, follows, ends⟩
      exact ⟨last, .cons ((mem_reads_ahead charts within).mpr reads) follows, ends⟩

end

theorem Accessible.within (inside : id.index < arena.layouts.size)
    (accessible : Accessible arena id position) :
    position.Within arena plot id := by
  induction accessible with
  | root => exact within_root charts inside
  | reads _ ahead ih => exact ((mem_reads_ahead charts ih).mp ahead).within charts ih
  | @after _ run number _ isRun some few ih =>
    have starts : Starts arena _ run := ⟨isRun, by omega⟩
    obtain ⟨begun, rfl⟩ := Nat.exists_eq_add_of_le' some
    exact within_after charts starts ih begun

/-- What is read in the body of a loop is read inside the loop as well. -/
theorem Follows.inside (nest : Nest arena plot root (loop :: outer))
    (within : position.Within arena plot loop.body) (follows : Follows arena position tokens last) :
    Follows arena (position.inside (loop :: outer)) tokens (last.inside (loop :: outer)) := by
  induction follows with
  | nil => exact .nil _
  | cons ahead _ ih =>
    have reads := (mem_reads_ahead charts within).mp ahead
    exact .cons ((mem_reads_ahead charts (within.inside nest)).mpr (reads.inside _))
      (ih (reads.within charts within))

theorem Rounds.within (starts : Starts arena position run)
    (within : position.Within arena plot root) (walked : Rounds arena run position rounds last) :
    last.Within arena plot root := by
  cases walked with
  | nil => exact within
  | cons _ value =>
    exact (value.within charts (within_root charts (starts.body_lt charts within))).inside
      (starts.nest within _)

section Runs

variable (starts : Starts arena position run) (within : position.Within arena plot root)
include starts within

/-- However a run is read round by round, the same lies ahead behind it as where it is taken at
once. -/
theorem Rounds.ahead_eq (walked : Rounds arena run position rounds last) (some : rounds ≠ []) :
    last.ahead arena = (run.after arena rounds.length).ahead arena := by
  cases walked with
  | nil => exact absurd rfl some
  | cons _ value ends =>
    have nest := starts.nest within
    have stopWithin := value.within charts (within_root charts (starts.body_lt charts within))
    rw [ahead_inside_eq charts (nest _) stopWithin ((mayEnd_ahead charts stopWithin).mp ends)]
    exact ahead_roundEnd_eq charts (nest _)

/-- Between two rounds, the same is read as from the start of the next one. -/
theorem Rounds.alike (walked : Rounds arena run position rounds middle)
    (few : rounds.length < run.count.least) :
    Alike arena middle
      ((Position.root arena run.body).inside (run.loop (rounds.length + 1) :: run.outer)) := by
  cases walked with
  | nil => exact starts.alike charts within
  | @cons rounds _ stop _ _ value ends =>
    have nest := starts.nest within rounds.length
    have stopWithin := value.within charts (within_root charts (starts.body_lt charts within))
    have goesOn : (run.loop (rounds.length + 1)).toCome.least ≠ 0 := by
      rw [Run.loop, Count.least_minus]
      exact Nat.sub_ne_zero_of_lt few
    have onward :=
      (Starts.of_roundEnd charts nest goesOn).alike charts (within_roundEnd charts nest)
    have entry : Run.entry ⟨run.body, (run.loop (rounds.length + 1)).toCome, run.exit, run.outer⟩
        arena = (Position.root arena run.body).inside
        (run.loop (rounds.length + 1 + 1) :: run.outer) := by
      simp only [Run.entry, Run.loop, Count.minus_minus]
    exact (alike_roundEnd charts nest stopWithin ((mayEnd_ahead charts stopWithin).mp ends)).trans
      (entry ▸ onward)

/-- As long as there are rounds to come, any value of the body can be read in the next one. -/
theorem Rounds.exists_cons (walked : Rounds arena run position rounds middle)
    (few : rounds.length < run.count.least) (walk : arena.Walk run.body tokens) :
    ∃ last, Rounds arena run position (tokens :: rounds) last := by
  have inside := starts.body_lt charts within
  have rootWithin := within_root charts inside
  have trace := (walk_iff charts inside).mp walk
  rcases (follows_iff_trace charts rootWithin).mpr trace with ⟨stop, value, ends⟩
  refine ⟨_, .cons walked value ends ?_⟩
  cases value with
  | nil =>
    -- A body has bytes, so a round of it is not empty.
    have none :=
      ((mayEnd_ahead charts rootWithin).mp ends).left_eq charts (starts.sized charts within)
        rootWithin
    rw [left_root charts inside] at none
    exact absurd none (starts.bytes_ne_zero charts within)
  | cons ahead onward =>
    have reads := (mem_reads_ahead charts rootWithin).mp ahead
    have alongside := ((walked.alike charts starts within few).reads _ _).mpr (reads.inside _)
    exact .cons ((mem_reads_ahead charts (walked.within charts starts within)).mpr alongside)
      (onward.inside charts (starts.nest within _) (reads.within charts rootWithin))

/-- As many rounds as must come can be read, each with any value of the body. -/
theorem exists_rounds (few : rounds.length ≤ run.count.least)
    (each : ∀ round ∈ rounds, arena.Walk run.body round) :
    ∃ last, Rounds arena run position rounds last := by
  induction rounds with
  | nil => exact ⟨position, .nil⟩
  | cons round rest ih =>
    rw [List.length_cons] at few
    rcases ih (by omega) fun other isRest => each other (List.mem_cons_of_mem _ isRest) with
      ⟨_, walked⟩
    exact walked.exists_cons charts starts within (by omega) (each round List.mem_cons_self)

end Runs

end Charted

end Position

/-- Loops are unrolled faithfully. In every layout that assembly has made, what is read from the
start up to where the value may end are the walks of the layout. And from every position with a run
ahead, as many rounds as must come can be read with any values of the body; what lies ahead after
some rounds is the same as if they were taken at once. -/
theorem Workshop.Filled.unrolls {shop : Workshop} (filled : shop.Filled) (id : LayoutId)
    (inside : id.index < shop.arena.layouts.size) :
    (∀ tokens, (∃ last, Position.Follows shop.arena (.root shop.arena id) tokens last ∧
        (last.ahead shop.arena).mayEnd) ↔ shop.arena.Walk id tokens) ∧
      ∀ position run, Position.Accessible shop.arena id position →
        position.run? shop.arena = some run → ∀ rounds : List (List Token), 1 ≤ rounds.length →
        rounds.length ≤ run.count.least →
          ((∀ round ∈ rounds, shop.arena.Walk run.body round) →
            ∃ last, Position.Rounds shop.arena run position rounds last) ∧
          ∀ last, Position.Rounds shop.arena run position rounds last →
            last.ahead shop.arena = (run.after shop.arena rounds.length).ahead shop.arena := by
  rcases filled.exists_plotted rfl with ⟨plot, charts⟩
  constructor
  · intro tokens
    rw [follows_iff_trace charts (within_root charts inside), walk_iff charts inside]
  · intro position run accessible isRun rounds some few
    have within := accessible.within charts inside
    have starts : Starts shop.arena position run := ⟨isRun, by omega⟩
    refine ⟨exists_rounds charts starts within few, fun last walked => ?_⟩
    exact walked.ahead_eq charts starts within (List.ne_nil_of_length_pos some)

/-- The job of making the layout of three rows of two booleans. -/
def Workshop.Job.grid : Workshop.Job :=
  .ofShape (.array (.array (.scalar .bool) (.exact 2)) (.exact 3)) (.of_fits rfl)

/-- Two of the three rows can be read one by one or be taken at once. -/
theorem Workshop.unrolls_grid : let arena := (Job.grid.leave {}).arena
    let root := Position.root arena ⟨0⟩
    (∀ tokens, (∃ last, Position.Follows arena root tokens last ∧ (last.ahead arena).mayEnd) ↔
        arena.Walk ⟨0⟩ tokens) ∧
      ∃ run, root.run? arena = some run ∧ run.count = .exact 3 ∧
        ∀ first second, arena.Walk run.body first → arena.Walk run.body second →
          ∃ last, Position.Rounds arena run root [second, first] last ∧
            last.ahead arena = (run.after arena 2).ahead arena := by
  intro arena root
  have inside : 0 < arena.layouts.size := by decide +kernel
  have found : (root.run? arena).map Run.count = some (.exact 3) := by decide +kernel
  rcases Option.map_eq_some_iff.mp found with ⟨run, isRun, isCount⟩
  have unrolls := (Filled.leave Job.grid .empty).unrolls ⟨0⟩ inside
  refine ⟨unrolls.1, run, isRun, isCount, fun first second isFirst isSecond => ?_⟩
  have rounds :=
    unrolls.2 root run .root isRun [second, first] (by simp) (by simp [isCount, Count.least])
  have each : ∀ round ∈ [second, first], arena.Walk run.body round := by simp [isFirst, isSecond]
  rcases rounds.1 each with ⟨last, walked⟩
  exact ⟨last, walked, rounds.2 last walked⟩

end Recast
