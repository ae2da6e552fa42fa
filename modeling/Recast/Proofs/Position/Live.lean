import Recast.Proofs.Position.Seen

/-!
# Live layouts

A layout is live if no way through it comes to a dead end: whatever state can be reached, in the
layout or in the body of one of its repeats, leads on to the end. Then a value can be brought to an
end from every position that can be reached (`Position.Alive.finishes`).
-/

namespace Recast

variable {arena : Arena} {plot : Plot} {proper : Token → Prop} {root : LayoutId}

def Label.body? : Label → Option LayoutId
  | .token _ => none
  | .rep body _ => some body

namespace Arena

variable {id body : LayoutId} {state : StateId}

/-- The states that can be reached from the start of a layout, each with the layout it is met in:
the layout itself, or the body of a repeat. -/
inductive Reaches (arena : Arena) (root : LayoutId) : LayoutId → StateId → Prop
  | start : Reaches arena root root (arena.start root)
  | onward {id : LayoutId} {state : StateId} {edge : Edge} (reaches : Reaches arena root id state)
      (member : edge ∈ arena.edges state) : Reaches arena root id edge.target
  | within {id body : LayoutId} {state exit : StateId} {count : Count}
      (reaches : Reaches arena root id state)
      (member : ⟨.rep body count, exit⟩ ∈ arena.edges state) :
      Reaches arena root body (arena.start body)

/-- There is a way over edges from state to state. -/
abbrev LeadsTo (arena : Arena) : StateId → StateId → Prop :=
  Relation.ReflTransGen fun state next => ∃ edge ∈ arena.edges state, edge.target = next

/-- Every state that can be reached leads to the end of the layout it is met in. -/
def Live (arena : Arena) (root : LayoutId) : Prop :=
  ∀ id state, arena.Reaches root id state → arena.LeadsTo state (arena.stop id)

theorem Reaches.trans (first : arena.Reaches root body (arena.start body))
    (second : arena.Reaches body id state) : arena.Reaches root id state := by
  induction second with
  | start => exact first
  | onward _ member ih => exact .onward ih member
  | within _ member ih => exact .within ih member

theorem Reaches.leadsTo {target : StateId} (reaches : arena.Reaches root id state)
    (leads : arena.LeadsTo state target) : arena.Reaches root id target := by
  induction leads with
  | refl => exact reaches
  | tail _ edge ih =>
    rcases edge with ⟨_, member, rfl⟩
    exact .onward ih member

theorem Live.within (live : arena.Live root)
    (reaches : arena.Reaches root body (arena.start body)) :
    arena.Live body :=
  fun id state onward => live id state (reaches.trans onward)

def leadsWithin (arena : Arena) : (rounds : Nat) → StateId → StateId → Bool
  | 0, state, target => state = target
  | rounds + 1, state, target =>
    state = target || (arena.edges state).any fun edge =>
      arena.leadsWithin rounds edge.target target

theorem leadsTo_of_leadsWithin {rounds : Nat} {target : StateId}
    (leads : arena.leadsWithin rounds state target) : arena.LeadsTo state target := by
  induction rounds generalizing state with
  | zero =>
    rw [leadsWithin, decide_eq_true_eq] at leads
    rw [leads]
  | succ _ ih =>
    simp only [leadsWithin, Bool.or_eq_true, decide_eq_true_eq, List.any_eq_true] at leads
    rcases leads with rfl | ⟨edge, member, onward⟩
    · exact .refl
    · exact .head ⟨edge, member, rfl⟩ (ih onward)

def table (arena : Arena) : List (LayoutId × StateId) :=
  (List.range arena.layouts.size).flatMap fun index => (arena.statesOf ⟨index⟩).map (⟨index⟩, ·)

/-- No edge leads out of the table, and all states in it lead on. -/
structure Tabled (arena : Arena) : Prop where
  starts : ∀ index < arena.layouts.size, (⟨index⟩, arena.start ⟨index⟩) ∈ arena.table
  onward : ∀ entry ∈ arena.table, ∀ edge ∈ arena.edges entry.2, (entry.1, edge.target) ∈ arena.table
  bodies : ∀ entry ∈ arena.table, ∀ edge ∈ arena.edges entry.2, ∀ body ∈ edge.label.body?,
    body.index < arena.layouts.size
  leads : ∀ entry ∈ arena.table, arena.leadsWithin arena.states.size entry.2 (arena.stop entry.1)

instance (arena : Arena) : Decidable arena.Tabled :=
  decidable_of_iff (_ ∧ _ ∧ _ ∧ _)
    ⟨fun all => ⟨all.1, all.2.1, all.2.2.1, all.2.2.2⟩,
      fun tabled => ⟨tabled.starts, tabled.onward, tabled.bodies, tabled.leads⟩⟩

theorem Tabled.live (tabled : arena.Tabled) (inside : root.index < arena.layouts.size) :
    arena.Live root := by
  intro id state reaches
  suffices member : (id, state) ∈ arena.table from leadsTo_of_leadsWithin (tabled.leads _ member)
  induction reaches with
  | start => exact tabled.starts root.index inside
  | onward _ member ih => exact tabled.onward _ ih _ member
  | within _ member ih => exact tabled.starts _ (tabled.bodies _ ih _ member _ rfl)

section

variable (charts : arena.Charts plot proper) (inside : root.index < arena.layouts.size)
include charts inside

theorem Reaches.owns (reaches : arena.Reaches root id state) : arena.Owns plot id state := by
  induction reaches with
  | start => exact charts.owns_start inside
  | onward _ member ih => exact charts.owns_target ih member
  | within _ member ih => exact charts.owns_start (charts.repeats ih member).inside

theorem Live.path (live : arena.Live root) (reaches : arena.Reaches root id state) :
    ∃ tokens, arena.Path state tokens (arena.stop id) := by
  generalize isHeight : arena.layouts.size - id.index = height
  induction height using Nat.strongRecOn generalizing id state with
  | ind height ih =>
    have leads := live id state reaches
    induction leads using Relation.ReflTransGen.head_induction_on with
    | refl => exact ⟨[], .nil _⟩
    | head edge _ onward =>
      rcases edge with ⟨⟨label, _⟩, member, rfl⟩
      rcases onward (reaches.onward member) with ⟨rest, path⟩
      cases label with
      | token => exact ⟨_, .token member path⟩
      | rep body count =>
        have repeated := charts.repeats (reaches.owns charts inside) member
        have inhabited : arena.Inhabited body := by
          refine ih _ ?_ (.within reaches member) rfl
          have deeper := repeated.deeper
          have bodyInside := repeated.inside
          omega
        rcases path_past member (.inr inhabited) with ⟨_, past⟩
        exact ⟨_, past.append path⟩

end

end Arena

namespace Position

variable {position next : Position} {token : Token} {loops : List Loop}

def Lively (arena : Arena) (root : LayoutId) : List Loop → Prop
  | [] => True
  | loop :: outer =>
    arena.Reaches root loop.body (arena.start loop.body) ∧
      arena.Reaches root (innermost root outer) loop.exit ∧ Lively arena root outer

structure Alive (arena : Arena) (root : LayoutId) (position : Position) : Prop where
  live : arena.Live root
  reaches : arena.Reaches root (innermost root position.loops) position.state
  lively : Lively arena root position.loops

theorem alive_root (live : arena.Live root) : Alive arena root (.root arena root) :=
  ⟨live, .start, trivial⟩

theorem Move.alive (move : Move arena position next) (alive : Alive arena root position) :
    Alive arena root next := by
  rcases alive with ⟨live, reaches, lively⟩
  cases move with
  | again => exact ⟨live, lively.1, lively⟩
  | leave => exact ⟨live, lively.2.1, lively.2.2⟩
  | first edge =>
    have inBody := Arena.Reaches.within reaches edge
    exact ⟨live, inBody, inBody, reaches.onward edge, lively⟩
  | skip edge => exact ⟨live, reaches.onward edge, lively⟩

theorem Own.alive (own : Own arena position token next) (alive : Alive arena root position) :
    Alive arena root next := by
  cases own with
  | intro edge => exact ⟨alive.live, alive.reaches.onward edge, alive.lively⟩

theorem Moves.alive (moves : Moves arena position next) (alive : Alive arena root position) :
    Alive arena root next := by
  induction moves with
  | refl => exact alive
  | tail _ move ih => exact move.alive ih

theorem Reads.alive (reads : Reads arena position token next) (alive : Alive arena root position) :
    Alive arena root next := by
  rcases reads with ⟨_, moves, own⟩
  exact own.alive (Moves.alive moves alive)

theorem root_lt (nest : Nest arena plot root loops) : root.index < arena.layouts.size := by
  induction loops with
  | nil => exact nest
  | cons _ _ ih => exact ih nest.2

theorem Alive.finishes (charts : arena.Charts plot proper)
    (within : position.Within arena plot root) (alive : Alive arena root position) :
    Finishes arena position := by
  rw [finishes_iff_passes charts within]
  rcases position with ⟨state, loops⟩
  rcases alive with ⟨live, reaches, lively⟩
  induction loops generalizing state with
  | nil => exact live.path charts within.nest reaches
  | cons _ _ ih =>
    have repeated := loop_repeats charts within.nest.1
    have inside := root_lt within.nest
    refine ⟨live.path charts inside reaches, .inr (live.path charts inside lively.1), ?_⟩
    exact ih _ ⟨repeated.owns, within.nest.2⟩ lively.2.1 lively.2.2

end Position

end Recast
