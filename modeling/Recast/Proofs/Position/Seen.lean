import Recast.Position.Padding
import Recast.Proofs.Position.Trace

/-!
# Tokens that can be met

Which tokens can be read from a position, now or later, and can the value be brought to an end? Both
are answered state by state and loop by loop (`Position.Sees`, `Position.Passes`). In this form they
depend on a loop only through whether it may go on and whether it may stop. So nothing is lost when
counts are blurred.
-/

namespace Recast

open Arena

variable {arena : Arena} {state target : StateId} {token : Token} {tokens : List Token}
  {count : Count}

namespace Count

/-- As much of a count as tells whether there may, or must, be another round. -/
def blur : Count → Count
  | .exact number => .exact (min number 1)
  | .atLeast number => .atLeast (min number 1)

@[simp]
theorem mayContinue_blur (count : Count) : count.blur.mayContinue = count.mayContinue := by
  cases count with
  | exact number =>
    simp only [blur, mayContinue, decide_eq_decide]
    omega
  | atLeast => rfl

@[simp]
theorem mayStop_blur (count : Count) : count.blur.mayStop = count.mayStop := by
  rw [Bool.eq_iff_iff, mayStop_iff, mayStop_iff]
  cases count <;>
  · simp only [blur, least]
    omega

@[simp]
theorem blur_blur (count : Count) : count.blur.blur = count.blur := by
  cases count <;>
  · simp only [blur]
    congr 1
    omega

theorem Follows.blur {toCome : Count} (follows : count.Follows toCome) :
    count.Follows toCome.blur := by
  rcases follows with ⟨rounds, rfl⟩
  cases count with
  | exact number =>
    refine ⟨max rounds (number - 2), congrArg Count.exact ?_⟩
    omega
  | atLeast number =>
    refine ⟨max rounds (number - 2), congrArg Count.atLeast ?_⟩
    omega

theorem admits_least : count.Admits count.least := by
  cases count <;> simp [Admits, least]

end Count

def Loop.blur (loop : Loop) : Loop :=
  { loop with toCome := loop.toCome.blur }

@[simp]
theorem Loop.blur_blur (loop : Loop) : loop.blur.blur = loop.blur := by
  simp [Loop.blur]

namespace Arena

variable {exit : StateId} {body : LayoutId}

def Inhabited (arena : Arena) (id : LayoutId) : Prop :=
  ∃ tokens, arena.Walk id tokens

theorem passes_iff : (count.mayStop ∨ arena.Inhabited body) ↔
    ∃ rounds : List (List Token), count.Admits rounds.length ∧
      ∀ round ∈ rounds, arena.Walk body round := by
  constructor
  · rintro (stops | ⟨walk, isWalk⟩)
    · exact ⟨[], Count.admits_zero.mpr stops, by simp⟩
    · refine ⟨List.replicate count.least walk, ?_, ?_⟩
      · simpa using Count.admits_least
      · intro _ member
        exact List.eq_of_mem_replicate member ▸ isWalk
  · rintro ⟨_ | ⟨round, _⟩, admitted, each⟩
    · exact .inl (Count.admits_zero.mp admitted)
    · exact .inr ⟨round, each round List.mem_cons_self⟩

/-- The token can be met on a way from the state, without leaving the layout that it belongs to. -/
inductive Sees (arena : Arena) (token : Token) : StateId → Prop
  | here {state target : StateId} (edge : ⟨.token token, target⟩ ∈ arena.edges state) :
      Sees arena token state
  | later {state target : StateId} {letter : Token}
      (edge : ⟨.token letter, target⟩ ∈ arena.edges state) (onward : Sees arena token target) :
      Sees arena token state
  | within {state exit : StateId} {body : LayoutId} {count : Count}
      (edge : ⟨.rep body count, exit⟩ ∈ arena.edges state) (continues : count.mayContinue)
      (onward : Sees arena token (arena.start body)) : Sees arena token state
  | past {state exit : StateId} {body : LayoutId} {count : Count}
      (edge : ⟨.rep body count, exit⟩ ∈ arena.edges state)
      (passes : count.mayStop ∨ arena.Inhabited body) (onward : Sees arena token exit) :
      Sees arena token state

theorem path_past (edge : ⟨.rep body count, exit⟩ ∈ arena.edges state)
    (passes : count.mayStop ∨ arena.Inhabited body) :
    ∃ tokens, arena.Path state tokens exit := by
  rcases passes_iff.mp passes with ⟨_, admitted, each⟩
  exact ⟨_, .rep edge admitted each (.nil exit)⟩

theorem Sees.prepend (path : arena.Path state tokens target) (sees : arena.Sees token target) :
    arena.Sees token state := by
  induction path with
  | nil => exact sees
  | token edge _ ih => exact .later edge (ih sees)
  | @rep _ _ _ _ _ rounds _ edge admitted each _ _ ih =>
    exact .past edge (passes_iff.mpr ⟨rounds, admitted, each⟩) (ih sees)

end Arena

namespace Position

variable {plot : Plot} {proper : Token → Prop} {root : LayoutId} {position next last : Position}
  {letter : Token} {loops : List Loop}

theorem loops_blur : position.blur.loops = position.loops.map Loop.blur := by
  simp only [blur, List.map_inj_left]
  rintro ⟨_, _, _ | _⟩ _ <;> rfl

theorem blur_eq : position.blur = ⟨position.state, position.loops.map Loop.blur⟩ :=
  congrArg (Position.mk position.state) loops_blur

@[simp]
theorem blur_blur : position.blur.blur = position.blur := by
  simp [blur_eq]

theorem innermost_blur : innermost root (loops.map Loop.blur) = innermost root loops := by
  cases loops <;> rfl

theorem nest_blur (nest : Nest arena plot root loops) :
    Nest arena plot root (loops.map Loop.blur) := by
  induction loops with
  | nil => exact nest
  | cons _ _ ih =>
    rcases nest with ⟨⟨source, count, _, edge, follows⟩, nest⟩
    refine ⟨⟨source, count, ?_, edge, follows.blur⟩, ih nest⟩
    rwa [innermost_blur]

theorem Within.blur (within : position.Within arena plot root) :
    position.blur.Within arena plot root := by
  rw [blur_eq]
  refine ⟨?_, nest_blur within.nest⟩
  rw [innermost_blur]
  exact within.owns

def Meets (arena : Arena) (position : Position) (token : Token) : Prop :=
  ∃ tokens middle next, Steps arena position tokens middle ∧ Own arena middle token next

theorem Meets.of_move (move : Move arena position next) (meets : Meets arena next token) :
    Meets arena position token := by
  rcases meets with ⟨tokens, middle, last, steps, own⟩
  exact ⟨tokens, middle, last, .move move steps, own⟩

theorem Meets.of_steps (steps : Steps arena position tokens next)
    (meets : Meets arena next token) : Meets arena position token := by
  rcases meets with ⟨_, middle, last, onward, own⟩
  exact ⟨_, middle, last, steps.trans onward, own⟩

theorem meets_iff_reads : Meets arena position token ↔
    ∃ letter next, Reads arena position letter next ∧
      (letter = token ∨ Meets arena next token) := by
  constructor
  · rintro ⟨_, _, last, steps, own⟩
    induction steps with
    | refl => exact ⟨token, last, ⟨_, .refl, own⟩, .inl rfl⟩
    | move move _ ih =>
      rcases ih own with ⟨letter, next, reads, onward⟩
      exact ⟨letter, next, .of_moves (.single move) reads, onward⟩
    | own first onward => exact ⟨_, _, ⟨_, .refl, first⟩, .inr ⟨_, _, _, onward, own⟩⟩
  · rintro ⟨_, next, ⟨middle, moves, own⟩, rfl | meets⟩
    · exact ⟨[], middle, next, .of_moves moves (.refl middle), own⟩
    · exact meets.of_steps (.of_moves moves (.own own (.refl next)))

def SeesFrom (arena : Arena) (token : Token) : List Loop → StateId → Prop
  | [], state => arena.Sees token state
  | loop :: outer, state =>
    arena.Sees token state ∨
      (∃ tokens, arena.Path state tokens (arena.stop loop.body)) ∧
        (loop.toCome.mayContinue ∧ arena.Sees token (arena.start loop.body) ∨
          (loop.toCome.mayStop ∨ arena.Inhabited loop.body) ∧ SeesFrom arena token outer loop.exit)

def Passes (arena : Arena) (root : LayoutId) : List Loop → StateId → Prop
  | [], state => ∃ tokens, arena.Path state tokens (arena.stop root)
  | loop :: outer, state =>
    (∃ tokens, arena.Path state tokens (arena.stop loop.body)) ∧
      (loop.toCome.mayStop ∨ arena.Inhabited loop.body) ∧ Passes arena root outer loop.exit

theorem seesFrom_blur : SeesFrom arena token (loops.map Loop.blur) state ↔
    SeesFrom arena token loops state := by
  induction loops generalizing state with
  | nil => rfl
  | cons _ _ ih =>
    simp only [List.map_cons, SeesFrom, ih, Loop.blur, Count.mayContinue_blur, Count.mayStop_blur]

theorem passes_blur :
    Passes arena root (loops.map Loop.blur) state ↔ Passes arena root loops state := by
  induction loops generalizing state with
  | nil => rfl
  | cons _ _ ih =>
    simp only [List.map_cons, Passes, ih, Loop.blur, Count.mayStop_blur]

theorem SeesFrom.of_sees (sees : arena.Sees token state) : SeesFrom arena token loops state := by
  cases loops with
  | nil => exact sees
  | cons => exact .inl sees

theorem SeesFrom.prepend (path : arena.Path state tokens target)
    (sees : SeesFrom arena token loops target) : SeesFrom arena token loops state := by
  cases loops with
  | nil => exact Sees.prepend path sees
  | cons =>
    rcases sees with sees | ⟨⟨_, onward⟩, rest⟩
    · exact .inl (sees.prepend path)
    · exact .inr ⟨⟨_, path.append onward⟩, rest⟩

theorem SeesFrom.of_move (move : Move arena position next)
    (sees : SeesFrom arena token next.loops next.state) :
    SeesFrom arena token position.loops position.state := by
  cases move with
  | again continues =>
    refine .inr ⟨⟨[], .nil _⟩, ?_⟩
    rcases sees with sees | ⟨walk, ⟨_, sees⟩ | ⟨_, sees⟩⟩
    · exact .inl ⟨continues, sees⟩
    · exact .inl ⟨continues, sees⟩
    · exact .inr ⟨.inr walk, sees⟩
  | leave stops => exact .inr ⟨⟨[], .nil _⟩, .inr ⟨.inl stops, sees⟩⟩
  | first edge continues =>
    rcases sees with sees | ⟨walk, ⟨_, sees⟩ | ⟨_, sees⟩⟩
    · exact .of_sees (.within edge continues sees)
    · exact .of_sees (.within edge continues sees)
    · rcases path_past edge (.inr walk) with ⟨_, path⟩
      exact .prepend path sees
  | skip edge stops =>
    rcases path_past edge (.inl stops) with ⟨_, path⟩
    exact .prepend path sees

theorem Meets.of_sees (sees : arena.Sees token state) (loops : List Loop) :
    Meets arena ⟨state, loops⟩ token := by
  induction sees generalizing loops with
  | here edge => exact ⟨[], _, _, .refl _, .intro edge⟩
  | later edge _ ih => exact (ih loops).of_steps (.own (.intro edge) (.refl _))
  | within edge continues _ ih => exact (ih _).of_move (.first edge continues)
  | past edge passes _ ih =>
    rcases path_past edge passes with ⟨_, path⟩
    exact (ih loops).of_steps (.of_path path loops)

theorem meets_iff_seesFrom :
    Meets arena position token ↔ SeesFrom arena token position.loops position.state := by
  constructor
  · rintro ⟨tokens, middle, last, steps, own⟩
    induction steps with
    | refl =>
      cases own with
      | intro edge => exact .of_sees (.here edge)
    | move move _ ih => exact .of_move move (ih own)
    | own first _ ih =>
      cases first with
      | intro edge => exact .prepend (.token edge (.nil _)) (ih own)
  · rcases position with ⟨state, loops⟩
    induction loops generalizing state with
    | nil => exact fun sees => .of_sees sees []
    | cons loop outer ih =>
      rintro (sees | ⟨⟨tokens, path⟩, ⟨continues, sees⟩ | ⟨passes, sees⟩⟩)
      · exact .of_sees sees _
      · refine Meets.of_steps (.of_path path _) (.of_move (.again continues) ?_)
        exact .of_sees sees _
      · rcases passes_iff.mp passes with ⟨rounds, admitted, each⟩
        refine Meets.of_steps (.of_path path _) (.of_steps (.of_rounds admitted ?_) (ih _ sees))
        exact fun round member loops => .of_path (each round member) loops

theorem passes_iff_spells :
    Passes arena root position.loops position.state ↔
    ∃ tokens, position.Spells arena root tokens := by
  rcases position with ⟨state, loops⟩
  induction loops generalizing state with
  | nil => rfl
  | cons loop _ ih =>
    simp only [Passes, Spells, Spelled]
    constructor
    · rintro ⟨⟨present, path⟩, passes, outside⟩
      rcases (ih loop.exit).mp outside with ⟨rest, spelled⟩
      rcases passes_iff.mp passes with ⟨rounds, admitted, each⟩
      exact ⟨_, present, rounds, rest, rfl, path, admitted, each, spelled⟩
    · rintro ⟨_, present, rounds, rest, rfl, path, admitted, each, spelled⟩
      exact ⟨⟨present, path⟩, passes_iff.mpr ⟨rounds, admitted, each⟩,
        (ih loop.exit).mpr ⟨rest, spelled⟩⟩

theorem meets_blur : Meets arena position.blur token ↔ Meets arena position token := by
  rw [meets_iff_seesFrom, meets_iff_seesFrom, loops_blur, seesFrom_blur]
  rfl

def Finishes (arena : Arena) (position : Position) : Prop :=
  ∃ tokens, Trace arena position tokens

section

variable (charts : arena.Charts plot proper) (within : position.Within arena plot root)
include charts within

theorem finishes_iff_passes :
    Finishes arena position ↔ Passes arena root position.loops position.state := by
  rw [passes_iff_spells]
  exact exists_congr fun _ => (spells_iff charts within).symm

theorem finishes_blur : Finishes arena position.blur ↔ Finishes arena position := by
  rw [finishes_iff_passes charts within, finishes_iff_passes charts within.blur, loops_blur,
    passes_blur]
  rfl

end

theorem Finishes.of_steps (steps : Steps arena position tokens next)
    (finishes : Finishes arena next) : Finishes arena position := by
  rcases finishes with ⟨_, trace⟩
  exact ⟨_, .of_steps steps trace⟩

end Position

end Recast
