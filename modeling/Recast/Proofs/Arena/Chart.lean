import Recast.Arena
import Recast.Proofs.Pattern.Sized

/-!
# Charts of arenas

Each state of an arena that matters belongs to one layout. A `Plot` says to which. An edge is
allowed if it stays in its layout, if what it reads accounts for the difference of the offsets, and
if a repeat is of a layout with a higher number, with a body that has bytes. Only a layout without a
fixed size may repeat an open number of times, at its very end. States that no layout uses any more
have no owner.
-/

namespace Recast

abbrev Plot : Type :=
  StateId → Option LayoutId

namespace Arena

def Sized (arena : Arena) (id : LayoutId) : Prop :=
  ∃ size, (arena.layout id).size = some size

def bytes (arena : Arena) (id : LayoutId) : Nat :=
  (arena.layout id).size.getD 0

def offset (arena : Arena) (state : StateId) : Nat :=
  (arena.state state).offset

/-- The state is one of the arena's, and belongs to the layout. -/
structure Owns (arena : Arena) (plot : Plot) (id : LayoutId) (state : StateId) : Prop where
  inside : state.index < arena.states.size
  owner : plot state = some id

/-- What holds of every repeat in a layout: what it repeats, and where it leads. -/
structure Repeats (arena : Arena) (plot : Plot) (id body : LayoutId) (exit : StateId) : Prop where
  inside : body.index < arena.layouts.size
  deeper : id.index < body.index
  owns : arena.Owns plot id exit
  notStart : exit ≠ arena.start id
  sized : ∃ unit, (arena.layout body).size = some unit ∧ unit ≠ 0
  pads : (arena.layout id).padding → (arena.layout body).padding

def advance (arena : Arena) : Label → Nat
  | .token token => token.width
  | .rep body count => arena.bytes body * count.least

/-- The target lies so many bytes behind a given offset, in a layout of a fixed size without being
held at the cap. -/
structure Advances (arena : Arena) (id : LayoutId) (offset width : Nat) (target : StateId) : Prop
    where
  reached : arena.offset target = Extent.satAdd offset width
  exact : ∀ size, (arena.layout id).size = some size →
    arena.offset target = offset + width ∧ offset + width ≤ size

/-- How often a body may be repeated: several times, or an open number of times at the end of a
layout without a fixed size. -/
def Rounds (arena : Arena) (id : LayoutId) (exit : StateId) : Count → Prop
  | .exact number => 2 ≤ number
  | .atLeast _ => (arena.layout id).size = none ∧ exit = arena.stop id

/-- What an edge from a given offset of a layout may be, where tokens must meet a condition. In a
layout of padding it reads padding. -/
inductive Allows (arena : Arena) (plot : Plot) (proper : Token → Prop) (id : LayoutId)
    (offset : Nat) :
    Edge → Prop
  | token {token : Token} {target : StateId} (isProper : proper token)
      (pads : (arena.layout id).padding → token = .cell .uninit)
      (owns : arena.Owns plot id target) (notStart : target ≠ arena.start id)
      (advances : arena.Advances id offset token.width target) :
      Allows arena plot proper id offset ⟨.token token, target⟩
  | rep {body : LayoutId} {count : Count} {exit : StateId}
      (repeats : arena.Repeats plot id body exit) (rounds : arena.Rounds id exit count)
      (advances : arena.Advances id offset (arena.advance (.rep body count)) exit) :
      Allows arena plot proper id offset ⟨.rep body count, exit⟩

/-- A state of a layout. The end of the layout, and no other state of it, is accepting, and nothing
leads on from there. In a layout of padding, every other state leads on. -/
structure Describes (arena : Arena) (plot : Plot) (proper : Token → Prop) (id : LayoutId)
    (state : StateId) :
    Prop where
  edges : ∀ edge ∈ arena.edges state, arena.Allows plot proper id (arena.offset state) edge
  accepting : (arena.state state).accepting ↔ state = arena.stop id
  stop : state = arena.stop id → arena.edges state = []
  onward : (arena.layout id).padding → state ≠ arena.stop id → arena.edges state ≠ []

/-- The ends of a layout belong to it, and lie as far apart as its size says. -/
structure Settles (arena : Arena) (plot : Plot) (id : LayoutId) : Prop where
  start : arena.Owns plot id (arena.start id)
  stop : arena.Owns plot id (arena.stop id)
  zero : arena.offset (arena.start id) = 0
  size : ∀ size, (arena.layout id).size = some size → arena.offset (arena.stop id) = size

structure Charts (arena : Arena) (plot : Plot) (proper : Token → Prop) : Prop where
  owner : ∀ {id state}, arena.Owns plot id state → id.index < arena.layouts.size
  state : ∀ {id state}, arena.Owns plot id state → arena.Describes plot proper id state
  layout : ∀ {id : LayoutId}, id.index < arena.layouts.size → arena.Settles plot id

/-- The plot describes the arena, whose tokens are proper among its own layouts. -/
abbrev Plotted (arena : Arena) (plot : Plot) : Prop :=
  arena.Charts plot (Token.Proper arena.layouts.size)

section Allows

variable {arena : Arena} {plot : Plot} {proper weaker : Token → Prop} {id : LayoutId} {offset : Nat}
  {edge : Edge}

theorem Allows.owns (allowed : arena.Allows plot proper id offset edge) :
    arena.Owns plot id edge.target := by
  cases allowed with
  | token _ _ owns => exact owns
  | rep repeats => exact repeats.owns

theorem Allows.advances (allowed : arena.Allows plot proper id offset edge) :
    arena.Advances id offset (arena.advance edge.label) edge.target := by
  cases allowed with
  | token _ _ _ _ advances | rep _ _ advances => exact advances

theorem Allows.mono (imp : ∀ token, edge.label = .token token → proper token → weaker token)
    (allowed : arena.Allows plot proper id offset edge) :
    arena.Allows plot weaker id offset edge := by
  cases allowed with
  | token isProper pads owns notStart advances =>
    exact .token (imp _ rfl isProper) pads owns notStart advances
  | rep repeats rounds advances => exact .rep repeats rounds advances

theorem Charts.mono (imp : ∀ token, proper token → weaker token)
    (charts : arena.Charts plot proper) :
    arena.Charts plot weaker where
  owner := charts.owner
  state owns :=
    have described := charts.state owns
    { described with
      edges := fun edge member => (described.edges edge member).mono fun token _ => imp token }
  layout := charts.layout

theorem charts_empty (plot : Plot) (proper : Token → Prop) : Charts {} plot proper where
  owner owns := absurd owns.inside (Nat.not_lt_zero _)
  state owns := absurd owns.inside (Nat.not_lt_zero _)
  layout inside := absurd inside (Nat.not_lt_zero _)

end Allows

end Arena

end Recast
