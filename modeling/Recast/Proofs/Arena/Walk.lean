import Mathlib.Data.List.Forall2
import Recast.Arena

/-!
# Walks

The values of a layout, seen from outside: the ways from its start to its end over the edges of the
arena, where an edge labelled with a layout is replaced by as many walks of that layout, one after
the other, as the count allows. Nothing here looks at how positions are unrolled.
-/

namespace Recast

/-- The count allows for so many rounds. -/
def Count.Admits : Count → Nat → Prop
  | .exact number, rounds => rounds = number
  | .atLeast number, rounds => number ≤ rounds

theorem Count.admits_zero {count : Count} : count.Admits 0 ↔ count.mayStop := by
  rw [mayStop, decide_eq_true_eq]
  cases count with
  | exact => exact eq_comm
  | atLeast => exact Nat.le_zero

/-- What a token stands for in one value. -/
inductive Letter where
  | byte (value : UInt8)
  | uninit
  | reference (target : Reference)
  | marker (name : String)
deriving DecidableEq

def Letter.width : Letter → Nat
  | .byte _ => 1
  | .uninit => 1
  | .reference target => target.width
  | .marker _ => 0

/-- The token stands for the letter. -/
inductive Token.Holds : Token → Letter → Prop
  | byte {values : ByteSet} {value : UInt8} (member : value ∈ values) :
      Token.Holds (.cell (.init values)) (.byte value)
  | uninit : Token.Holds (.cell .uninit) .uninit
  | reference (target : Reference) : Token.Holds (.reference target) (.reference target)
  | marker (name : String) : Token.Holds (.marker name) (.marker name)

theorem Token.Holds.width_eq {token : Token} {letter : Letter} (holds : token.Holds letter) :
    letter.width = token.width := by
  cases holds <;> rfl

namespace Arena

variable {arena : Arena}

/-- The tokens on a way from one state to another, with all repeats unrolled. -/
inductive Path (arena : Arena) : StateId → List Token → StateId → Prop
  | nil (state : StateId) : Path arena state [] state
  | token {source middle target : StateId} {token : Token} {rest : List Token}
      (edge : ⟨.token token, middle⟩ ∈ arena.edges source)
        (onward : Path arena middle rest target) :
      Path arena source (token :: rest) target
  | rep {source exit target : StateId} {body : LayoutId} {count : Count}
      {rounds : List (List Token)} {rest : List Token}
      (edge : ⟨.rep body count, exit⟩ ∈ arena.edges source)
      (admitted : count.Admits rounds.length)
      (each : ∀ round ∈ rounds, Path arena (arena.start body) round (arena.stop body))
      (onward : Path arena exit rest target) :
      Path arena source (rounds.flatten ++ rest) target

/-- The tokens on a way through the layout. -/
def Walk (arena : Arena) (id : LayoutId) (tokens : List Token) : Prop :=
  arena.Path (arena.start id) tokens (arena.stop id)

/-- The letters that a walk stands for. -/
def Value (arena : Arena) (id : LayoutId) (letters : List Letter) : Prop :=
  ∃ tokens, arena.Walk id tokens ∧ List.Forall₂ Token.Holds tokens letters

theorem Path.append {source middle target : StateId} {first second : List Token}
    (front : arena.Path source first middle) (back : arena.Path middle second target) :
    arena.Path source (first ++ second) target := by
  induction front with
  | nil => exact back
  | token edge _ ih => exact .token edge (ih back)
  | rep edge admitted each _ _ ih =>
    rw [List.append_assoc]
    exact .rep edge admitted each (ih back)

end Arena

end Recast
