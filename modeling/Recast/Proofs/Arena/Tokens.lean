import Recast.Proofs.Arena.Fragments
import Recast.Proofs.Pattern.Sized

/-!
# Tokens on edges

The edges of a compiled pattern read tokens of the pattern only, be it that they leave a state that
no layout uses any more. So a condition on the tokens of all edges of an arena is kept by
definitions from patterns whose tokens meet it (`Arena.Bears.define`).
-/

namespace Recast

variable {holds : Token → Prop}

def Edge.Bears (holds : Token → Prop) (edge : Edge) : Prop :=
  ∀ token, edge.label = .token token → holds token

theorem Layout.each_reservedStates {meets : Edge → Prop} :
    ∀ state ∈ reservedStates, ∀ edge ∈ state.edges, meets edge := by
  simp [reservedStates]

namespace Pattern

open Fragment

mutual

theorem bears_compile : (pattern : Pattern) → (site : Site) → {fragment : Fragment} →
    pattern.Leaves holds → pattern.compile site = .ok fragment → fragment.Each (Edge.Bears holds)
  | leaf token, site, fragment, leaves, compiled => by
    simp only [compile, Except.ok.injEq] at compiled
    rw [← compiled]
    refine each_edge fun _ isToken => ?_
    simp only [Label.token.injEq] at isToken
    exact isToken ▸ leaves
  | seq parts, site, fragment, leaves, compiled => by
    simp only [Leaves] at leaves
    simp only [compile] at compiled
    exact bears_compileSeq parts site leaves compiled
  | alt options, site, fragment, leaves, compiled => by
    simp only [Leaves] at leaves
    rcases compile_alt_eq_ok compiled with ⟨_, ⟨_, rfl⟩ | ⟨_, rfl⟩⟩ | ⟨_, _, isOthers, rfl⟩
    · exact each_nothing
    · exact each_deadEnd
    · exact (bears_compileAlt options _ _ leaves isOthers).choice
  | rep body count, site, fragment, leaves, compiled => by
    simp only [Leaves] at leaves
    rcases compile_rep_eq_ok compiled with ⟨_, isInner, rfl⟩
    exact (bears_compile body site.body leaves isInner).repeated fun _ isToken => by simp at isToken

theorem bears_compileSeq : (parts : List Pattern) → (site : Site) → {fragment : Fragment} →
    LeavesOfAll holds parts → compileSeq parts site = .ok fragment →
    fragment.Each (Edge.Bears holds)
  | [], site, fragment, _, compiled => by
    simp only [compileSeq, Except.ok.injEq] at compiled
    rw [← compiled]
    exact each_nothing
  | part :: rest, site, fragment, leaves, compiled => by
    simp only [LeavesOfAll] at leaves
    rcases compileSeq_cons_eq_ok compiled with ⟨_, _, isFirst, isSecond, rfl⟩
    exact (bears_compile part site leaves.1 isFirst).followedBy
      (bears_compileSeq rest _ leaves.2 isSecond)

theorem bears_compileAlt : (options : List Pattern) → (site : Site) → (stop : StateId) →
    {fragment : Fragment} → LeavesOfAll holds options →
    compileAlt options site stop = .ok fragment → fragment.Each (Edge.Bears holds)
  | [], site, stop, fragment, _, compiled => by
    simp only [compileAlt, Except.ok.injEq] at compiled
    rw [← compiled]
    exact ⟨by simp, by simp⟩
  | option :: rest, site, stop, fragment, leaves, compiled => by
    simp only [LeavesOfAll] at leaves
    rcases compileAlt_cons_eq_ok compiled with ⟨_, _, isFirst, _, isOthers, rfl⟩
    have bears := bears_compile option site leaves.1 isFirst
    exact (bears.retarget (fun _ holds => holds) fun _ holds => holds).beside
      (bears_compileAlt rest _ _ leaves.2 isOthers)

end

end Pattern

namespace Arena

variable {arena larger : Arena}

def Bears (holds : Token → Prop) (arena : Arena) : Prop :=
  ∀ state ∈ arena.states, ∀ edge ∈ state.edges, edge.Bears holds

theorem bears_empty : Bears holds {} := by
  simp [Bears]

theorem Bears.mono {weaker : Token → Prop} (imp : ∀ token, holds token → weaker token)
    (bears : arena.Bears holds) : arena.Bears weaker :=
  fun state isState edge member token isToken =>
    imp token (bears state isState edge member token isToken)

section

variable (bears : arena.Bears holds)
include bears

theorem Bears.token {id : StateId} {edge : Edge} {token : Token} (member : edge ∈ arena.edges id)
    (isToken : edge.label = .token token) : holds token := by
  simp only [edges, Arena.state] at member
  rcases found : arena.states[id.index]? with _ | state <;> rw [found] at member
  · cases member
  · exact bears state (Array.mem_of_getElem? found) edge member token isToken

theorem Bears.append {more : Array State}
    (each : ∀ state ∈ more, ∀ edge ∈ state.edges, edge.Bears holds)
    (isStates : larger.states = arena.states ++ more) : larger.Bears holds := by
  intro state member
  rw [isStates] at member
  rcases Array.mem_append.mp member with old | new
  · exact bears state old
  · exact each state new

theorem Bears.reserve : arena.reserve.2.Bears holds :=
  bears.append Layout.each_reservedStates rfl

theorem Bears.define {id : LayoutId} {pattern : Pattern} (leaves : pattern.Leaves holds)
    (defined : arena.define id pattern = .ok larger) :
    larger.Bears holds := by
  rcases define_eq_ok defined with ⟨_, compiled, isStates, _⟩
  exact bears.append (Pattern.bears_compile pattern _ leaves compiled).close isStates

end

end Arena

end Recast
