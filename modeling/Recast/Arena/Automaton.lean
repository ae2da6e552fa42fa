import Recast.Arena

/-!
# From patterns to automata

A pattern becomes the states and layouts that an arena is to be extended by. Numbers are given in
the order in which states are met: a token and a repeat end in a state of their own, a choice gets
its common end before its options, and a repeated body is a layout of its own, reserved and then
defined.

The arena itself is not looked at on the way: only the next free numbers are needed, and a
`Fragment` to be appended is the result. So nothing that the arena holds can change, except that the
state at which the pattern starts gains edges.

Numbers are given without limit here. Whether the arena has room for them is asked of the outcome
(`Assembly.bounded`).
-/

namespace Recast

structure Site where
  start : StateId
  offset : Nat
  nextState : Nat
  nextLayout : Nat

structure Fragment where
  leaving : List Edge := []
  states : Array State := #[]
  layouts : Array Layout := #[]
  stop : StateId

namespace Site

def fresh (site : Site) : StateId :=
  ⟨site.nextState⟩

def after (site : Site) (fragment : Fragment) (offset : Nat) : Site where
  start := fragment.stop
  offset := offset
  nextState := site.nextState + fragment.states.size
  nextLayout := site.nextLayout + fragment.layouts.size

/-- The same start for one more option, behind the states of an earlier one. -/
def beside (site : Site) (fragment : Fragment) : Site :=
  { site with
    nextState := site.nextState + fragment.states.size
    nextLayout := site.nextLayout + fragment.layouts.size }

/-- The site of the body of a repeat: a layout of its own, behind the two states of its
reservation and its own start. -/
def body (site : Site) : Site where
  start := ⟨site.nextState + 2⟩
  offset := 0
  nextState := site.nextState + 3
  nextLayout := site.nextLayout + 1

end Site

namespace Fragment

def nothing (site : Site) : Fragment where
  stop := site.start

def edge (site : Site) (label : Label) (offset : Nat) : Fragment where
  leaving := [⟨label, site.fresh⟩]
  states := #[{ offset := offset }]
  stop := site.fresh

def deadEnd (site : Site) : Fragment where
  states := #[{ offset := site.offset }]
  stop := site.fresh

def retargetEdges (source target : StateId) (edges : List Edge) : List Edge :=
  edges.map fun edge => if edge.target = source then { edge with target := target } else edge

def retarget (fragment : Fragment) (target : StateId) : Fragment :=
  { fragment with
    leaving := retargetEdges fragment.stop target fragment.leaving
    states := fragment.states.map fun state =>
      { state with edges := retargetEdges fragment.stop target state.edges }
    stop := target }

/-- Adds edges to the end of a fragment, which is its start or one of its own states. -/
def extendStop (fragment : Fragment) (site : Site) (edges : List Edge) : Fragment :=
  if fragment.stop = site.start then
    { fragment with leaving := fragment.leaving ++ edges }
  else
    { fragment with
      states := fragment.states.modify (fragment.stop.index - site.nextState) fun state =>
        { state with edges := state.edges ++ edges } }

def followedBy (fragment : Fragment) (site : Site) (second : Fragment) : Fragment :=
  let first := fragment.extendStop site second.leaving
  { leaving := first.leaving
    states := first.states ++ second.states
    layouts := first.layouts ++ second.layouts
    stop := second.stop }

def beside (first second : Fragment) : Fragment where
  leaving := first.leaving ++ second.leaving
  states := first.states ++ second.states
  layouts := first.layouts ++ second.layouts
  stop := second.stop

/-- The states of a whole layout: its start, whose edges are those leaving the fragment, and the
fragment's own, with the end marked as accepting. The site is the one the fragment was put at, its
start the state right before the fragment's own. -/
def close (fragment : Fragment) (site : Site) : Array State :=
  let start : State := { offset := site.offset, edges := fragment.leaving }
  (#[start] ++ fragment.states).modify (fragment.stop.index - site.start.index) fun state =>
    { state with accepting := true }

end Fragment

/-- The two states of a layout that is reserved and not yet defined: no value leads from the first
to the second. -/
def Layout.reservedStates : Array State :=
  #[{ offset := 0 }, { offset := 0, accepting := true }]

def Layout.reserved (nextState : Nat) : Layout where
  start := ⟨nextState⟩
  stop := ⟨nextState + 1⟩
  size := some 0
  guarded := false
  padding := false

namespace Pattern

def record (pattern : Pattern) (site : Site) (fragment : Fragment) : Layout where
  start := site.start
  stop := fragment.stop
  size := pattern.size
  guarded := pattern.hasMarker
  padding := pattern.isPadding

mutual

def compile : Pattern → Site → Except Defect Fragment
  | .leaf token, site =>
    .ok (.edge site (.token token) (Extent.satAdd site.offset token.width))
  | .seq parts, site => compileSeq parts site
  | .alt options, site =>
    match (Pattern.alt options).size.getD 0 with
    | 0 => .ok (if anyHasValue options then .nothing site else .deadEnd site)
    | size =>
      let stop := site.fresh
      match compileAlt options { site with nextState := site.nextState + 1 } stop with
      | .error defect => .error defect
      | .ok fragment =>
        .ok { fragment with
              states := #[{ offset := Extent.satAdd site.offset size }] ++ fragment.states }
  | .rep body count, site =>
    match body.compile site.body with
    | .error defect => .error defect
    | .ok fragment =>
      let states := Layout.reservedStates ++ fragment.close site.body
      let layouts := #[body.record site.body fragment] ++ fragment.layouts
      let offset := Extent.satAdd site.offset (Extent.satMul (body.size.getD 0) count.least)
      let exit := Fragment.edge { site with nextState := site.nextState + states.size }
        (.rep ⟨site.nextLayout⟩ count) offset
      .ok { exit with states := states ++ exit.states, layouts := layouts }

def compileSeq : List Pattern → Site → Except Defect Fragment
  | [], site => .ok (.nothing site)
  | part :: rest, site =>
    match part.compile site with
    | .error defect => .error defect
    | .ok first =>
      match compileSeq rest (site.after first (Extent.satAdd site.offset (part.size.getD 0))) with
      | .error defect => .error defect
      | .ok second => .ok (first.followedBy site second)

def compileAlt : List Pattern → Site → StateId → Except Defect Fragment
  | [], _, stop => .ok { stop := stop }
  | option :: rest, site, stop =>
    match option.compile site with
    | .error defect => .error defect
    | .ok first =>
      if first.stop = site.start then .error (.mismatchedAlternatives site.offset)
      else
        match compileAlt rest (site.beside first) stop with
        | .error defect => .error defect
        | .ok others => .ok ((first.retarget stop).beside others)

end

end Pattern

namespace Arena

def reserve (arena : Arena) : LayoutId × Arena :=
  (⟨arena.layouts.size⟩,
    { states := arena.states ++ Layout.reservedStates
      layouts := arena.layouts.push (.reserved arena.states.size) })

def define (arena : Arena) (id : LayoutId) (pattern : Pattern) : Except Defect Arena :=
  let site : Site :=
    { start := ⟨arena.states.size⟩
      offset := 0
      nextState := arena.states.size + 1
      nextLayout := arena.layouts.size }
  match pattern.compile site with
  | .error defect => .error defect
  | .ok fragment =>
    .ok
      { states := arena.states ++ fragment.close site
        layouts := arena.layouts.setIfInBounds id.index (pattern.record site fragment) ++
          fragment.layouts }

end Arena

end Recast
