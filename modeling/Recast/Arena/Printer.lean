import Recast.Arena

/-!
# The text of an arena

One line for each layout, then one line for each edge, in the order of their numbers.
-/

namespace Recast

open Text

def Layout.line (layout : Layout) (id : LayoutId) : String :=
  let size := match layout.size with
    | some size => s!", size {size}"
    | none => ", unsized"
  let guard := if layout.guarded then ", unsafe" else ""
  s!"{id.text}: {layout.start.text} -> {layout.stop.text}{size}{guard}\n"

def State.lines (state : State) (id : StateId) : String :=
  String.join <| state.edges.map fun edge =>
    s!"  {id.text} @{hex state.offset} --{edge.label.text}--> {edge.target.text}\n"

namespace Arena

def text (arena : Arena) : String :=
  let layouts := arena.layouts.toList.mapIdx fun index layout => layout.line ⟨index⟩
  let states := arena.states.toList.mapIdx fun index state => state.lines ⟨index⟩
  String.join (layouts ++ states)

end Arena

end Recast
