import Recast.ByteSet.Runs
import Recast.Shape

/-!
# Tokens

What can be read at one place of a value: the contents of one byte, a whole reference, or the
marker at the start of a region under safety invariants. Tokens are the letters of the automata
that layouts are.
-/

namespace Recast

structure StateId where
  index : Nat
deriving DecidableEq, Repr

def StateId.text (id : StateId) : String :=
  "S_" ++ id.index.repr

instance : Inhabited StateId where
  default := ⟨0⟩

structure LayoutId where
  index : Nat
deriving DecidableEq, Repr

def LayoutId.text (id : LayoutId) : String :=
  "L_" ++ id.index.repr

instance : Inhabited LayoutId where
  default := ⟨0⟩

/-- What one byte of memory may hold. -/
inductive Cell where
  | uninit
  | init (values : ByteSet)
deriving DecidableEq

namespace Cell

def any : Cell :=
  .init .full

def accepted : Cell → ByteSet
  | uninit => .full
  | init values => values

def text : Cell → String
  | uninit => "??u8"
  | init values => values.text ++ "u8"

end Cell

structure Reference extends Guarantee where
  referent : LayoutId
  width : Nat
deriving DecidableEq

def Reference.text (reference : Reference) : String :=
  let sigil := match reference.access with
    | .shared => "&"
    | .exclusive => "&mut "
  s!"{sigil}{reference.lifetime.text} {reference.referent.text} (align {reference.align})"

/-- What can be read at one place of a value. -/
inductive Token where
  | cell (contents : Cell)
  | reference (target : Reference)
  | marker (name : String)
deriving DecidableEq

namespace Token

def width : Token → Nat
  | .cell _ => 1
  | .reference target => target.width
  | .marker _ => 0

def text : Token → String
  | .cell contents => contents.text
  | .reference target => target.text
  | .marker name => "unsafe " ++ name

end Token

end Recast
