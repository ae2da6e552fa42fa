import Recast.Token

/-!
# Patterns

A pattern describes the values of a shape as sequences and alternatives of tokens. It is what a
shape is turned into before it becomes an automaton. Sequences are kept flat: a sequence in a
sequence is merged with it.
-/

namespace Recast

/-- Values as sequences and alternatives of tokens. -/
inductive Pattern where
  | leaf (token : Token)
  | seq (parts : List Pattern)
  | alt (options : List Pattern)
  | rep (body : Pattern) (count : Count)

namespace Pattern

instance : Inhabited Pattern where
  default := .seq []

def unit : Pattern := .seq []

def never : Pattern := .alt []

def byte (cell : Cell) : Pattern := .leaf (.cell cell)

mutual

/-- The number of bytes of every value, held at the cap; none if values differ in length. -/
def size : Pattern → Option Nat
  | leaf token => some token.width
  | seq parts => sumOfSizes parts
  | alt options => largestSize options
  | rep body (.exact number) => body.size.map (Extent.satMul · number)
  | rep _ (.atLeast _) => none

def sumOfSizes : List Pattern → Option Nat
  | [] => some 0
  | part :: rest =>
    match part.size, sumOfSizes rest with
    | some first, some others => some (Extent.satAdd first others)
    | _, _ => none

def largestSize : List Pattern → Option Nat
  | [] => some 0
  | option :: rest =>
    match option.size, largestSize rest with
    | some first, some others => some (max first others)
    | _, _ => none

end

mutual

def hasValue : Pattern → Bool
  | leaf _ => true
  | seq parts => allHaveValue parts
  | alt options => anyHasValue options
  | rep body count => count.mayStop || body.hasValue

def allHaveValue : List Pattern → Bool
  | [] => true
  | part :: rest => part.hasValue && allHaveValue rest

def anyHasValue : List Pattern → Bool
  | [] => false
  | option :: rest => option.hasValue || anyHasValue rest

end

mutual

def hasMarker : Pattern → Bool
  | leaf (.marker _) => true
  | leaf _ => false
  | seq parts => anyMarker parts
  | alt options => anyMarker options
  | rep body _ => body.hasMarker

def anyMarker : List Pattern → Bool
  | [] => false
  | part :: rest => part.hasMarker || anyMarker rest

end

mutual

def isPadding : Pattern → Bool
  | leaf (.cell .uninit) => true
  | leaf _ => false
  | seq parts => allPadding parts
  | alt [] => false
  | alt (option :: rest) => option.isPadding && allPadding rest
  | rep body _ => body.isPadding

def allPadding : List Pattern → Bool
  | [] => true
  | part :: rest => part.isPadding && allPadding rest

end

def replicate (body : Pattern) (count : Count) : Pattern :=
  if count = .exact 0 then unit
  else if body.size = some 0 then
    if body.hasValue || count.mayStop then unit else never
  else if count = .exact 1 then body
  else .rep body count

def data (width : Nat) : Pattern :=
  (byte .any).replicate (.exact width)

def padding (width : Nat) : Pattern :=
  (byte .uninit).replicate (.exact width)

def parts : Pattern → List Pattern
  | seq parts => parts
  | pattern => [pattern]

def andThen (first second : Pattern) : Pattern :=
  .seq (first.parts ++ second.parts)

def concat (patterns : List Pattern) : Pattern :=
  .seq (patterns.flatMap parts)

end Pattern

end Recast
