import Recast.ByteSet
import Recast.Text.Hex

/-!
# Runs of a byte set

The canonical description of a byte set is the list of its maximal runs of consecutive members,
in ascending order. The text of a set lists these runs.
-/

namespace Recast

/-- The bytes from `first` up to `last`, both included. -/
structure ByteRun where
  first : UInt8
  last : UInt8
deriving DecidableEq, Repr

/-- A run of one byte is written as that byte, a longer one by its two ends. -/
def ByteRun.text (run : ByteRun) : String :=
  if run.first = run.last then Text.hexByte run.first
  else Text.hexByte run.first ++ "..=" ++ Text.hexByte run.last

namespace ByteSet

/-- Puts a byte in front of runs that all lie above it, joining the first one if it adjoins. -/
def consRun (byte : UInt8) : List ByteRun → List ByteRun
  | [] => [⟨byte, byte⟩]
  | run :: rest =>
    if byte.toNat + 1 = run.first.toNat then ⟨byte, run.last⟩ :: rest
    else ⟨byte, byte⟩ :: run :: rest

def runs (set : ByteSet) : List ByteRun :=
  set.toList.foldr consRun []

def ofRuns (runs : List ByteRun) : ByteSet :=
  runs.foldr (fun run set => range run.first run.last ∪ set) ∅

def text (set : ByteSet) : String :=
  if set.isFull then "\x7bany\x7d"
  else "\x7b" ++ ", ".intercalate (set.runs.map ByteRun.text) ++ "\x7d"

@[simp]
theorem mem_ofRuns {byte : UInt8} {runs : List ByteRun} :
    byte ∈ ofRuns runs ↔ ∃ run ∈ runs, run.first ≤ byte ∧ byte ≤ run.last := by
  induction runs with
  | nil => simp [ofRuns]
  | cons head tail ih =>
    have unfold_cons : ofRuns (head :: tail) = range head.first head.last ∪ ofRuns tail := rfl
    simp [unfold_cons, mem_range, ih]

end ByteSet

end Recast
