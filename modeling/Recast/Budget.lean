/-!
# Budgets

A check may be bounded in the work it does. A check that runs out of budget says so: it is never
taken for an answer.
-/

namespace Recast

structure Budget where
  maxPairs : Nat := 0x100000
  maxDepth : Nat := 128
deriving DecidableEq, Repr

def Budget.unlimited : Budget where
  maxPairs := UInt64.size - 1
  maxDepth := UInt64.size - 1

end Recast
