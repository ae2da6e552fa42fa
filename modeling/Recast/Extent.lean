/-!
# Extents

Offsets and sizes count bytes and are bounded by what a machine word can express. A sum or product
past that bound is either held at the bound (`satAdd`, `satMul`) or refused (`add?`, `mul?`).
-/

namespace Recast.Extent

def cap : Nat := UInt64.size - 1

def satAdd (left right : Nat) : Nat :=
  min (left + right) cap

def satMul (left right : Nat) : Nat :=
  min (left * right) cap

def add? (left right : Nat) : Option Nat :=
  if left + right ≤ cap then some (left + right) else none

def mul? (left right : Nat) : Option Nat :=
  if left * right ≤ cap then some (left * right) else none

/-- The least multiple of `unit` that is not below `extent`, unless it passes the cap. -/
def roundUp? (extent unit : Nat) : Option Nat :=
  mul? ((extent + unit - 1) / unit) unit

def isPowerOfTwo (n : Nat) : Bool :=
  Nat.pow 2 n.log2 = n

def numbers (width : Nat) : Nat :=
  Nat.pow 256 width

theorem numbers_pos (width : Nat) : 0 < numbers width :=
  Nat.pow_pos (by decide)

theorem numbers_succ (width : Nat) : numbers (width + 1) = 256 * numbers width := by
  unfold numbers
  rw [Nat.mul_comm]
  rfl

theorem add?_eq_some_iff {left right total : Nat} :
    add? left right = some total ↔ left + right = total ∧ total ≤ cap := by
  unfold add?
  split <;> simp <;> omega

theorem mul?_eq_some_iff {left right total : Nat} :
    mul? left right = some total ↔ left * right = total ∧ total ≤ cap := by
  unfold mul?
  split <;> simp <;> omega

theorem satAdd_assoc (a b c : Nat) : satAdd (satAdd a b) c = satAdd a (satAdd b c) := by
  simp only [satAdd]
  omega

end Recast.Extent
