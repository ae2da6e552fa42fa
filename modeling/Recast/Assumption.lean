/-!
# Assumptions

A check may be told that its caller upholds some of the conditions on its own. There are four such
assumptions. `Assumptions` is a set of them, seen through membership.
-/

namespace Recast

/-- One condition that the caller of a check may promise to uphold. -/
inductive Assumption where
  | alignment
  | lifetimes
  | safety
  | validity
deriving DecidableEq, Repr

namespace Assumption

/-- All assumptions, in the order in which they are listed and looked at. -/
def all : List Assumption :=
  [alignment, lifetimes, safety, validity]

theorem mem_all (assumption : Assumption) : assumption ∈ all := by
  cases assumption <;> decide

def label : Assumption → String
  | alignment => "alignment"
  | lifetimes => "lifetimes"
  | safety => "safety invariants"
  | validity => "bit validity"

end Assumption

structure Assumptions where
  alignment : Bool := false
  lifetimes : Bool := false
  safety : Bool := false
  validity : Bool := false
deriving DecidableEq, Repr

namespace Assumptions

def holds (assumed : Assumptions) : Assumption → Bool
  | .alignment => assumed.alignment
  | .lifetimes => assumed.lifetimes
  | .safety => assumed.safety
  | .validity => assumed.validity

instance : Membership Assumption Assumptions where
  mem assumed assumption := assumed.holds assumption = true

instance (assumption : Assumption) (assumed : Assumptions) : Decidable (assumption ∈ assumed) :=
  inferInstanceAs (Decidable (_ = true))

instance : EmptyCollection Assumptions where
  emptyCollection := {}

instance : Inhabited Assumptions where
  default := ∅

def everything : Assumptions where
  alignment := true
  lifetimes := true
  safety := true
  validity := true

def only : Assumption → Assumptions
  | .alignment => { alignment := true }
  | .lifetimes => { lifetimes := true }
  | .safety => { safety := true }
  | .validity => { validity := true }

instance : Singleton Assumption Assumptions where
  singleton := only

instance : Union Assumptions where
  union left right :=
    { alignment := left.alignment || right.alignment
      lifetimes := left.lifetimes || right.lifetimes
      safety := left.safety || right.safety
      validity := left.validity || right.validity }

instance : HasSubset Assumptions where
  Subset small large := ∀ assumption ∈ Assumption.all, assumption ∈ small → assumption ∈ large

instance (small large : Assumptions) : Decidable (small ⊆ large) :=
  inferInstanceAs
    (Decidable (∀ assumption ∈ Assumption.all, assumption ∈ small → assumption ∈ large))

def toList (assumed : Assumptions) : List Assumption :=
  Assumption.all.filter (· ∈ assumed)

def ofList (assumptions : List Assumption) : Assumptions :=
  assumptions.foldr (fun assumption assumed => {assumption} ∪ assumed) ∅

/-- The `n`-th of the sixteen sets: one binary digit per assumption, alignment the lowest. -/
def ofNumber (n : Nat) : Assumptions where
  alignment := n.testBit 0
  lifetimes := n.testBit 1
  safety := n.testBit 2
  validity := n.testBit 3

variable {assumption other : Assumption} {left right : Assumptions}

theorem ext_mem (h : ∀ assumption, assumption ∈ left ↔ assumption ∈ right) : left = right := by
  have fields := fun assumption => Bool.eq_iff_iff.mpr (h assumption)
  cases left
  cases right
  simpa using ⟨fields .alignment, fields .lifetimes, fields .safety, fields .validity⟩

@[simp]
theorem not_mem_empty : assumption ∉ (∅ : Assumptions) := by
  cases assumption <;> decide

@[simp]
theorem mem_everything : assumption ∈ everything := by
  cases assumption <;> decide

@[simp]
theorem mem_singleton : assumption ∈ ({other} : Assumptions) ↔ assumption = other := by
  cases assumption <;> cases other <;> decide

@[simp]
theorem mem_union : assumption ∈ left ∪ right ↔ assumption ∈ left ∨ assumption ∈ right := by
  cases assumption <;> exact Bool.or_eq_true _ _ ▸ Iff.rfl

theorem subset_iff : left ⊆ right ↔ ∀ assumption, assumption ∈ left → assumption ∈ right :=
  ⟨fun h assumption => h assumption assumption.mem_all, fun h assumption _ => h assumption⟩

@[simp]
theorem mem_toList : assumption ∈ left.toList ↔ assumption ∈ left := by
  simp [toList, Assumption.mem_all]

end Assumptions

end Recast
