import Recast.Assembly.Shape

/-!
# What a shape can be blamed for

The checks that a plan makes find fault with numbers of the shape, and never with options of a
choice that differ in size: that would only come to light in the compilation of a pattern.
-/

namespace Recast

variable {defect : Defect}

section Verdicts

variable {α β : Type} {machine : Machine}

def Defect.Mismatches : Defect → Prop
  | .mismatchedAlternatives _ => True
  | _ => False

def Except.Sensible (verdict : Except Defect α) : Prop :=
  ∀ defect, verdict = .error defect → ¬ defect.Mismatches

@[simp]
theorem Except.sensible_ok (value : α) : Except.Sensible (.ok value) := by
  simp [Except.Sensible]

@[simp]
theorem Except.sensible_pure (value : α) : Except.Sensible (pure value : Except Defect α) :=
  Except.sensible_ok value

@[simp]
theorem Except.sensible_error :
    Except.Sensible (.error defect : Except Defect α) ↔ ¬ defect.Mismatches := by
  simp [Except.Sensible]

@[simp]
theorem Except.sensible_throw :
    Except.Sensible (throw defect : Except Defect α) ↔ ¬ defect.Mismatches :=
  Except.sensible_error

theorem Except.Sensible.bind {verdict : Except Defect α} {onward : α → Except Defect β}
    (first : Except.Sensible verdict) (others : ∀ value, Except.Sensible (onward value)) :
    Except.Sensible (verdict >>= onward) := by
  cases verdict with
  | ok value => exact others value
  | error =>
    rw [Except.sensible_error] at first
    exact Except.sensible_error.mpr first

theorem Except.sensible_unless {condition : Prop} [Decidable condition] {next : Except Defect α}
    (fine : ¬ defect.Mismatches) (otherwise : Except.Sensible next) :
    Except.Sensible (if condition then do throw defect; next else next) := by
  split
  · exact Except.sensible_error.mpr fine
  · exact otherwise

theorem sensible_requirePowerOfTwo (align : Nat) : Except.Sensible (requirePowerOfTwo align) := by
  unfold requirePowerOfTwo
  split <;> simp [Defect.Mismatches]

theorem sensible_requireAligned (offset align : Nat) :
    Except.Sensible (requireAligned offset align) := by
  unfold requireAligned
  split
  · simp [Defect.Mismatches]
  · split <;> simp [Defect.Mismatches]

theorem StructBody.sensible_addField (body : StructBody) (size : Nat) (isLast : Bool)
    (field : Placed Draft) :
    Except.Sensible (body.addField size isLast field) := by
  refine (sensible_requireAligned _ _).bind fun _ => Except.sensible_unless id ?_
  split
  · simp [Defect.Mismatches]
  · exact Except.sensible_unless id (by simp)

theorem sensible_unionMember (size : Nat) (field : Placed Draft) :
    Except.Sensible (unionMember size field) := by
  refine (sensible_requireAligned _ _).bind fun _ => ?_
  split
  · simp [Defect.Mismatches]
  · split
    · simp [Defect.Mismatches]
    · exact Except.sensible_unless id (by simp)

theorem sensible_packVariant (size : Nat) (tag : Int) (stop : Nat)
    (parts : List (Placed VariantPart)) :
    Except.Sensible (packVariant size tag stop parts) := by
  induction parts generalizing stop with
  | nil => exact Except.sensible_ok _
  | cons _ _ ih =>
    refine Except.sensible_unless id ?_
    split
    · simp [Defect.Mismatches]
    · exact Except.sensible_unless id ((ih _).bind fun _ => by simp)

theorem TagSlot.sensible_check (slot : TagSlot) (size : Nat) :
    Except.Sensible (slot.check size) := by
  refine Except.sensible_unless id ?_
  split
  · simp [Defect.Mismatches]
  · split <;> simp [Defect.Mismatches]

theorem TagSlot.sensible_declareTag (slot : TagSlot) (declared : List Nat) (tag : Int) :
    Except.Sensible (slot.declareTag declared tag) := by
  have bits : Except.Sensible (slot.bits tag) := by
    simp only [TagSlot.bits]
    split <;> simp [Defect.Mismatches]
  exact bits.bind fun _ => Except.sensible_unless id (by simp)

theorem Scalar.sensible_draft (scalar : Scalar) : Except.Sensible (scalar.draft machine) := by
  refine (sensible_requirePowerOfTwo _).bind fun _ => ?_
  split
  · simp
  · refine Except.sensible_unless id ?_
    split <;> simp [Defect.Mismatches]

theorem Plan.sensible_arrayCount (offset size : Nat) (count : Count) (totalLength : Option Nat) :
    Except.Sensible (arrayCount offset size count totalLength) := by
  unfold arrayCount
  split
  · split <;> simp [Defect.Mismatches]
  · split
    · simp
    · split <;> simp [Defect.Mismatches]
  · simp

end Verdicts

theorem Catalog.sensible_find {catalog : Catalog} (id : DefId) :
    Except.Sensible (catalog.find id) := by
  unfold Catalog.find
  split <;> simp [Defect.Mismatches]

end Recast
