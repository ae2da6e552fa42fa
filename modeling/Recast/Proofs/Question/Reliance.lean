import Recast.Proofs.Question

/-!
# Which assumptions suffice

An acceptance rests on the assumptions it has needed, and on that of safety, which may have been
needed without being reported. As long as validity is not among them, it holds up with all
assumptions that include these (`Setting.exists_recast_of_needed`). With validity it is otherwise: a
byte that no cell accepts may then go on behind all cells at hand, and an assumption that opens up
one more cell takes that way out away.
-/

namespace Recast

open Assumptions

namespace Setting

variable {setting : Setting} {source destination : Shape} {assumed more exercised : Assumptions}

/-- An acceptance holds up with other assumptions that include all it has rested on. -/
theorem exists_recast_of_needed (words : setting.FitsWords) (sourceWords : source.FitsWords)
    (destinationWords : destination.FitsWords)
    (accepted : setting.recast source destination assumed = .ok exercised)
    (strict : .validity ∉ exercised) (needed : exercised ⊆ more)
    (safe : .safety ∈ assumed → .safety ∈ more) :
    ∃ used, used ⊆ more ∧ Budget.ForLarge fun budget =>
      { setting with budget }.recast source destination more = .ok used := by
  rcases assembles_of_recast accepted with ⟨inquiry, arena, assembles⟩
  rcases assembles.plotted words sourceWords destinationWords with ⟨⟨plot, charts⟩, inside⟩
  let relying := (setting.terms arena assumed).relying exercised
  have upheld := Terms.upheld_of_check charts
    (List.forall_mem_nil (setting.terms arena assumed).Inside) inside
    (assembles.recast_eq_ok_iff.mp accepted)
  have bounds : (setting.terms arena more).Bounds True
      (relying.rules (relying.Upheld True fun _ => False)) := by
    refine Terms.Eased.bounds ⟨rfl, rfl, fun assumption member => ?_⟩ fun isValid => ?_
    · rcases mem_reducedTo.mp member with ⟨isAssumed, isUsed | rfl⟩
      · exact subset_iff.mp needed assumption isUsed
      · exact safe isAssumed
    · rcases mem_reducedTo.mp isValid with ⟨_, isUsed | no⟩
      · exact strict isUsed
      · cases no
  exact assembles.recast_accepts words sourceWords destinationWords bounds upheld

theorem recast_subset (accepted : setting.recast source destination assumed = .ok exercised) :
    exercised ⊆ assumed := by
  rcases assembles_of_recast accepted with ⟨_, _, assembles⟩
  exact Terms.check_subset (assembles.recast_eq_ok_iff.mp accepted)

/-- A byte, and behind it the start of an empty type with invariants and one byte of padding. -/
def byteBeforeSealed : Shape := .struct 2 1 [⟨0, .scalar (.int 1)⟩, ⟨1, .sealed "T" 0 1⟩]

/-- Further assumptions never turn an acceptance into a rejection, unless it has needed validity. -/
theorem recast_mono (words : setting.FitsWords) (sourceWords : source.FitsWords)
    (destinationWords : destination.FitsWords) (subset : assumed ⊆ more)
    (accepted : setting.recast source destination assumed = .ok exercised)
    (strict : .validity ∉ exercised) :
    ∃ used, Budget.ForLarge fun budget =>
      { setting with budget }.recast source destination more = .ok used := by
  have isMore := subset_iff.mp subset
  have needed : exercised ⊆ more := subset_iff.mpr fun assumption member =>
    isMore assumption (subset_iff.mp (recast_subset accepted) assumption member)
  rcases exists_recast_of_needed words sourceWords destinationWords accepted strict needed
    (isMore .safety) with ⟨used, _, accepts⟩
  exact ⟨used, accepts⟩

/-- The byte is accepted under safety, and so it is under all assumptions. -/
theorem recast_mono_everything :
    (Setting.recast {} (.scalar (.int 1)) byteBeforeSealed { safety := true }).toOption = some ∅ ∧
      ∃ used, Budget.ForLarge fun budget =>
        Setting.recast { budget } (.scalar (.int 1)) byteBeforeSealed .everything = .ok used := by
  have accepted : (Setting.recast {} (.scalar (.int 1)) byteBeforeSealed
      { safety := true }).toOption = some ∅ := by decide +kernel
  exact ⟨accepted, recast_mono fitsWords_default (.of_fits rfl) (.of_fits rfl)
    (by decide) (eq_ok_of_toOption accepted) (by decide)⟩

def paddedByte : Shape := .struct 2 1 [⟨0, .scalar (.int 1)⟩]

/-- A boolean with one byte of padding, or two bytes of a type with invariants. -/
def paddedBoolOrSealed : Shape :=
  .union 2 1 [⟨0, .struct 2 1 [⟨0, .scalar .bool⟩]⟩, ⟨0, .sealed "T" 2 1⟩]

/-- A byte is taken for a boolean if it is assumed to be one. If it may also be written into the
type with invariants, then it is no longer taken for a boolean, and the padding cannot be written
there. -/
theorem recast_not_mono : let setting : Setting := { budget := .unlimited }
    let validly : Assumptions := { validity := true }
    let safely : Assumptions := { validity := true, safety := true }
    validly ⊆ safely ∧
      (setting.recast paddedByte paddedBoolOrSealed validly).toOption = some validly ∧
      (setting.recast paddedByte paddedBoolOrSealed safely).toOption = none := by
  decide +kernel

/-- The assumptions that were needed suffice, together with that of safety if it was made, unless
validity was needed. -/
theorem recast_suffices (words : setting.FitsWords) (sourceWords : source.FitsWords)
    (destinationWords : destination.FitsWords)
    (accepted : setting.recast source destination assumed = .ok exercised)
    (strict : .validity ∉ exercised) :
    ∃ used, Budget.ForLarge fun budget =>
      { setting with budget }.recast source destination (assumed.reducedTo exercised) =
        .ok used := by
  have needed := subset_iff.mpr fun assumption member => mem_reducedTo.mpr
      ⟨subset_iff.mp (recast_subset accepted) assumption member, .inl member⟩
  have safe (isSafe : .safety ∈ assumed) : .safety ∈ assumed.reducedTo exercised :=
    mem_reducedTo.mpr ⟨isSafe, .inr rfl⟩
  rcases exists_recast_of_needed words sourceWords destinationWords accepted strict needed safe with
    ⟨used, _, accepts⟩
  exact ⟨used, accepts⟩

/-- The byte is accepted under all assumptions but validity with none reported, and so it is under
safety. -/
theorem recast_suffices_safety :
    let assumed : Assumptions := { alignment := true, lifetimes := true, safety := true }
    (Setting.recast {} (.scalar (.int 1)) byteBeforeSealed assumed).toOption = some ∅ ∧
      ∃ used, Budget.ForLarge fun budget =>
        Setting.recast { budget } (.scalar (.int 1)) byteBeforeSealed (assumed.reducedTo ∅) =
          .ok used := by
  intro assumed
  have accepted : (Setting.recast {} (.scalar (.int 1)) byteBeforeSealed assumed).toOption =
      some ∅ := by decide +kernel
  exact ⟨accepted, recast_suffices fitsWords_default (.of_fits rfl) (.of_fits rfl)
    (eq_ok_of_toOption accepted) (by decide)⟩

def addressed (referent : Shape) : Shape :=
  .struct 10 1 [⟨0, .reference referent ⟨1, .shared, .static⟩⟩, ⟨8, .scalar (.int 1)⟩]

def addressedOrBool (referent : Shape) (align : Nat) : Shape :=
  .union 10 1
    [⟨0, .struct 10 1 [⟨8, .scalar .bool⟩]⟩,
      ⟨0, .struct 10 1 [⟨0, .reference referent ⟨align, .shared, .static⟩⟩, ⟨8, .scalar (.int 1)⟩,
        ⟨9, .scalar (.int 1)⟩]⟩]

/-- What was needed need not suffice. The value of the destination may end within a type with
invariants without safety being reported. And where validity was needed, an assumption may have
helped only in that some referents could not be read as others. -/
theorem recast_insufficient : let setting : Setting := { budget := .unlimited }
    let byte : Shape := .scalar (.int 1)
    let source := addressed (addressed byte)
    let destination := addressedOrBool (addressedOrBool byte 8) 1
    let validly : Assumptions := { validity := true }
    (setting.recast byte byteBeforeSealed { safety := true }).toOption = some ∅ ∧
      (setting.recast byte byteBeforeSealed ∅).toOption = none ∧
      (setting.recast source destination { validity := true, alignment := true }).toOption =
        some validly ∧
      (setting.recast source destination validly).toOption = none := by
  decide +kernel

end Setting

end Recast
