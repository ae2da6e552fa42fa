import Recast.Proofs.Inclusion.Acceptance

/-!
# Acceptance is monotone

Where validity is not assumed, further assumptions, lifetimes that outlive more and a larger budget
can only add ways to read the source. The inquiries that an acceptance has rested on still uphold
each other on the easier terms, and these rules bound the second check from below.
-/

namespace Recast

open Assumptions

namespace Terms

variable {terms easier : Terms} {inquiry : Inquiry} {exercised : Assumptions} {leaping : Prop}

theorem bounds_relying (sameArena : easier.arena = terms.arena)
    (subset : terms.assumed ⊆ easier.assumed) (strict : .validity ∉ terms.assumed)
    (outlives : ∀ longer shorter, terms.outlives longer shorter →
      easier.outlives longer shorter) :
    easier.Bounds leaping ((terms.relying exercised).rules
      ((terms.relying exercised).Upheld leaping fun _ => False)) where
  assumed assumption member :=
    subset_iff.mp subset assumption (mem_reducedTo.mp member).1
  strict isValid := strict (mem_reducedTo.mp isValid).1
  outlives := outlives
  sustains pair upheld := by
    rw [sameArena]
    exact upheld.cases.resolve_left id

/-- In an arena that assemblies have filled: what a check without validity accepts, whatever its
budget and whatever was checked before, is accepted with further assumptions, with lifetimes that
outlive more, and with every budget that is large enough. -/
theorem check_mono {shop : Workshop} (filled : shop.Filled) (isArena : terms.arena = shop.arena)
    (sameArena : easier.arena = terms.arena) (subset : terms.assumed ⊆ easier.assumed)
    (strict : .validity ∉ easier.assumed)
    (outlives : ∀ longer shorter, terms.outlives longer shorter →
      easier.outlives longer shorter) {earlier : List Inquiry}
    (earlierInside : ∀ other ∈ earlier, terms.Inside other) (inside : terms.Inside inquiry)
    (accepted : (terms.check inquiry.1 inquiry.2 (terms.after earlier {})).1 = .ok exercised) :
    ∃ used, Budget.ForLarge fun budget =>
      ({ easier with budget }.check inquiry.1 inquiry.2 {}).1 = .ok used := by
  rcases filled.exists_plotted isArena with ⟨_, charts⟩
  have upheld := upheld_of_check charts earlierInside inside accepted
  have unassumed : .validity ∉ terms.assumed :=
    fun isValid => strict (subset_iff.mp subset _ isValid)
  have bounds : easier.Bounds True ((terms.relying exercised).rules
      ((terms.relying exercised).Upheld True fun _ => False)) :=
    bounds_relying sameArena subset unassumed outlives
  rw [← sameArena] at charts
  rw [Inside, ← sameArena] at inside
  simp only [check_eq_checkBy]
  exact checkBy_accepts (steps_step _ charts) charts bounds inside upheld

end Terms

section Sample

open Workshop

theorem Shape.fitsWords_boolReference :
    (reference (.scalar .bool) ⟨1, .exclusive, .static⟩).FitsWords := .of_fits rfl

/-- A workshop with the layouts of an exclusive reference to a boolean, and of a shared reference to
a byte that is aligned to more and lives in a region. -/
def Workshop.alignedReferences : Workshop :=
  let first := Job.ofShape _ Shape.fitsWords_boolReference
  let second := Job.ofShape (.reference (.scalar (.int 1)) ⟨2, .shared, .region 0⟩) (.of_fits rfl)
  second.leave (first.leave {})

theorem Workshop.filled_alignedReferences : alignedReferences.Filled := by
  unfold alignedReferences
  exact .leave _ (.leave _ .empty)

/-- The reference is accepted under alignment, within four pairs and two levels, and so it is with
more assumptions, other lifetimes and large budgets. -/
theorem Terms.check_mono_references : let terms : Terms :=
      { arena := Workshop.alignedReferences.arena, assumed := { alignment := true },
        budget := ⟨4, 2⟩ }
    let easier : Terms :=
      { terms with
        assumed := { alignment := true, lifetimes := true, safety := true }
        outlives := fun _ _ => true }
    (terms.check ⟨1⟩ ⟨3⟩ {}).1.toOption = some { alignment := true } ∧
      ∃ used, Budget.ForLarge fun budget => ({ easier with budget }.check ⟨1⟩ ⟨3⟩ {}).1 =
        .ok used := by
  intro terms easier
  have accepted : (terms.check ⟨1⟩ ⟨3⟩ {}).1.toOption = some { alignment := true } := by
    decide +kernel
  have inside : terms.Inside (⟨1⟩, ⟨3⟩) := by decide +kernel
  have sameArena : easier.arena = terms.arena := rfl
  exact ⟨accepted, Terms.check_mono Workshop.filled_alignedReferences rfl sameArena (by decide)
    (by decide) (fun _ _ _ => rfl) (List.forall_mem_nil _) inside (eq_ok_of_toOption accepted)⟩

end Sample

end Recast
