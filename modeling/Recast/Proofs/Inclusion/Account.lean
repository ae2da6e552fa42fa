import Mathlib.Order.Filter.Basic
import Recast.Inclusion

/-!
# What steps of a check ensure

An `Account` says what answers to inquiries mean, and what holds of the progress of a check at any
time. `Check.Ensures` says of a step that its result lives up to an account and meets a condition.
It speaks of one result for many budgets at once: of a budget at hand, or of all that are large
enough.
-/

namespace Recast

namespace Progress

variable {progress later last : Progress} {inquiry : Inquiry}

/-- The inquiries under way that the innermost one has relied on, or that lie within such a one. -/
def Relied (progress : Progress) (inquiry : Inquiry) : Prop :=
  ∃ depth outermost, progress.depth? inquiry = some depth ∧ progress.reliance = some outermost ∧
    outermost ≤ depth

structure Later (progress later : Progress) : Prop where
  underWay : later.underWay = progress.underWay
  relied : ∀ inquiry, progress.Relied inquiry → later.Relied inquiry

theorem Later.refl (progress : Progress) : progress.Later progress := ⟨rfl, fun _ => id⟩

theorem Later.trans (first : progress.Later later) (second : later.Later last) :
    progress.Later last :=
  ⟨second.underWay.trans first.underWay, fun inquiry relied =>
    second.relied inquiry (first.relied inquiry relied)⟩

theorem Later.of_tally (progress : Progress) (tally : Tally) :
    progress.Later { progress with tally } :=
  ⟨rfl, fun _ => id⟩

end Progress

/-- What answers to inquiries mean, and what holds of progress at any time. -/
structure Account where
  Sound : Progress → Prop
  Yes : Inquiry → Assumptions → Progress → Prop
  No : Inquiry → Progress → Prop
  sound_tally : ∀ progress tally, Sound progress → Sound { progress with tally }
  yes_later : ∀ inquiry exercised progress later, progress.Later later →
    Yes inquiry exercised progress → Yes inquiry exercised later
  no_later : ∀ inquiry progress later, progress.Later later → No inquiry progress → No inquiry later

namespace Check

variable {α β : Type} {account : Account} {budgets : Filter Budget} {step : Budget → Check α}
  {progress : Progress} {post weaker : α → Progress → Prop} {failed mild : Progress → Prop}
  {final : β → Progress → Prop}

/-- From some progress on, the step has one result for all those budgets, and the result lives up to
the account and meets the condition, or that for failures. -/
def Ensures (account : Account) (budgets : Filter Budget) (step : Budget → Check α)
    (progress : Progress) (post : α → Progress → Prop) (failed : Progress → Prop) : Prop :=
  ∃ result, (∀ᶠ budget in budgets, step budget progress = result) ∧
    match result with
    | .ok value later => progress.Later later ∧ account.Sound later ∧ post value later
    | .error _ later => progress.Later later ∧ account.Sound later ∧ failed later

theorem ensures_pure {value : α} (sound : account.Sound progress) (holds : post value progress) :
    Ensures account budgets (fun _ => pure value) progress post failed :=
  ⟨.ok value progress, .of_forall fun _ => rfl, .refl progress, sound, holds⟩

theorem ensures_throw {diagnostic : Diagnostic} (sound : account.Sound progress)
    (holds : failed progress) :
    Ensures account budgets (fun _ => throw diagnostic) progress post failed :=
  ⟨.error diagnostic progress, .of_forall fun _ => rfl, .refl progress, sound, holds⟩

theorem ensures_ofExcept {result : Except Diagnostic α} (sound : account.Sound progress)
    (holds : ∀ value, result = .ok value → post value progress)
    (fails : ∀ diagnostic, result = .error diagnostic → failed progress) :
    Ensures account budgets (fun _ => ofExcept result) progress post failed := by
  cases result with
  | ok value => exact ensures_pure sound (holds value rfl)
  | error diagnostic => exact ensures_throw sound (fails diagnostic rfl)

theorem get_bind {next : Progress → Check α} : (get >>= next) progress = next progress progress :=
  rfl

theorem ensures_count {add : Tally → Tally} (sound : account.Sound progress) :
    Ensures account budgets (fun _ => count add) progress
      (fun _ later => later = { progress with tally := add progress.tally }) failed :=
  ⟨.ok () { progress with tally := add progress.tally }, .of_forall fun _ => rfl,
    .of_tally progress _, account.sound_tally progress _ sound, rfl⟩

theorem Ensures.mono (ensures : Ensures account budgets step progress post failed)
    (imp : ∀ value later, progress.Later later → post value later → weaker value later)
    (failedImp : ∀ later, progress.Later later → failed later → mild later) :
    Ensures account budgets step progress weaker mild := by
  rcases ensures with ⟨_ | _, eventually, goesOn, sound, holds⟩
  · exact ⟨_, eventually, goesOn, sound, imp _ _ goesOn holds⟩
  · exact ⟨_, eventually, goesOn, sound, failedImp _ goesOn holds⟩

theorem Ensures.bind {next : Budget → α → Check β}
    (first : Ensures account budgets step progress post failed)
    (second : ∀ value later, progress.Later later → account.Sound later → post value later →
      Ensures account budgets (fun budget => next budget value) later final mild)
    (fails : ∀ later, progress.Later later → failed later → mild later) :
    Ensures account budgets (fun budget => step budget >>= next budget) progress final mild := by
  rcases first with ⟨⟨value, later⟩ | ⟨diagnostic, later⟩, eventually, goesOn, sound, holds⟩
  · rcases second value later goesOn sound holds with ⟨result, onward, outcome⟩
    refine ⟨result, ?_, ?_⟩
    · filter_upwards [eventually, onward] with budget first rest
      simp only [Bind.bind, EStateM.bind, first, rest]
    · cases result <;> exact ⟨goesOn.trans outcome.1, outcome.2⟩
  · refine ⟨.error diagnostic later, ?_, goesOn, sound, fails later goesOn holds⟩
    filter_upwards [eventually] with budget first
    simp only [Bind.bind, EStateM.bind, first]

theorem ensures_ofExcept_bind {result : Except Diagnostic α} {next : Budget → α → Check β}
    (sound : account.Sound progress) (second : ∀ value, result = .ok value →
      Ensures account budgets (fun budget => next budget value) progress final mild)
    (fails : ∀ diagnostic, result = .error diagnostic → mild progress) :
    Ensures account budgets (fun budget => ofExcept result >>= next budget) progress final
      mild := by
  cases result with
  | ok value => exact second value rfl
  | error diagnostic => exact ensures_throw sound (fails diagnostic rfl)

theorem Ensures.attempt_bind {next : Budget → Except Diagnostic α → Check β}
    (first : Ensures account budgets step progress post failed)
    (accepted : ∀ value later, progress.Later later → account.Sound later → post value later →
      Ensures account budgets (fun budget => next budget (.ok value)) later final mild)
    (refused : ∀ diagnostic later, progress.Later later → account.Sound later → failed later →
      Ensures account budgets (fun budget => next budget (.error diagnostic)) later final mild) :
    Ensures account budgets (fun budget => attempt (step budget) >>= next budget) progress final
      mild := by
  have attempted : Ensures account budgets (fun budget => attempt (step budget)) progress
      (fun verdict later => (∃ value, verdict = .ok value ∧ post value later) ∨
        ∃ diagnostic, verdict = .error diagnostic ∧ failed later) mild := by
    rcases first with ⟨⟨value, later⟩ | ⟨diagnostic, later⟩, eventually, goesOn, sound, holds⟩
    · refine ⟨.ok (.ok value) later, ?_, goesOn, sound, .inl ⟨value, rfl, holds⟩⟩
      filter_upwards [eventually] with budget same
      simp only [attempt, same]
    · refine ⟨.ok (.error diagnostic) later, ?_, goesOn, sound, .inr ⟨diagnostic, rfl, holds⟩⟩
      filter_upwards [eventually] with budget same
      simp only [attempt, same]
  refine attempted.bind ?_ fun _ _ fails => fails
  intro _ later goesOn sound holds
  rcases holds with ⟨value, rfl, holds⟩ | ⟨diagnostic, rfl, fails⟩
  · exact accepted value later goesOn sound holds
  · exact refused diagnostic later goesOn sound fails

end Check

end Recast
