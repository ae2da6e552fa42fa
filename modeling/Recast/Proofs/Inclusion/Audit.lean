import Recast.Proofs.Inclusion.Watch

/-!
# Checks keep their books

A check counts the pairings it looks at, and takes up inquiries within each other; when it takes one
up, it puts aside what the one around it has relied on so far. Inquiries are put under audit: an
alarm goes off when the books do not balance, where an inquiry is made and where it is answered,
also if it is broken off. As with a watch, what the alarm does is left open, so an audited check
that is the check itself has raised no alarm. At the end nothing is left open, whence the answer is
decided for good (`Terms.check_steady`).
-/

namespace Recast

open Check List

variable {terms : Terms} {underWay : List Inquiry} {progress : Progress} {inquiry : Inquiry}
  {limit : Nat} {alarm : Check Assumptions} {aside : List (Option Nat)}

/-- No inquiry is under way twice, something was put aside for each of them, and neither these nor
the pairings counted are more than the budget allows. -/
def Progress.Balances (budget : Budget) (aside : List (Option Nat)) (progress : Progress) : Prop :=
  progress.underWay.Nodup ∧ progress.underWay.length = aside.length ∧
    progress.underWay.length ≤ budget.maxDepth ∧ progress.tally.pairs ≤ budget.maxPairs

instance (budget : Budget) : Decidable (progress.Balances budget aside) :=
  inferInstanceAs (Decidable (_ ∧ _ ∧ _ ∧ _))

namespace Terms

/-- The result of an inquiry, unless the books do not balance before or after it. -/
def audit (terms : Terms) (alarm : Check Assumptions) (aside : List (Option Nat))
    (progress : Progress) (result : EStateM.Result Diagnostic Progress Assumptions) :
    EStateM.Result Diagnostic Progress Assumptions :=
  if progress.Balances terms.budget aside ∧ (final result).Balances terms.budget aside then result
  else alarm progress

/-- Inquiries under audit; `aside` is what those under way had relied on when the next one was taken
up. -/
def includesAudited (terms : Terms) (alarm : Check Assumptions) :
    (levels : Nat) → (aside : List (Option Nat)) → Nested
  | levels, aside, source, destination => fun progress =>
    let inquiry := (source, destination)
    terms.audit alarm aside progress <|
      match progress.decided.lookup inquiry with
      | some outcome => Check.ofExcept outcome progress.countRepeat
      | none =>
        match progress.depth? inquiry with
        | some depth => .ok ∅ (progress.countCycle.relyOn depth)
        | none =>
          match levels with
          | 0 => .error ⟨0, .budget terms.budget.maxDepth⟩ progress
          | left + 1 =>
            let nested := terms.includesAudited alarm left (progress.reliance :: aside)
            putDown progress inquiry
            (terms.survey (terms.step nested) source destination (progress.begin inquiry))

def checkAudited (terms : Terms) (alarm : Check Assumptions) (source destination : LayoutId)
    (progress : Progress) : Outcome × Progress :=
  match terms.includesAudited alarm terms.budget.maxDepth [] source destination progress with
  | .ok exercised after => (.ok exercised, after)
  | .error diagnostic after => (.error diagnostic, after)

section

variable (distinct : underWay.Nodup) (balanced : underWay.length = aside.length)
  (deep : underWay.length ≤ terms.budget.maxDepth)
  (stands : progress.Stands underWay terms.budget.maxPairs)
include distinct balanced deep stands

theorem agrees_audit {result other : EStateM.Result Diagnostic Progress Assumptions}
    (agrees : Agrees underWay terms.budget.maxPairs limit progress result other) :
    Agrees underWay terms.budget.maxPairs limit progress result
      (terms.audit alarm aside progress other) := by
  have balances {later : Progress} (stands : later.Stands underWay terms.budget.maxPairs) :
      later.Balances terms.budget aside := by
    rw [Progress.Balances, stands.underWay]
    exact ⟨distinct, balanced, deep, stands.pairs⟩
  refine ⟨agrees.stands, agrees.counted, fun few => ?_⟩
  rw [agrees.same few, audit, if_pos ⟨balances stands, balances agrees.stands⟩]

theorem agrees_includesAudited {levels : Nat} {source destination : LayoutId}
    (answers : ∀ left, levels = left + 1 → (source, destination) ∉ underWay →
      AnswerAlike ((source, destination) :: underWay) terms.budget.maxPairs limit (fun _ => True)
        (terms.includesBy terms.step left)
          (terms.includesAudited alarm left (progress.reliance :: aside))) :
    Agrees underWay terms.budget.maxPairs limit progress
      (terms.includesBy terms.step levels source destination progress)
      (terms.includesAudited alarm levels aside source destination progress) := by
  rw [includesAudited.eq_def]
  refine agrees_audit distinct balanced deep stands ?_
  refine agrees_of_new stands (fun _ decided => ?_) (fun _ undecided isDepth => ?_)
    fun undecided isNew => ?_
  · simp only [decided]
  · simp only [undecided, isDepth]
  · simp only [undecided, isNew]
    cases levels with
    | zero =>
      rw [includesBy_stops undecided isNew rfl]
      exact agrees_self stands rfl rfl
    | succ left =>
      rw [includesBy_of_new undecided isNew (Nat.succ_ne_zero left)]
      have fresh : (source, destination) ∉ underWay :=
        stands.underWay ▸ Progress.depth_eq_none.mp isNew
      have begun : (progress.begin (source, destination)).Stands ((source, destination) :: underWay)
          _ :=
        ⟨congrArg _ stands.underWay, stands.pairs⟩
      have alike (pairing : Pairing) (_ : True) :=
        @alike_step _ _ _ terms _ _ pairing _ (answers left rfl fresh) (fun _ _ _ => trivial)
          fun _ _ _ => trivial
      exact agrees_putDown stands.underWay
        (agrees_survey (.inr rfl) alike (fun _ _ _ _ _ _ _ _ _ => trivial) le_rfl le_rfl
        (source, destination) trivial begun)

end

/-- While the books balance, each inquiry is answered under audit as it is without. -/
theorem answerAlike_includesAudited (levels : Nat) (distinct : underWay.Nodup)
    (balanced : underWay.length = aside.length)
    (deep : underWay.length + levels = terms.budget.maxDepth) (limit : Nat) :
    AnswerAlike underWay terms.budget.maxPairs limit (fun _ => True)
      (terms.includesBy terms.step levels) (terms.includesAudited alarm levels aside) := by
  induction levels generalizing underWay aside limit with
  | zero =>
    intro _ _ _ _ _ stands
    exact agrees_includesAudited distinct balanced deep.le stands fun _ no => nomatch no
  | succ levels ih =>
    intro _ _ _ _ _ stands
    refine agrees_includesAudited distinct balanced (by omega) stands fun left isLeft fresh => ?_
    obtain rfl : levels = left := Nat.succ.inj isLeft
    exact ih (nodup_cons.mpr ⟨fresh, distinct⟩) (by rw [length_cons, length_cons, balanced])
      (by rw [length_cons]; omega) limit

/-- Nothing is under way, nothing is relied on, and the budget was kept to. -/
structure Rests (terms : Terms) (progress : Progress) : Prop where
  stands : progress.Stands [] terms.budget.maxPairs
  reliance : progress.reliance = none

/-- An inquiry with none around it is decided when it is put down. -/
theorem finish_of_idle {after : Progress} {outcome : Outcome} (idle : progress.underWay = []) :
    progress.finish after inquiry outcome =
      { after with
        underWay := [], reliance := progress.reliance,
          decided := (inquiry, outcome) :: after.decided } := by
  simp only [Progress.finish, idle, length_nil, Nat.not_lt_zero, if_false]
  split <;> rfl

section Calls

variable (rests : terms.Rests progress) (inquiry : Inquiry)
include rests

theorem Rests.answers (alarm : Check Assumptions) (limit : Nat) :
    Agrees [] terms.budget.maxPairs limit progress
      (terms.includesBy terms.step terms.budget.maxDepth inquiry.1 inquiry.2 progress)
      (terms.includesAudited alarm terms.budget.maxDepth [] inquiry.1 inquiry.2 progress) :=
  answerAlike_includesAudited _ nodup_nil rfl (Nat.zero_add _) limit _ _ trivial trivial progress
    rests.stands

theorem checkAudited_eq (alarm : Check Assumptions) :
    terms.checkAudited alarm inquiry.1 inquiry.2 progress =
      terms.check inquiry.1 inquiry.2 progress := by
  have same := (rests.answers inquiry alarm _).same (Nat.lt_succ_self _)
  rw [checkAudited, same]
  rfl

/-- A check decides the inquiry, unless it may not take up any; it is the same over again then. -/
theorem Rests.decides :
    (terms.check inquiry.1 inquiry.2 progress).2.reliance = none ∧
      ((terms.check inquiry.1 inquiry.2 progress).2.decided.lookup inquiry =
          some (terms.check inquiry.1 inquiry.2 progress).1 ∨
        (terms.check inquiry.1 inquiry.2 progress).2 = progress) := by
  rcases decided : progress.decided.lookup inquiry with _ | outcome
  · have isNew : progress.depth? inquiry = none := by
      rw [Progress.depth_eq_none, rests.stands.underWay]
      exact not_mem_nil
    by_cases none : terms.budget.maxDepth = 0
    · rw [check, checkBy, includesBy_stops decided isNew none]
      exact ⟨rests.reliance, .inr rfl⟩
    · simp only [check, checkBy, includesBy_of_new decided isNew none]
      cases terms.survey (terms.step (terms.includesBy terms.step (terms.budget.maxDepth - 1)))
        inquiry.1 inquiry.2 (progress.begin inquiry) <;>
        simp only [putDown, finish_of_idle rests.stands.underWay, lookup_cons_self] <;>
        exact ⟨rests.reliance, .inl trivial⟩
  · rw [check, checkBy, includesBy_of_decided decided]
    cases outcome <;> exact ⟨rests.reliance, .inl decided⟩

theorem Rests.check : terms.Rests (terms.check inquiry.1 inquiry.2 progress).2 := by
  refine ⟨?_, (rests.decides inquiry).1⟩
  rw [Terms.check, checkBy_eq]
  exact (rests.answers inquiry (fun _ => .ok ∅ {}) 0).stands

theorem Rests.again : let later := (terms.check inquiry.1 inquiry.2 progress).2
    (terms.check inquiry.1 inquiry.2 later).1 = (terms.check inquiry.1 inquiry.2 progress).1 ∧
      (terms.check inquiry.1 inquiry.2 later).2.tally.pairs = later.tally.pairs := by
  intro later
  rcases (rests.decides inquiry).2 with decided | same
  · rw [Terms.check, checkBy, includesBy_of_decided decided]
    cases (terms.check inquiry.1 inquiry.2 progress).1 <;> exact ⟨rfl, rfl⟩
  · have unchanged : later = progress := same
    rw [unchanged]
    exact ⟨rfl, congrArg (·.tally.pairs) same⟩

theorem Rests.after (calls : Nat) :
    terms.Rests (terms.after (replicate calls inquiry) progress) := by
  induction calls generalizing progress with
  | zero => exact rests
  | succ _ ih => exact ih (rests.check inquiry)

theorem Rests.outcome (calls : Nat) :
    (terms.check inquiry.1 inquiry.2 (terms.after (replicate calls inquiry) progress)).1 =
      (terms.check inquiry.1 inquiry.2 progress).1 := by
  induction calls generalizing progress with
  | zero => rfl
  | succ _ ih => exact (ih (rests.check inquiry)).trans (rests.again inquiry).1

end Calls

theorem rests_start : terms.Rests {} := ⟨⟨rfl, Nat.zero_le _⟩, rfl⟩

/-- On any arena, about any layouts and whatever the budget, in a series of checks of one inquiry:
no more pairings than the budget allows are counted, and at each inquiry on the way, where it is
made and where it is answered, as much has been put aside as there are inquiries under way, all of
them distinct and no more than the budget allows. After each check nothing is under way or relied
on. And each check but the first has the outcome of the first, without looking at a pairing. -/
theorem check_steady (terms : Terms) (inquiry : Inquiry) (calls : Nat) :
    let before := terms.after (List.replicate calls inquiry) {}
    let checked := terms.check inquiry.1 inquiry.2 before
    let again := terms.check inquiry.1 inquiry.2 checked.2
    (∀ alarm, terms.checkAudited alarm inquiry.1 inquiry.2 before = checked) ∧
      checked.2.tally.pairs ≤ terms.budget.maxPairs ∧ checked.2.underWay = [] ∧
        checked.2.reliance = none ∧
      again.1 = (terms.check inquiry.1 inquiry.2 {}).1 ∧
        again.2.tally.pairs = checked.2.tally.pairs := by
  intro before checked again
  have rests : terms.Rests before := rests_start.after inquiry calls
  have later : terms.Rests checked.2 := rests.check inquiry
  have repeated := rests.again inquiry
  have first : checked.1 = (terms.check inquiry.1 inquiry.2 {}).1 :=
    rests_start.outcome inquiry calls
  exact ⟨checkAudited_eq rests inquiry, later.stands.pairs, later.stands.underWay, later.reliance,
    repeated.1.trans first, repeated.2⟩

end Terms

end Recast
