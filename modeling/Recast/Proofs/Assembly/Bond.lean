import Recast.Proofs.Assembly.Measures
import Recast.Proofs.Assembly.Reentry

/-!
# Bonds between two runs

One shape is assembled twice, in two workshops. What is asked of the second run is laid down by a
`Bond`: to succeed where the first one does, or also to fail where the first one fails, and for the
same reason. A smaller draft meets whatever checks a larger one has met, so for success it is enough
that the drafts of the second run are no larger.
-/

namespace Recast

open Extent Assembly

variable {parts partsToo : List (Placed VariantPart)}

namespace Workshop

variable {shop later : Workshop} {layout : LayoutId} {id : DefId}

structure Agrees (shop later : Workshop) : Prop where
  grown : shop.size ≤ later.size
  names : later.referents = shop.referents
  same : ∀ id layout, shop.referents.lookup id = some layout →
    later.arena.layout layout = shop.arena.layout layout

theorem Agrees.knows (agrees : shop.Agrees later) : later.Knows id ↔ shop.Knows id := by
  rw [Knows, Knows, agrees.names]

theorem Sound.agrees_reserved (sound : shop.Sound False) : shop.Agrees shop.reserved :=
  have begins := (sound.opened shop.opened_reserved).2.2
  ⟨begins.grown, rfl, fun id layout found => begins.same layout (sound.referents id layout found)⟩

theorem Settles.agrees {size : Option Nat} (settles : shop.Settles layout size later)
    (sound : shop.Sound False) (unnamed : ∀ id, shop.referents.lookup id ≠ some layout) :
    shop.Agrees later := by
  refine ⟨settles.grown, settles.names, fun id other found => ?_⟩
  refine settles.same other (sound.referents id other found) ?_
  rintro rfl
  exact unnamed id found

theorem Tells.of_agrees {catalog : Catalog} {machine : Machine} {underway : Underway}
    (tells : shop.Tells catalog machine underway) (agrees : shop.Agrees later) :
    later.Tells catalog machine underway := by
  refine ⟨fun id layout found => ?_, fun id layout found => ?_, fun id layout name found => ?_,
    fun name layout member => Nat.lt_of_lt_of_le (tells.inside name layout member) agrees.grown⟩ <;>
    rw [agrees.names] at found
  · rw [agrees.same id layout found]
    exact tells.unsized id layout found
  · rw [agrees.same id layout found]
    exact tells.sized id layout found
  · exact tells.own id layout name found

end Workshop

structure Bond where
  /-- It fails where the first one does, for the same reason. -/
  strict : Prop
  link : Workshop → Workshop → Prop
  slack : Workshop → Prop
  /-- What is left of the first workshop in case of a failure. -/
  ruin : Workshop → Prop
  not_slack {shop : Workshop} : strict → ¬ slack shop
  ruin_of_link {left right : Workshop} : link left right → ruin left
  link_of_agrees {left right later last : Workshop} : link left right → left.Agrees later →
    right.Agrees last → link later last

namespace Bond

variable (bond : Bond) {α β γ δ : Type}

structure Linked (left right : Workshop) : Prop where
  leftSound : left.Sound False
  rightSound : right.Sound False
  link : bond.link left right

/-- The second number is no larger, and zero only if the first one is. -/
structure Less (first second : Nat) : Prop where
  le : second ≤ first
  zero : second = 0 → first = 0
  same : bond.strict → second = first

/-- Both sizes are fixed or neither is; the second one is no larger. -/
inductive Sizes : Option Nat → Option Nat → Prop
  | unsized : Sizes none none
  | sized {first second : Nat} (less : bond.Less first second) : Sizes (some first) (some second)

/-- As far as success matters, an enclosing shape cannot do worse with the second draft. -/
structure Matches (first second : Draft) : Prop where
  align : second.align = first.align
  hasTail : second.hasTail = first.hasTail
  size : bond.Sizes first.pattern.size second.pattern.size

def Answers (post : α → β → Prop) : Except Defect α → Except Defect β → Prop
  | .ok value, .ok other => post value other
  | .ok _, .error _ => False
  | .error defect, outcome => bond.strict → outcome = .error defect

/-- From two workshops on, the second step goes the way of the first one. -/
def Runs (first : Assembly α) (second : Assembly β) (left right : Workshop)
    (post : α → β → Workshop → Workshop → Prop) : Prop :=
  match first left, second right with
  | .ok value later, .ok other last => bond.Linked later last ∧ post value other later last
  | .ok _ _, .error _ last => bond.slack last
  | .error defect later, outcome =>
    bond.strict → bond.ruin later ∧ ∃ last, outcome = .error defect last

variable {bond}

section Numbers

variable {first second : Nat}

theorem Less.refl (number : Nat) : bond.Less number number := ⟨le_rfl, id, fun _ => rfl⟩

theorem Less.add_left (offset : Nat) (less : bond.Less first second) :
    bond.Less (offset + first) (offset + second) := by
  have le := less.le
  have zero := less.zero
  refine ⟨by omega, by omega, fun strict => ?_⟩
  rw [less.same strict]

theorem Less.mul_right (number : Nat) (less : bond.Less first second) :
    bond.Less (first * number) (second * number) := by
  refine ⟨Nat.mul_le_mul_right number less.le, fun empty => ?_,
    fun strict => by rw [less.same strict]⟩
  rcases Nat.mul_eq_zero.mp empty with isZero | isZero
  · rw [less.zero isZero, Nat.zero_mul]
  · rw [isZero, Nat.mul_zero]

theorem Sizes.refl : (size : Option Nat) → bond.Sizes size size
  | none => .unsized
  | some number => .sized (.refl number)

theorem Sizes.isNone {first second : Option Nat} (sizes : bond.Sizes first second) :
    second.isNone = first.isNone := by
  cases sizes <;> rfl

theorem Sizes.getD {first second : Option Nat} (sizes : bond.Sizes first second) :
    bond.Less (first.getD 0) (second.getD 0) := by
  cases sizes with
  | unsized => exact .refl 0
  | sized less => exact less

theorem Sizes.add_left {first second : Option Nat} (offset : Nat)
    (sizes : bond.Sizes first second) :
    bond.Sizes (first.map (offset + ·)) (second.map (offset + ·)) := by
  cases sizes with
  | unsized => exact .unsized
  | sized less => exact .sized (less.add_left offset)

theorem Matches.refl (draft : Draft) : bond.Matches draft draft := ⟨rfl, rfl, .refl _⟩

end Numbers

section Answers

variable {post : α → β → Prop} {first : Except Defect α} {second : Except Defect β}
  {defect : Defect}

theorem answers_self (post : α → α → Prop) (verdict : Except Defect α)
    (refl : ∀ value, post value value) :
    bond.Answers post verdict verdict := by
  cases verdict with
  | ok value => exact refl value
  | error => exact fun _ => rfl

theorem Answers.bind {final : γ → δ → Prop} {next : α → Except Defect γ}
    {onward : β → Except Defect δ} (answers : bond.Answers post first second)
    (goesOn : ∀ value other, post value other → bond.Answers final (next value) (onward other)) :
    bond.Answers final (first >>= next) (second >>= onward) := by
  rcases first with defect | value
  · intro strict
    rw [answers strict]
    rfl
  · rcases second with _ | other
    · exact answers.elim
    · exact goesOn value other answers

theorem answers_unless {condition weaker : Prop} [Decidable condition] [Decidable weaker]
    {other : Defect} (imp : weaker → condition)
    (iff : bond.strict → (condition → weaker) ∧ other = defect)
    (otherwise : ¬ condition → ¬ weaker → bond.Answers post first second) :
    bond.Answers post (if condition then do throw defect; first else first)
      (if weaker then do throw other; second else second) := by
  by_cases fails : condition
  · rw [if_pos fails]
    intro strict
    rw [if_pos ((iff strict).1 fails), (iff strict).2]
    rfl
  · have passes : ¬ weaker := fun yes => fails (imp yes)
    rw [if_neg fails, if_neg passes]
    exact otherwise fails passes

theorem answers_add {offset first second : Nat} (less : bond.Less first second)
    {next : Nat → Except Defect α} {onward : Nat → Except Defect β}
    (otherwise : bond.Answers post (next (offset + first)) (onward (offset + second))) :
    bond.Answers post
      (match add? offset first with
        | none => throw .tooLarge
        | some stop => next stop)
      (match add? offset second with
        | none => throw .tooLarge
        | some stop => onward stop) := by
  have le := less.le
  simp only [add?]
  by_cases inside : offset + first ≤ cap
  · rw [if_pos inside, if_pos (by omega)]
    exact otherwise
  · rw [if_neg inside]
    intro strict
    rw [less.same strict, if_neg inside]
    rfl

end Answers

section Rules

variable {left right later last : Workshop} {post : α → β → Workshop → Workshop → Prop}
  {final : γ → δ → Workshop → Workshop → Prop} {first : Assembly α} {second : Assembly β}
  {defect : Defect} {next : α → Assembly γ} {onward : β → Assembly δ}

theorem runs_of_ok {value : α} {other : β} (isOk : first left = .ok value later)
    (isOkToo : second right = .ok other last) (linked : bond.Linked later last)
    (holds : post value other later last) : bond.Runs first second left right post := by
  simp only [Runs, isOk, isOkToo]
  exact ⟨linked, holds⟩

theorem runs_of_error (isError : first left = .error defect later)
    (isErrorToo : second right = .error defect last) (ruin : bond.ruin later) :
    bond.Runs first second left right post := by
  simp only [Runs, isError, isErrorToo]
  exact fun _ => ⟨ruin, last, rfl⟩

theorem runs_ofExcept {holds : α → β → Prop} {first : Except Defect α} {second : Except Defect β}
    (answers : bond.Answers holds first second) (linked : bond.Linked left right) :
    bond.Runs (Assembly.ofExcept first) (Assembly.ofExcept second) left right
      fun value other _ _ => holds value other := by
  rcases first with defect | _
  · intro strict
    rw [answers strict]
    exact ⟨bond.ruin_of_link linked.link, right, rfl⟩
  · rcases second with _ | _
    · exact answers.elim
    · exact ⟨linked, answers⟩

theorem Runs.bind (runs : bond.Runs first second left right post)
    (goesOn : ∀ value other later last, first left = .ok value later →
      second right = .ok other last → bond.Linked later last → post value other later last →
        bond.Runs (next value) (onward other) later last final) :
    bond.Runs (first >>= next) (second >>= onward) left right final := by
  rcases outcome : first left with ⟨value, later⟩ | ⟨defect, later⟩ <;>
    rcases outcomeToo : second right with ⟨other, last⟩ | ⟨defectToo, last⟩ <;>
    simp only [Runs, outcome, outcomeToo] at runs
  · rw [Runs, bind_of_ok outcome, bind_of_ok outcomeToo]
    exact goesOn value other later last outcome outcomeToo runs.1 runs.2
  · rw [Runs, bind_of_ok outcome, bind_of_error outcomeToo]
    rcases next value later with ⟨_, _⟩ | ⟨_, _⟩
    · exact runs
    · exact fun strict => absurd runs (bond.not_slack strict)
  · rw [Runs, bind_of_error outcome]
    intro strict
    rcases runs strict with ⟨_, _, ⟨⟩⟩
  · simp only [Runs, bind_of_error outcome, bind_of_error outcomeToo]
    intro strict
    rcases runs strict with ⟨ruin, _, ⟨⟩⟩
    exact ⟨ruin, last, rfl⟩

theorem runs_same_bind {verdict : Except Defect α} {onward : α → Assembly δ}
    (linked : bond.Linked left right) (goesOn : ∀ value, verdict = .ok value →
      bond.Runs (next value) (onward value) left right final) :
    bond.Runs (Assembly.ofExcept verdict >>= next) (Assembly.ofExcept verdict >>= onward) left right
      final := by
  cases verdict with
  | ok value => exact goesOn value rfl
  | error => exact fun _ => ⟨bond.ruin_of_link linked.link, right, rfl⟩

theorem runs_check {condition : Prop} [Decidable condition] (linked : bond.Linked left right)
    (otherwise : ¬ condition → bond.Runs first second left right post) :
    bond.Runs (if condition then do throw defect; first else first)
      (if condition then do throw defect; second else second) left right post := by
  by_cases fails : condition
  · rw [if_pos fails, if_pos fails]
    exact fun _ => ⟨bond.ruin_of_link linked.link, right, rfl⟩
  · rw [if_neg fails, if_neg fails]
    exact otherwise fails

end Rules

section Checks

variable {size offset : Nat} {isLast : Bool} {draft other : Draft}

theorem Matches.fixedSize (matched : bond.Matches draft other) :
    bond.Sizes draft.fixedSize other.fixedSize := by
  simp only [Draft.fixedSize, matched.hasTail]
  split
  · exact .unsized
  · exact matched.size

structure Bodies (bond : Bond) (first second : StructBody) : Prop where
  stop : bond.Less first.stop second.stop
  hasTail : second.hasTail = first.hasTail
  tail : first.hasTail → bond.Sizes (Pattern.concat first.parts).size
    (Pattern.concat second.parts).size

section

variable (matched : bond.Matches draft other)
include matched

theorem answers_addField {first second : StructBody} :
    bond.Answers (fun _ _ => True) (first.addField size isLast ⟨offset, draft⟩)
      (second.addField size isLast ⟨offset, other⟩) := by
  have less := matched.size.getD
  have le := less.le
  simp only [StructBody.addField, matched.align, matched.hasTail, matched.size.isNone]
  refine (answers_self Eq _ fun _ => rfl).bind ?_
  rintro _ _ rfl
  refine answers_unless id (fun _ => ⟨id, rfl⟩) fun _ _ =>
    answers_add less (answers_unless ?_ ?_ fun _ _ => ?_)
  · simp only [Bool.and_eq_true, decide_eq_true_eq]
    rintro ⟨noTail, room⟩
    exact ⟨noTail, by omega⟩
  · intro strict
    rw [less.same strict]
    exact ⟨id, rfl⟩
  · exact True.intro

theorem bodies_extended {first second extended extendedToo : StructBody}
    (grown : first.Extends size isLast ⟨offset, draft⟩ extended)
    (grownToo : second.Extends size isLast ⟨offset, other⟩ extendedToo)
    (sound : first.Sound size false) (soundToo : second.Sound size false)
    (behind : first.stop ≤ offset) (behindToo : second.stop ≤ offset)
    (shaped : draft.pattern.Shaped) (shapedToo : other.pattern.Shaped) :
    bond.Bodies extended extendedToo := by
  have stop : bond.Less extended.stop extendedToo.stop := by
    rw [grown.stop, grownToo.stop]
    exact matched.size.getD.add_left offset
  refine ⟨stop, ?_, fun _ => ?_⟩
  · rw [grown.hasTail, grownToo.hasTail]
    simp only [matched.hasTail, matched.size.isNone]
  · rw [(grown.size_concat sound behind shaped).2,
      (grownToo.size_concat soundToo behindToo shapedToo).2]
    exact matched.size.add_left offset

theorem answers_unionMember :
    bond.Answers (fun _ _ => True) (unionMember size ⟨offset, draft⟩)
      (unionMember size ⟨offset, other⟩) := by
  have sizes := matched.fixedSize
  simp only [unionMember, matched.align]
  refine (answers_self Eq _ fun _ => rfl).bind ?_
  rintro _ _ rfl
  generalize draft.fixedSize = first at sizes ⊢
  generalize other.fixedSize = second at sizes ⊢
  cases sizes with
  | unsized => exact fun _ => rfl
  | sized less =>
    have le := less.le
    refine answers_add less (answers_unless ?_ ?_ fun _ _ => ?_)
    · intro room
      omega
    · intro strict
      rw [less.same strict]
      exact ⟨id, rfl⟩
    · exact True.intro

end

def Parts (bond : Bond) (first second : Placed VariantPart) : Prop :=
  second.offset = first.offset ∧ bond.Less first.content.size second.content.size

theorem answers_packVariant {tag : Int} {stop less : Nat}
    (each : List.Forall₂ bond.Parts parts partsToo) (stops : bond.Less stop less) :
    bond.Answers (fun _ _ => True) (packVariant size tag stop parts)
      (packVariant size tag less partsToo) := by
  induction each generalizing stop less with
  | nil => trivial
  | @cons part partToo rest restToo matched _ ih =>
    have le := stops.le
    have next := matched.2
    have nextLe := next.le
    simp only [packVariant, matched.1]
    refine answers_unless ?_ ?_ fun _ _ => answers_add next (answers_unless ?_ ?_ fun _ _ =>
      (ih (next.add_left _)).bind fun _ _ _ => ?_)
    · intro overlap
      omega
    · intro strict
      rw [stops.same strict]
      exact ⟨id, rfl⟩
    · intro overrun
      omega
    · intro strict
      rw [next.same strict]
      exact ⟨id, rfl⟩
    · exact True.intro

theorem answers_arrayCount {count : Count} {totalLength : Option Nat} {first second offsetToo : Nat}
    (less : bond.Less first second) (settled : totalLength = none ∨ bond.strict)
    (same : bond.strict → offsetToo = offset) :
    bond.Answers (fun number numberToo => numberToo = number)
      (Plan.arrayCount offset first count totalLength)
        (Plan.arrayCount offsetToo second count totalLength) := by
  by_cases strict : bond.strict
  · rw [less.same strict, same strict]
    exact answers_self _ _ fun _ => rfl
  · have unsettled := settled.resolve_right strict
    subst unsettled
    cases count with
    | atLeast => exact rfl
    | exact number =>
      have le := Nat.mul_le_mul_right number less.le
      by_cases fits : first * number ≤ cap
      · simp only [Plan.arrayCount, mul?, if_pos fits, if_pos (le_trans le fits)]
        exact rfl
      · simp only [Plan.arrayCount, mul?, if_neg fits]
        exact fun isStrict => absurd isStrict strict

end Checks

end Bond

end Recast
