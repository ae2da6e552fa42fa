import Recast.Proofs.Assembly.Bond

/-!
# Runs in tandem

Plans look at drafts only for their sizes, alignments and tails, and at referents only for whether
they have a fixed size. So a recipe goes the same way with drafts that are no larger
(`Bond.recipes_recipe`), and so does a plan if the two runs do alike wherever a named referent is
asked for (`Shape.pairs_planIn`).
-/

namespace Recast

open Extent Pattern Shape StructBody Bond

variable {bond : Bond} {machine : Machine} {scope : Scope} {first second totalLength : Option Nat}
  {body other : StructBody} {step : Assembly LayoutId}

namespace Bond

variable {α β γ δ : Type}

structure Drafts (bond : Bond) (first second : Draft) : Prop where
  matched : bond.Matches first second
  shaped : first.pattern.Shaped
  shapedToo : second.pattern.Shaped

/-- With drafts that match, the second recipe goes the way of the first one. -/
inductive Recipes (bond : Bond) (post : α → β → Prop) : Recipe α → Recipe β → Prop
  | done {first : Except Defect α} {second : Except Defect β}
      (answers : bond.Answers post first second) :
      Recipes bond post (.done first) (.done second)
  | draw {part : Shape} {offset offsetToo : Nat} {next : Draft → Recipe α}
      {onward : Draft → Recipe β} (same : bond.strict → offsetToo = offset)
      (goesOn : ∀ draft other, bond.Drafts draft other →
        Recipes bond post (next draft) (onward other)) :
      Recipes bond post (.draw part offset next) (.draw part offsetToo onward)
  | failed {defect : Defect} {second : Recipe β} (loose : ¬ bond.strict) :
      Recipes bond post (.done (.error defect)) second

section Recipes

variable {post : α → β → Prop} {final : γ → δ → Prop} {size align offset offsetToo : Nat}
  {fields : List (Placed Shape)} {slot : TagSlot}

theorem recipes_ok {value : α} {other : β} (holds : post value other) :
    bond.Recipes post (.done (.ok value)) (.done (.ok other)) :=
  .done holds

theorem recipes_done_bind {first : Except Defect α} {second : Except Defect β} {next : α → Recipe γ}
    {onward : β → Recipe δ} (answers : bond.Answers post first second)
    (goesOn : ∀ value other, first = .ok value → second = .ok other → post value other →
      bond.Recipes final (next value) (onward other)) :
    bond.Recipes final (.done first >>= next) (.done second >>= onward) := by
  rcases first with defect | value
  · by_cases strict : bond.strict
    · rw [answers strict]
      exact .done fun _ => rfl
    · exact .failed strict
  · rcases second with _ | other
    · exact answers.elim
    · exact goesOn value other rfl rfl answers

theorem recipes_same_bind {verdict : Except Defect α} {next : α → Recipe γ} {onward : α → Recipe δ}
    (goesOn : ∀ value, verdict = .ok value → bond.Recipes final (next value) (onward value)) :
    bond.Recipes final (.done verdict >>= next) (.done verdict >>= onward) := by
  refine recipes_done_bind (answers_self Eq verdict fun _ => rfl) ?_
  rintro value _ isOk _ rfl
  exact goesOn value isOk

theorem Recipes.bind {first : Recipe α} {second : Recipe β} {next : α → Recipe γ}
    {onward : β → Recipe δ} (recipes : bond.Recipes post first second)
    (goesOn : ∀ value other, post value other → bond.Recipes final (next value) (onward other)) :
    bond.Recipes final (first >>= next) (second >>= onward) := by
  induction recipes with
  | done answers =>
    exact recipes_done_bind answers fun value other _ _ holds => goesOn value other holds
  | draw same _ ih => exact .draw same ih
  | failed loose => exact .failed loose

theorem recipes_ask_bind {part : Shape} {start : Nat} {next : Draft → Recipe γ}
    {onward : Draft → Recipe δ} (same : bond.strict → offsetToo = offset)
    (goesOn : ∀ draft other, bond.Drafts draft other →
      bond.Recipes final (next draft) (onward other)) :
    bond.Recipes final (.ask part (satAdd offset start) >>= next)
      (.ask part (satAdd offsetToo start) >>= onward) :=
  .draw (fun strict => by rw [same strict]) goesOn

theorem recipes_unless {condition weaker : Prop} [Decidable condition] [Decidable weaker]
    {defect other : Defect} {first : Recipe α} {second : Recipe β}
    (imp : weaker → condition) (iff : bond.strict → (condition → weaker) ∧ other = defect)
    (otherwise : ¬ condition → ¬ weaker → bond.Recipes post first second) :
    bond.Recipes post (if condition then do Recipe.done (.error defect); first else first)
      (if weaker then do Recipe.done (.error other); second else second) := by
  by_cases fails : condition
  · rw [if_pos fails]
    by_cases strict : bond.strict
    · rw [if_pos ((iff strict).1 fails), (iff strict).2]
      exact .done fun _ => rfl
    · exact .failed strict
  · have passes : ¬ weaker := fun yes => fails (imp yes)
    rw [if_neg fails, if_neg passes]
    exact otherwise fails passes

theorem recipes_sizes {defect defectToo : Defect} {next : Nat → Recipe α}
    {onward : Nat → Recipe β} :
    bond.Sizes first second →
    (bond.strict → defectToo = defect) →
    (∀ width widthToo, first = some width → second = some widthToo → bond.Less width widthToo →
      bond.Recipes post (next width) (onward widthToo)) →
    bond.Recipes post
      (match first with
        | none => .done (.error defect)
        | some width => next width)
      (match second with
        | none => .done (.error defectToo)
        | some width => onward width) := by
  intro sizes same goesOn
  cases sizes with
  | unsized => exact .done fun strict => by rw [same strict]
  | sized less => exact goesOn _ _ rfl rfl less

theorem recipes_structBody (sound : body.Sound size fields.isEmpty)
    (soundToo : other.Sound size fields.isEmpty) (bodies : bond.Bodies body other)
    (same : bond.strict → offsetToo = offset) :
    bond.Recipes (fun final finalToo => final.Sound size true ∧ finalToo.Sound size true ∧
      bond.Bodies final finalToo) (.structBody size offset fields body)
        (.structBody size offsetToo fields other) := by
  induction fields generalizing body other with
  | nil => exact recipes_ok ⟨sound, soundToo, bodies⟩
  | cons field rest ih =>
    simp only [Recipe.structBody]
    apply recipes_unless
    · intro overlap
      have le := bodies.stop.le
      omega
    · intro strict
      rw [bodies.stop.same strict]
      exact ⟨id, rfl⟩
    intro ordered orderedToo
    have behind := not_lt.mp ordered
    have behindToo := not_lt.mp orderedToo
    refine recipes_ask_bind same fun _ _ drafts => ?_
    refine recipes_done_bind (answers_addField drafts.matched) fun _ _ added addedToo _ => ?_
    have grown := addField_eq_ok added
    have grownToo := addField_eq_ok addedToo
    refine ih (grown.sound sound behind drafts.shaped)
      (grownToo.sound soundToo behindToo drafts.shapedToo) ?_
    exact bodies_extended drafts.matched grown grownToo sound soundToo behind behindToo
      drafts.shaped drafts.shapedToo

theorem matches_struct (inside : size ≤ cap) (sound : body.Sound size true)
    (soundToo : other.Sound size true) (bodies : bond.Bodies body other) :
    bond.Matches { pattern := body.pattern size, align, hasTail := body.hasTail }
      { pattern := other.pattern size, align, hasTail := other.hasTail } := by
  refine ⟨rfl, bodies.hasTail, ?_⟩
  by_cases hasTail : body.hasTail
  · have hasTailToo := bodies.hasTail.trans hasTail
    simp only [pattern, hasTail, hasTailToo, if_true]
    exact bodies.tail hasTail
  · have noTail : body.hasTail = false := by simpa using hasTail
    have noTailToo := bodies.hasTail.trans noTail
    rw [size_of_fits (sound.fits_pattern inside noTail) inside,
      size_of_fits (soundToo.fits_pattern inside noTailToo) inside]
    exact .refl _

def Members (size : Nat) (first second : Pattern) : Prop :=
  first.Fits size ∧ second.Fits size

theorem matches_alt {members membersToo : List Pattern} (inside : size ≤ cap)
    (each : List.Forall₂ (Members size) members membersToo) :
    bond.Matches { pattern := .alt members, align } { pattern := .alt membersToo, align } := by
  refine ⟨rfl, rfl, ?_⟩
  cases each with
  | nil => exact .refl _
  | @cons member memberToo members membersToo first rest =>
    have fits : (alt (member :: members)).Fits size :=
      ⟨nofun, first.1, fitEach_iff.mpr (forall_of_forall₂_left rest fun _ _ both => both.1)⟩
    have fitsToo : (alt (memberToo :: membersToo)).Fits size :=
      ⟨nofun, first.2, fitEach_iff.mpr (forall_of_forall₂ rest fun _ _ both => both.2)⟩
    rw [size_of_fits fits inside, size_of_fits fitsToo inside]
    exact .refl _

theorem recipes_unionMembers (inside : size ≤ cap) (same : bond.strict → offsetToo = offset) :
    bond.Recipes (List.Forall₂ (Members size)) (.unionMembers size offset fields)
      (.unionMembers size offsetToo fields) := by
  induction fields with
  | nil => exact recipes_ok .nil
  | cons _ _ ih =>
    refine recipes_ask_bind same fun _ _ drafts => ?_
    refine recipes_done_bind (answers_unionMember drafts.matched) fun _ _ made madeToo _ => ?_
    exact ih.bind fun _ _ each => recipes_ok (.cons
      ⟨(fills_unionMember drafts.shaped made).fits inside,
      (fills_unionMember drafts.shapedToo madeToo).fits inside⟩ each)

/-- Parts of variants lie alike, and have the sizes that they say. -/
structure VariantParts (bond : Bond) (first second : Placed VariantPart) : Prop where
  alike : bond.Parts first second
  measured : first.content.Measured
  measuredToo : second.content.Measured

theorem recipes_variantParts (same : bond.strict → offsetToo = offset) :
    bond.Recipes (List.Forall₂ bond.VariantParts) (.variantParts offset fields)
      (.variantParts offsetToo fields) := by
  induction fields with
  | nil => exact recipes_ok .nil
  | cons _ _ ih =>
    refine recipes_ask_bind same fun draft draftToo drafts => ?_
    rw [drafts.matched.align]
    refine recipes_same_bind fun _ _ => ?_
    refine recipes_sizes drafts.matched.fixedSize (fun _ => rfl) fun _ _ fixed fixedToo less => ?_
    exact ih.bind fun _ _ each => recipes_ok
      (.cons ⟨⟨rfl, less⟩, ⟨(draft.fixedSize_eq_some fixed).2, drafts.shaped⟩,
      ⟨(draftToo.fixedSize_eq_some fixedToo).2, drafts.shapedToo⟩⟩ each)

theorem recipes_variant {tag : Int} {ranges : List Range} (inside : size ≤ cap)
    (writes : slot.Writes ranges) (same : bond.strict → offsetToo = offset) :
    bond.Recipes (Members size) (.variant machine size slot offset tag ranges fields)
      (.variant machine size slot offsetToo tag ranges fields) := by
  refine (recipes_variantParts same).bind fun parts partsToo each => ?_
  let tagPart : Placed VariantPart :=
    ⟨slot.offset, slot.size, .ofRanges machine.byteOrder slot.size ranges⟩
  have measured := writes.measured machine.byteOrder
  have tagged : List.Forall₂ bond.VariantParts (tagPart :: parts) (tagPart :: partsToo) :=
    .cons ⟨⟨rfl, .refl _⟩, measured, measured⟩ each
  have alike :=
    Placed.forall₂_sortByOffset (tagged.imp fun _ _ both => both.alike) fun _ _ part => part.1.symm
  refine recipes_done_bind (answers_packVariant alike (.refl 0)) fun _ _ isOk isOkToo _ => ?_
  have first := forall_of_forall₂_left tagged fun _ _ both => both.measured
  have second := forall_of_forall₂ tagged fun _ _ both => both.measuredToo
  exact recipes_ok
    ⟨(fills_packVariant (fun part member => first part (Placed.mem_sortByOffset.mp member))
    isOk).fits inside,
      (fills_packVariant (fun part member => second part (Placed.mem_sortByOffset.mp member))
        isOkToo).fits inside⟩

theorem recipes_variants {variants : List (Variant Shape)} {declared : List Nat}
    (inside : size ≤ cap) (small : slot.size ≤ 16)
    (lower : ∀ bits ∈ declared, bits < numbers slot.size)
    (same : bond.strict → offsetToo = offset) :
    bond.Recipes (fun made madeToo => List.Forall₂ (Members size) made.1 madeToo.1 ∧
      madeToo.2 = made.2 ∧
        ∀ bits ∈ made.2, bits < numbers slot.size)
      (.variants machine size slot offset variants declared)
      (.variants machine size slot offsetToo variants declared) := by
  induction variants generalizing declared with
  | nil => exact recipes_ok ⟨.nil, rfl, lower⟩
  | cons next _ ih =>
    refine recipes_same_bind fun ⟨_, _⟩ isDeclared => ?_
    rcases TagSlot.declareTag_adds isDeclared with ⟨rfl, rfl⟩
    refine (recipes_variant inside (TagSlot.writes_declared small next.tag) same).bind
      fun _ _ fill => ?_
    refine (ih (List.forall_mem_cons.mpr ⟨slot.twosComplement_lt next.tag, lower⟩)).bind
      fun _ _ made => ?_
    exact recipes_ok ⟨.cons fill made.1, made.2⟩

theorem sizes_replicate {element other : Pattern} {count : Count} {width widthToo : Nat}
    (fits : element.Fits width) (fitsToo : other.Fits widthToo) (inside : width ≤ cap)
    (less : bond.Less width widthToo)
    (small : ∀ number, count = .exact number → width * number ≤ cap) :
    bond.Sizes (element.replicate count).size (other.replicate count).size := by
  have insideToo := le_trans less.le inside
  cases count with
  | exact number =>
    have total := small number rfl
    have totalToo := Nat.le_trans (Nat.mul_le_mul_right number less.le) total
    rw [size_of_fits (fits_replicate fits total) total,
      size_of_fits (fits_replicate fitsToo totalToo) totalToo]
    exact .sized (less.mul_right number)
  | atLeast number =>
    -- Without bytes there is nothing to repeat; with bytes, there is no end to it.
    have size {pattern : Pattern} {unit : Nat} (unitFits : pattern.Fits unit)
        (unitInside : unit ≤ cap) : (pattern.replicate (.atLeast number)).size = if unit =
        0 then some 0 else none := by
      have isUnit := size_of_fits unitFits unitInside
      by_cases empty : unit = 0
      · simp only [replicate, reduceCtorEq, if_false, isUnit, empty, if_true]
        split <;> rfl
      · simp [replicate, isUnit, empty, size]
    have empty : widthToo = 0 ↔ width = 0 := ⟨less.zero, fun none => by
      have le := less.le
      omega⟩
    rw [size fits inside, size fitsToo insideToo]
    simp only [empty]
    exact .refl _

/-- The same shape is drawn alike from parts that are drawn alike. -/
theorem recipes_recipe {shape : Shape} (direct : ¬ shape.IsLink) (words : shape.FitsWords)
    (known : ∀ length, totalLength = some length → length ≤ cap)
    (settled : totalLength = none ∨ bond.strict) (same : bond.strict → offsetToo = offset) :
    bond.Recipes bond.Matches (shape.recipe machine totalLength offset)
      (shape.recipe machine totalLength offsetToo) := by
  cases words with
  | scalar => exact .done (answers_self _ _ .refl)
  | @struct _ _ _ inside _ =>
    refine recipes_same_bind fun _ _ => ?_
    have bodies : bond.Bodies {} {} := ⟨.refl 0, rfl, by simp⟩
    refine (recipes_structBody sound_empty sound_empty bodies same).bind ?_
    rintro _ _ ⟨bodySound, otherSound, finalBodies⟩
    exact recipes_ok (matches_struct inside bodySound otherSound finalBodies)
  | union inside =>
    refine recipes_same_bind fun _ _ => recipes_unless id (fun _ => ⟨id, rfl⟩) fun _ _ => ?_
    exact (recipes_unionMembers inside same).bind fun _ _ each =>
      recipes_ok (matches_alt inside each)
  | @tagged _ _ slot _ others inside _ _ =>
    refine recipes_same_bind fun _ _ => recipes_same_bind fun _ checked => ?_
    rcases TagSlot.check_eq_ok checked with ⟨_, small, _⟩
    refine (recipes_variants inside small (List.forall_mem_nil _) same).bind ?_
    rintro ⟨made, declared⟩ ⟨madeToo, _⟩ ⟨each, rfl, lower⟩
    cases others with
    | none => exact recipes_ok (matches_alt inside each)
    | some fields =>
      dsimp only
      split
      · exact recipes_ok (matches_alt inside each)
      · rename_i some
        refine (recipes_variant inside (TagSlot.writes_undeclared small (by simpa using some) lower)
          same).bind fun rest restToo fill => ?_
        exact recipes_ok (matches_alt inside (List.rel_append each (.cons fill .nil)))
  | array =>
    refine .draw same fun draft draftToo drafts => ?_
    refine recipes_sizes drafts.matched.fixedSize (fun strict => by rw [same strict])
      fun width widthToo fixed fixedToo less => ?_
    refine recipes_done_bind (answers_arrayCount less settled same)
      fun number numberToo isNumber _ isSame => ?_
    refine recipes_ok ⟨drafts.matched.align, rfl, ?_⟩
    rcases drafts.shaped.fits_of_size (draft.fixedSize_eq_some fixed).2 with ⟨fits, inside⟩
    have fitsToo := (drafts.shapedToo.fits_of_size (draftToo.fixedSize_eq_some fixedToo).2).1
    rw [isSame]
    apply sizes_replicate fits fitsToo inside less
    rintro _ rfl
    exact Plan.arrayCount_small known isNumber
  | sealed => exact recipes_same_bind fun _ _ => recipes_ok (.refl _)
  | reference | named => exact absurd trivial direct

end Recipes

section Plans

open Assembly Plan

variable {left right : Workshop}

def Pairs (bond : Bond) (plan : Plan) (scope : Scope) : Prop :=
  ∀ offset offsetToo, (bond.strict → offsetToo = offset) → ∀ left right, bond.Linked left right →
    bond.Runs (plan scope offset) (plan scope offsetToo) left right fun draft other _ _ =>
      bond.Matches draft other

structure NoWider (bond : Bond) (id other : LayoutId) (later last : Workshop) : Prop where
  sized : (last.arena.layout other).size = none → (later.arena.layout id).size = none
  unsized : bond.strict → (later.arena.layout id).size = none →
    (last.arena.layout other).size = none

/-- From workshops that are linked, the step leads to referents that can be told apart in the same
way. -/
def PairsReferents (bond : Bond) (step : Assembly LayoutId) : Prop :=
  ∀ left right, bond.Linked left right → bond.Runs step step left right bond.NoWider

theorem runs_run {recipe : Recipe α} {recipeToo : Recipe β} {planOf : Shape → Plan}
    {post : α → β → Prop} (recipes : bond.Recipes post recipe recipeToo)
    (pairs : recipe.All fun part => (planOf part).Sound False ∧ bond.Pairs (planOf part) scope)
    (words : scope.FitsWords) (linked : bond.Linked left right) :
    bond.Runs (recipe.run planOf scope) (recipeToo.run planOf scope) left right
      fun value other _ _ => post value other := by
  induction recipes generalizing left right with
  | done answers => exact runs_ofExcept answers linked
  | draw same _ ih =>
    rcases pairs.1 with ⟨isSound, paired⟩
    refine (paired _ _ same left right linked).bind
      fun draft other _ _ isDraft isOther laterLinked matched => ?_
    have sound := ((isSound scope _ left words linked.leftSound).ok isDraft).2.2
    have soundToo := ((isSound scope _ right words linked.rightSound).ok isOther).2.2
    exact ih draft other ⟨matched, sound.shaped, soundToo.shaped⟩ (pairs.2 draft) laterLinked
  | failed loose => exact fun strict => absurd strict loose

theorem runs_fill {inner : Bond} {plan : Plan} {first second : Workshop}
    {layout layoutToo : LayoutId} (isSound : plan.Sound False) (words : scope.FitsWords)
    (same : step left = plan.fill scope layout first)
    (sameToo : step right = plan.fill scope layoutToo second) (blank : first.Blank layout)
    (blankToo : second.Blank layoutToo) (linked : inner.Linked first second)
    (runs : inner.Runs (plan scope 0) (plan scope 0) first second fun draft other _ _ =>
      inner.Matches draft other)
    (strict : bond.strict → inner.strict) (slack : ∀ last, inner.slack last → bond.slack last)
    (ruin : ∀ defect later, step left = .error defect later → inner.ruin later → bond.ruin later)
    (ends : ∀ later last final finalToo size sizeToo, inner.Linked later last →
      first.Extends first.size later → second.Extends second.size last →
      step left = .ok layout final → step right = .ok layoutToo finalToo →
      later.Settles layout size final → last.Settles layoutToo sizeToo finalToo →
        bond.link final finalToo) :
    bond.Runs step step left right bond.NoWider := by
  rcases planned : plan scope 0 first with ⟨draft, later⟩ | ⟨defect, later⟩ <;>
    rcases plannedToo : plan scope 0 second with ⟨draftToo, last⟩ | ⟨defectToo, last⟩ <;>
    simp only [Runs, planned, plannedToo] at runs
  · rcases isSound.exists_fill words linked.leftSound blank planned with ⟨final, isOk, settles⟩
    rcases isSound.exists_fill words linked.rightSound blankToo plannedToo with
      ⟨finalToo, isOkToo, settlesToo⟩
    rw [← same] at isOk
    rw [← sameToo] at isOkToo
    have grows := ((isSound scope 0 first words linked.leftSound).ok planned).1
    have growsToo := ((isSound scope 0 second words linked.rightSound).ok plannedToo).1
    refine runs_of_ok isOk isOkToo ⟨settles.sound, settlesToo.sound,
      ends later last final finalToo _ _ runs.1 grows growsToo isOk isOkToo settles settlesToo⟩ ?_
    have sizes := runs.2.size.isNone
    rw [← settles.size, ← settlesToo.size] at sizes
    refine ⟨fun unsized => ?_, fun _ unsized => ?_⟩
    · rwa [← Option.isNone_iff_eq_none, ← sizes, Option.isNone_iff_eq_none]
    · rwa [← Option.isNone_iff_eq_none, sizes, Option.isNone_iff_eq_none]
  · rcases isSound.exists_fill words linked.leftSound blank planned with ⟨final, isOk, _⟩
    rw [← same] at isOk
    have failed := sameToo.trans (bind_of_error plannedToo)
    simp only [Runs, isOk, failed]
    exact slack last runs
  · have failed := same.trans (bind_of_error planned)
    simp only [Runs, failed]
    intro isStrict
    rcases runs (strict isStrict) with ⟨_, _, ⟨⟩⟩
  · have failed := same.trans (bind_of_error planned)
    have failedToo := sameToo.trans (bind_of_error plannedToo)
    simp only [Runs, failed, failedToo]
    intro isStrict
    rcases runs (strict isStrict) with ⟨isRuin, _, ⟨⟩⟩
    exact ⟨ruin defect later failed isRuin, last, rfl⟩

theorem pairsReferents_anonymous {referent : Plan} (isSound : referent.Sound False)
    (pairs : bond.Pairs referent { underWay := scope.underWay }) :
    bond.PairsReferents (anonymousReferent referent scope) := by
  intro left right linked
  have opens {shop : Workshop} (sound : shop.Sound False) := sound.opened shop.opened_reserved
  have unnamed {shop later : Workshop} (sound : shop.Sound False)
      (grows : shop.reserved.Extends shop.reserved.size later) (id : DefId) :
      later.referents.lookup id ≠ some ⟨shop.size⟩ := by
    rw [Ne, grows.named id ⟨shop.size⟩ (opens sound).2.1.inside]
    exact fun found => lt_irrefl _ (sound.referents id _ found)
  have reserved : bond.Linked left.reserved right.reserved :=
    ⟨(opens linked.leftSound).1, (opens linked.rightSound).1, bond.link_of_agrees linked.link
      linked.leftSound.agrees_reserved linked.rightSound.agrees_reserved⟩
  refine runs_fill isSound (by simp [Scope.FitsWords]) (anonymousReferent_eq referent scope left)
    (anonymousReferent_eq referent scope right) (opens linked.leftSound).2.1
    (opens linked.rightSound).2.1 reserved (pairs 0 0 (fun _ => rfl) _ _ reserved) id (fun _ => id)
    (fun _ _ _ => id) ?_
  intro _ _ _ _ _ _ laterLinked grows growsToo _ _ settles settlesToo
  exact bond.link_of_agrees laterLinked.link
    (settles.agrees laterLinked.leftSound (unnamed linked.leftSound grows))
    (settlesToo.agrees laterLinked.rightSound (unnamed linked.rightSound growsToo))

theorem less_width (inside : machine.FitsWords) (sized : second = none → first = none)
    (unsized : bond.strict → first = none → second = none) :
    bond.Less (machine.referenceWidth first) (machine.referenceWidth second) := by
  have cap : cap ≠ 0 := by decide
  have words : machine.pointerSize ≤ Extent.cap := inside
  rcases first with _ | first <;> rcases second with _ | second
  · exact .refl _
  · simp only [Machine.referenceWidth, satMul]
    exact ⟨by omega, by omega, fun strict => by cases unsized strict rfl⟩
  · cases sized rfl
  · exact .refl _

theorem runs_reference {guarantee : Guarantee} (inside : machine.FitsWords)
    (pairs : bond.PairsReferents step) (linked : bond.Linked left right) :
    bond.Runs (Plan.reference machine guarantee step) (Plan.reference machine guarantee step) left
      right
      fun draft other _ _ => bond.Matches draft other := by
  refine runs_same_bind linked fun _ _ => (pairs left right linked).bind ?_
  intro _ _ _ _ _ _ laterLinked noWider
  exact ⟨laterLinked, rfl, rfl, .sized (less_width inside noWider.sized noWider.unsized)⟩

end Plans

end Bond

/-- Wherever the second run finds the referents asked for as the first one does, it goes its way. -/
theorem Shape.pairs_planIn {catalog : Catalog} {shape : Shape} (inside : machine.FitsWords)
    (catalogWords : catalog.FitsWords) (words : shape.FitsWords) (known : scope.FitsWords)
    (settled : scope.totalLength = none ∨ bond.strict) (refers : ∀ id, shape.AsksFor catalog id →
      bond.PairsReferents (catalog.referent machine catalog.size id)) :
    bond.Pairs (shape.planIn catalog machine) scope := by
  -- A definition that is expanded is one less that is not under way.
  induction few : catalog.idle scope.underWay using Nat.strong_induction_on
    generalizing shape scope with
  | _ idle fewer =>
  induction shape using recipe_induction generalizing scope with
  | direct shape direct ih =>
    intro offset offsetToo same left right linked
    simp only [planIn]
    rw [plan_eq_run, plan_eq_run]
    refine runs_run (recipes_recipe direct words known settled same)
      (all_part direct fun part (isPart : shape.Part catalog part) => ?_) known linked
    have member := isPart.mem_parts direct
    exact ⟨sound_planIn inside catalogWords (words.parts part member) False.elim,
      ih part member (words.parts part member) known settled
        (fun id asks => refers id (asks.head isPart)) few⟩
  | reference referent guarantee ih =>
    intro offset offsetToo same left right linked
    simp only [planIn]
    rw [plan_reference_eq]
    refine runs_reference inside ?_ linked
    by_cases isNamed : ∃ id, referent = .named id
    · rcases isNamed with ⟨id, rfl⟩
      exact refers id ⟨guarantee, .refl⟩
    · rw [referent_of_not_named isNamed]
      cases words with
      | reference _ referentWords =>
        refine pairsReferents_anonymous (sound_planIn inside catalogWords referentWords False.elim)
          ?_
        exact ih referentWords (by simp [Scope.FitsWords]) (.inl rfl)
          (fun id asks => refers id (asks.head (.referent isNamed))) few
  | named id =>
    intro offset offsetToo same left right linked
    change bond.Runs ((catalog.calls machine).expand id scope offset)
      ((catalog.calls machine).expand id scope offsetToo) left right _
    rw [catalog.calls_eq_step]
    refine runs_same_bind linked fun definition isDefinition => runs_check linked fun _ =>
      runs_check linked fun isIdle => ?_
    have found := Catalog.find_eq_ok isDefinition
    have less := few ▸ Catalog.idle_cons_lt found isIdle
    have pairs : bond.Pairs (definition.shape.planIn catalog machine)
        { scope with inPlace := id :: scope.inPlace, underWay := id :: scope.underWay } :=
      fewer _ less (catalogWords id definition found) known settled
        (fun other asks => refers other (asks.head (.definition found))) rfl
    exact pairs offset offsetToo same left right linked

end Recast
