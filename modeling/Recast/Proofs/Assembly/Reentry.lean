import Mathlib.Logic.Relation
import Recast.Proofs.Assembly.Unfold

/-!
# Definitions within themselves

If all goes well, the workshop knows every referent that has been asked for, and nothing has been
expanded in place while it was under way (`Shape.Cleared`); so it is with each definition that has
got a layout on the way (`Workshop.Passes`). So a shape that leads to a definition within which that
same definition is to be expanded cannot be assembled (`Shape.not_reenters`).
-/

namespace Recast

open Assembly Shape List Catalog Relation

variable {catalog : Catalog} {shape piece : Shape} {later last shop : Workshop}
  {names : DefId → Prop} {scope : Scope} {offset : Nat} {machine : Machine} {id : DefId}
  {draft : Draft}

namespace Shape

/-- The second shape is assembled on the way through the first one, be it for a named referent that
has no layout yet. -/
inductive Leads (catalog : Catalog) (known : DefId → Prop) : Shape → Shape → Prop
  | part {whole part : Shape} (isPart : whole.Part catalog part) : Leads catalog known whole part
  | named {id : DefId} {definition : Definition} {guarantee : Guarantee}
      (found : catalog.get? id = some definition) (fresh : ¬ known id) :
      Leads catalog known (.reference (.named id) guarantee) definition.shape

/-- The way through the shape comes to a definition, in place or as a referent that has no layout
yet, and within it comes to the same definition in place, with no named referent in between. -/
inductive Reenters (catalog : Catalog) (known : DefId → Prop) (shape : Shape) : Prop
  | inPlace {id : DefId} {definition : Definition} (found : catalog.get? id = some definition)
      (enters : ReflTransGen (Leads catalog known) shape (.named id))
      (again : ReflTransGen (Part catalog) definition.shape (.named id))
  | referent {id : DefId} {definition : Definition} {guarantee : Guarantee}
      (found : catalog.get? id = some definition) (fresh : ¬ known id)
      (enters : ReflTransGen (Leads catalog known) shape (.reference (.named id) guarantee))
      (again : ReflTransGen (Part catalog) definition.shape (.named id))

def AsksFor (catalog : Catalog) (shape : Shape) (id : DefId) : Prop :=
  ∃ guarantee, ReflTransGen (Part catalog) shape (.reference (.named id) guarantee)

/-- No definition is expanded within itself on the way through the shape, nor are those under way,
and the workshop knows the referents that are asked for. -/
structure Cleared (catalog : Catalog) (underWay : List DefId) (shape : Shape) (later : Workshop) :
    Prop where
  apart : ∀ id ∈ underWay, ¬ ReflTransGen (Part catalog) shape (.named id)
  inner : ∀ id definition, catalog.get? id = some definition →
    ReflTransGen (Part catalog) shape (.named id) →
    ¬ ReflTransGen (Part catalog) definition.shape (.named id)
  asked : ∀ id, shape.AsksFor catalog id → later.Knows id

section Cleared

variable {underWay : List DefId}

theorem AsksFor.head (isPart : shape.Part catalog piece) (asks : piece.AsksFor catalog id) :
    shape.AsksFor catalog id := by
  rcases asks with ⟨guarantee, inner⟩
  exact ⟨guarantee, inner.head isPart⟩

section

variable (cleared : shape.Cleared catalog underWay later)
include cleared

theorem Cleared.mono (recalls : ∀ id, later.Knows id → last.Knows id) :
    shape.Cleared catalog underWay last :=
  ⟨cleared.apart, cleared.inner, fun id asks => recalls id (cleared.asked id asks)⟩

theorem Cleared.fewer {fewer : List DefId} (subset : ∀ id ∈ fewer, id ∈ underWay) :
    shape.Cleared catalog fewer later :=
  ⟨fun id member => cleared.apart id (subset id member), cleared.inner, cleared.asked⟩

theorem Cleared.part (isPart : shape.Part catalog piece) : piece.Cleared catalog underWay later :=
  ⟨fun id member inner => cleared.apart id member (inner.head isPart),
    fun id definition found inner => cleared.inner id definition found (inner.head isPart),
    fun id asks => cleared.asked id (asks.head isPart)⟩

end

theorem cleared_of_parts
    (parts : ∀ part, shape.Part catalog part → part.Cleared catalog underWay later)
    (named : ∀ id, shape = .named id → id ∉ underWay ∧
      ∀ definition, catalog.get? id = some definition →
        ¬ ReflTransGen (Part catalog) definition.shape (.named id))
    (asked : ∀ id guarantee, shape = .reference (.named id) guarantee → later.Knows id) :
    shape.Cleared catalog underWay later := by
  refine ⟨fun id member inner => ?_, fun id definition found inner => ?_, ?_⟩
  · rcases inner.cases_head with isNamed | ⟨part, isPart, onward⟩
    · exact (named id isNamed).1 member
    · exact (parts part isPart).apart id member onward
  · rcases inner.cases_head with isNamed | ⟨part, isPart, onward⟩
    · exact (named id isNamed).2 definition found
    · exact (parts part isPart).inner id definition found onward
  · rintro id ⟨guarantee, inner⟩
    rcases inner.cases_head with isReference | ⟨part, isPart, onward⟩
    · exact asked id guarantee isReference
    · exact (parts part isPart).asked id ⟨guarantee, onward⟩

end Cleared

end Shape

/-- What is known stays known, and each definition that has got a layout is one of the given names
and has been assembled. -/
structure Workshop.Passes (catalog : Catalog) (names : DefId → Prop) (shop later : Workshop) : Prop
    where
  recalls : ∀ id layout, shop.referents.lookup id = some layout →
    later.referents.lookup id = some layout
  assembled : ∀ id, later.Knows id → shop.Knows id ∨
    names id ∧ ∃ definition, catalog.get? id = some definition ∧
      definition.shape.Cleared catalog [id] later

namespace Workshop.Passes

theorem knows (passes : shop.Passes catalog names later) (known : shop.Knows id) : later.Knows id :=
  known.imp fun layout => passes.recalls id layout

theorem of_referents (same : later.referents = shop.referents) :
    shop.Passes catalog names later := by
  refine ⟨fun id _ known => same ▸ known, fun _ known => .inl ?_⟩
  rwa [Knows, same] at known

theorem trans (first : shop.Passes catalog names later) (second : later.Passes catalog names last) :
    shop.Passes catalog names last := by
  refine ⟨fun id layout known => second.recalls id layout (first.recalls id layout known),
    fun id known => ?_⟩
  rcases second.assembled id known with knownBefore | isNew
  · rcases first.assembled id knownBefore with old | ⟨isName, definition, found, cleared⟩
    · exact .inl old
    · exact .inr ⟨isName, definition, found, cleared.mono fun _ => second.knows⟩
  · exact .inr isNew

end Workshop.Passes

/-- How workshops go on while plans succeed, and what is known of their drafts from then on. -/
structure Course where
  good : Workshop → Prop
  grows : Workshop → Workshop → Prop
  holds : Workshop → Shape → Draft → Prop
  refl : ∀ shop, grows shop shop
  trans : ∀ {shop later last}, grows shop later → grows later last → grows shop last
  mono : ∀ {shop later part draft}, grows shop later → holds shop part draft →
    holds later part draft

section Course

variable {course : Course}

/-- Wherever the step succeeds, the workshop has gone on well, and the draft is one of the shape. -/
def Course.Leads (course : Course) (shape : Shape) (step : Assembly Draft) : Prop :=
  ∀ shop draft later, course.good shop → step shop = .ok draft later →
    course.good later ∧ course.grows shop later ∧ course.holds later shape draft

theorem Recipe.run_eq_ok {α : Type} {recipe : Recipe α} {planOf : Shape → Plan} {value : α}
    (parts : recipe.All fun part => ∀ offset, course.Leads part (planOf part scope offset))
    (good : course.good shop) (isOk : recipe.run planOf scope shop = .ok value later) :
    course.good later ∧ course.grows shop later ∧ recipe.Yields (course.holds later) value := by
  induction recipe generalizing shop with
  | done verdict =>
    cases verdict with
    | ok =>
      cases isOk
      exact ⟨good, course.refl _, .done _⟩
    | error => cases isOk
  | draw _ offset _ ih =>
    rcases bind_eq_ok.mp isOk with ⟨draft, _, isDraft, onward⟩
    rcases parts.1 offset _ _ _ good isDraft with ⟨middleGood, grows, drawn⟩
    rcases ih draft (parts.2 draft) middleGood onward with ⟨laterGood, growsThen, yields⟩
    exact ⟨laterGood, course.trans grows growsThen, .draw (course.mono growsThen drawn) yields⟩

theorem Shape.plan_eq_ok {expand : DefId → Plan} {referentOf : DefId → Assembly LayoutId}
    (inside : ¬ shape.IsLink) (parts : ∀ part, shape.Part catalog part → ∀ offset,
      course.Leads part (part.plan machine expand referentOf scope offset))
    (good : course.good shop)
    (isOk : shape.plan machine expand referentOf scope offset shop = .ok draft later) :
    course.good later ∧ course.grows shop later ∧
      shape.Composed machine scope.totalLength offset (course.holds later) draft := by
  rw [plan_eq_run] at isOk
  rcases Recipe.run_eq_ok (all_part inside parts) good isOk with ⟨laterGood, grows, yields⟩
  exact ⟨laterGood, grows, composed_of_yields inside yields⟩

theorem Shape.composed_of_planIn {part : Shape} {holds : Draft → Prop} (inside : ¬ shape.IsLink)
    (leads : ∀ {offset shop draft later}, part.planIn catalog machine scope offset shop = .ok draft
      later → holds draft)
        (planned : shape.planIn catalog machine scope offset shop = .ok draft later) :
    shape.Composed machine scope.totalLength offset (fun other draft => other = part → holds draft)
      draft := by
  let course : Course :=
    ⟨fun _ => True, fun _ _ => True, fun _ other draft => other = part →
      holds draft, fun _ => trivial, fun _ _ => trivial, fun _ => id⟩
  have each (other : Shape) (_ : shape.Part catalog other) (offset : Nat) :
      course.Leads other (other.planIn catalog machine scope offset) := by
    refine fun _ _ _ _ isOk => ⟨trivial, trivial, ?_⟩
    rintro rfl
    exact leads isOk
  exact (plan_eq_ok inside each trivial planned).2.2

theorem Shape.planIn_named
    (planned : (named id).planIn catalog machine scope offset shop = .ok draft later) :
    ∃ definition, catalog.get? id = some definition ∧ ∀ totalLength,
      (named id).planIn catalog machine { scope with totalLength } offset =
        definition.shape.planIn catalog machine
          { inPlace := id :: scope.inPlace, underWay := id :: scope.underWay, totalLength }
            offset := by
  have isStep (scope : Scope) : (named id).planIn catalog machine scope offset =
      (catalog.step machine (catalog.calls machine)).expand id scope offset := by
    rw [← calls_eq_step]
    rfl
  rw [isStep] at planned
  rcases ofExcept_bind_eq_ok planned with ⟨definition, isDefinition, onward⟩
  dsimp only at onward
  split at onward
  · cases onward
  split at onward
  · cases onward
  rename_i notInPlace notUnderWay
  refine ⟨definition, find_eq_ok isDefinition, fun _ => ?_⟩
  rw [isStep]
  simp only [step, isDefinition, if_neg notInPlace, if_neg notUnderWay]
  rfl

end Course

section Shapes

variable {calls : Calls}

theorem StructBody.Grows.hasTail {size : Nat} {drafts : List (Placed Draft)}
    {body final : StructBody} (grows : StructBody.Grows size drafts body final) :
    ∀ draft ∈ drafts, draft.content.hasTail → final.hasTail := by
  induction grows with
  | done => exact forall_mem_nil _
  | step _ grown onward ih =>
    refine forall_mem_cons.mpr ⟨fun tail => ?_, ih⟩
    have hasTail := grown.hasTail
    rw [tail, Bool.true_or] at hasTail
    cases onward with
    | done => exact hasTail
    | step => cases grown.last hasTail

theorem Shape.Composed.part {totalLength : Option Nat} {holds : Shape → Draft → Prop}
    (composed : shape.Composed machine totalLength offset holds draft)
    (isPart : shape.Part catalog piece) :
    ∃ drawn, holds piece drawn ∧ (drawn.hasTail → draft.hasTail) := by
  have without {drawn whole : Draft} {width : Nat} (fixed : drawn.fixedSize = some width)
      (tail : drawn.hasTail) : whole.hasTail := by
    rw [(drawn.fixedSize_eq_some fixed).1] at tail
    cases tail
  have fields {whole : Draft} {size : Nat} {slot : TagSlot} {tag : Int} {ranges : List Range}
      {fields : List (Placed Shape)} {member : Pattern}
      (isVariant : Pattern.IsVariant holds machine size slot tag ranges fields member) :
      ∀ field ∈ fields, ∃ drawn, holds field.content drawn ∧ (drawn.hasTail → whole.hasTail) := by
    rcases isVariant with ⟨_, _, each, _⟩
    exact forall_of_forall₂_left each fun _ _ ⟨_, drawn, isDrawn, fixed, _⟩ =>
      ⟨drawn, isDrawn, without fixed⟩
  cases isPart with
  | @struct _ _ _ _ member =>
    cases composed with
    | struct each grows =>
      rcases exists_of_mem_left each (Placed.mem_sortByOffset.mpr member) with
        ⟨drawn, isDraft, _, isDrawn⟩
      exact ⟨drawn.content, isDrawn, grows.hasTail drawn isDraft⟩
  | @union _ _ _ _ member =>
    cases composed with
    | union _ each =>
      rcases exists_of_mem_left each member with ⟨_, _, drawn, ⟨_, isDrawn⟩, isMember⟩
      rcases unionMember_eq_ok isMember with ⟨_, fixed, _⟩
      exact ⟨drawn.content, isDrawn, without fixed⟩
  | variant isVariant member =>
    cases composed with
    | tagged _ _ each =>
      exact forall_of_forall₂_left each (fun _ _ made => fields made) _ isVariant _ member
  | @others _ _ slot _ _ _ bits inside undeclared member =>
    cases composed with
    | @tagged _ _ _ _ _ _ _ declared slotFits isDeclared _ isRest =>
      rcases isRest with ⟨_, no | nothing⟩ | ⟨_, _, isSome, _, _, made⟩
      · cases no
      · -- The bit pattern that no variant has is not declared.
        have lower : ∀ bits ∈ declared, bits < Extent.numbers slot.size := by
          intro bits isTag
          rcases (isDeclared bits).mp isTag with ⟨next, _, rfl⟩
          exact slot.twosComplement_lt next.tag
        have isUnused : bits ∉ declared := by
          intro isTag
          rcases (isDeclared bits).mp isTag with ⟨next, isNext, isBits⟩
          exact undeclared next isNext isBits
        have small := (TagSlot.check_eq_ok slotFits).2.1
        rcases (TagSlot.exists_undeclared small lower).mpr ⟨inside, isUnused⟩ with ⟨_, isRange, _⟩
        rw [nothing] at isRange
        cases isRange
      · cases isSome
        exact fields made _ member
  | element =>
    cases composed with
    | array drawn fixed => exact ⟨_, drawn, without fixed⟩
  | referent | definition => cases composed

/-- Wherever something is done for a name with success, the workshop passes and all is cleared. -/
structure Calls.Passing (catalog : Catalog) (names : DefId → Prop) (calls : Calls) : Prop where
  expand : ∀ id scope offset shop draft later,
    (∀ other, (named id).AsksFor catalog other → names other) →
      calls.expand id scope offset shop = .ok draft later →
    shop.Passes catalog names later ∧ (named id).Cleared catalog scope.underWay later
  referent : ∀ id shop layout later, names id → calls.referent id shop = .ok layout later →
    shop.Passes catalog names later ∧ later.referents.lookup id = some layout

/-- On the way through a shape workshops pass, and the parts are cleared. -/
def Course.passing (catalog : Catalog) (names : DefId → Prop) (underWay : List DefId) : Course where
  good _ := True
  grows := Workshop.Passes catalog names
  holds later part _ := part.Cleared catalog underWay later
  refl _ := .of_referents rfl
  trans := .trans
  mono passes cleared := cleared.mono fun _ => passes.knows

theorem Shape.passes_plan (passing : calls.Passing catalog names)
    (asks : ∀ other, shape.AsksFor catalog other → names other)
    (isOk : shape.plan machine calls.expand calls.referent scope offset shop = .ok draft later) :
    shop.Passes catalog names later ∧ shape.Cleared catalog scope.underWay later := by
  induction shape using recipe_induction generalizing scope offset shop draft later with
  | direct shape inside ih =>
    have leads (part : Shape) (isPart : shape.Part catalog part) (offset : Nat) :
        (Course.passing catalog names scope.underWay).Leads part
          (part.plan machine calls.expand calls.referent scope offset) := by
      intro shop draft later _ isDraft
      exact ⟨trivial, ih part (isPart.mem_parts inside)
        (fun other asked => asks other (asked.head isPart)) isDraft⟩
    rcases plan_eq_ok inside leads trivial isOk with ⟨_, passes, composed⟩
    refine ⟨passes, cleared_of_parts (fun part isPart => ?_) ?_ ?_⟩
    · rcases composed.part isPart with ⟨_, cleared, _⟩
      exact cleared
    · rintro id rfl
      exact absurd trivial inside
    · rintro id guarantee rfl
      exact absurd trivial inside
  | reference referent guarantee ih =>
    rw [plan_reference_eq] at isOk
    rcases Plan.reference_eq_ok isOk with ⟨layout, isLayout, _⟩
    by_cases isNamed : ∃ id, referent = .named id
    · rcases isNamed with ⟨id, rfl⟩
      rcases passing.referent id _ _ _ (asks id ⟨guarantee, .refl⟩) isLayout with ⟨passes, known⟩
      refine ⟨passes, cleared_of_parts ?_ (fun _ => nofun) ?_⟩
      · rintro part ⟨⟩
        rename_i notNamed
        exact absurd ⟨id, rfl⟩ notNamed
      · rintro _ _ ⟨⟩
        exact ⟨_, known⟩
    · rw [referent_of_not_named isNamed, Plan.anonymousReferent_eq] at isLayout
      rcases Plan.fill_eq_ok isLayout with ⟨_, _, middle, isDraft, defined⟩
      rcases ih (fun other asked => asks other (asked.head (.referent isNamed))) isDraft with
        ⟨passes, cleared⟩
      have reserves : shop.Passes catalog names shop.reserved := .of_referents rfl
      have defines : middle.Passes catalog names later := .of_referents (define_eq_ok defined).2
      refine ⟨(reserves.trans passes).trans defines, cleared_of_parts ?_ (fun _ => nofun) ?_⟩
      · rintro _ ⟨⟩
        exact cleared.mono fun _ => defines.knows
      · rintro id _ ⟨⟩
        exact absurd ⟨id, rfl⟩ isNamed
  | named id => exact passing.expand id _ _ _ _ _ asks isOk

def Catalog.Closes (catalog : Catalog) (names : DefId → Prop) : Prop :=
  ∀ id definition, names id → catalog.get? id = some definition →
    ∀ other, definition.shape.AsksFor catalog other → names other

variable (closes : catalog.Closes names)

include closes

theorem Catalog.passing_step (passing : calls.Passing catalog names) :
    (catalog.step machine calls).Passing catalog names := by
  refine ⟨fun id scope offset shop draft later asks isOk => ?_,
    fun id shop layout later isName isOk => ?_⟩
  · rcases step_expand_eq_ok isOk with ⟨definition, found, isIdle, isDraft⟩
    have isPart : (named id).Part catalog definition.shape := .definition found
    rcases passes_plan passing (fun other asked => asks other (asked.head isPart)) isDraft with
      ⟨passes, cleared⟩
    refine ⟨passes, cleared_of_parts ?_ ?_ (fun _ _ => nofun)⟩
    · rintro part ⟨⟩
      rename_i foundToo
      rw [found, Option.some.injEq] at foundToo
      subst foundToo
      exact cleared.fewer fun _ => mem_cons_of_mem _
    · rintro _ ⟨⟩
      refine ⟨isIdle, fun other foundToo => ?_⟩
      rw [found, Option.some.injEq] at foundToo
      subst foundToo
      exact cleared.apart id mem_cons_self
  · rcases step_referent_eq_ok isOk with ⟨known, rfl⟩ | ⟨unknown, definition, found, filled⟩
    · exact ⟨.of_referents rfl, known⟩
    rcases Plan.fill_eq_ok filled with ⟨rfl, draft, last, isDraft, defined⟩
    rcases passes_plan passing (closes id definition isName found) isDraft with ⟨passes, cleared⟩
    have defines : last.Passes catalog names later := .of_referents (define_eq_ok defined).2
    have passesThen := passes.trans defines
    have opened := Workshop.opened_begun unknown
    refine ⟨⟨fun other layout known => passesThen.recalls other layout
      ((opened.lookup other layout).mpr (.inl known)), fun other known => ?_⟩,
      passesThen.recalls id _ ((opened.lookup id _).mpr (.inr ⟨rfl, rfl⟩))⟩
    rcases passesThen.assembled other known with knownBefore | isNew
    · rcases Workshop.knows_begun.mp knownBefore with rfl | old
      · exact .inr ⟨isName, definition, found, cleared.mono fun _ => defines.knows⟩
      · exact .inl old
    · exact .inr isNew

theorem Catalog.passing_calls : (catalog.calls machine).Passing catalog names :=
  catalog.calls_induction machine ⟨fun _ _ _ _ _ _ _ => nofun, fun _ _ _ _ _ => nofun⟩ fun _ =>
    passing_step closes

omit closes in
theorem Shape.passes_planIn
    (isOk : shape.planIn catalog machine scope offset shop = .ok draft later) :
    shop.Passes catalog (fun _ => True) later ∧ shape.Cleared catalog scope.underWay later :=
  passes_plan (passing_calls fun _ _ _ _ _ _ => trivial) (fun _ _ => trivial) isOk

end Shapes

namespace Shape

variable {known : DefId → Prop}

/-- What has been assembled does not come upon a definition within itself. -/
theorem not_reenters (passes : shop.Passes catalog names later)
    (cleared : shape.Cleared catalog [] later) :
    ¬ shape.Reenters catalog shop.Knows := by
  have fresh {id : DefId} {definition : Definition} (found : catalog.get? id = some definition)
      (isNew : ¬ shop.Knows id) (known : later.Knows id) : definition.shape.Cleared catalog [id]
      later := by
    rcases passes.assembled id known with old | ⟨_, _, foundToo, done⟩
    · exact absurd old isNew
    · rw [found, Option.some.injEq] at foundToo
      exact foundToo ▸ done
  have leads {piece : Shape} (inner : ReflTransGen (Leads catalog shop.Knows) shape piece) :
      piece.Cleared catalog [] later := by
    induction inner with
    | refl => exact cleared
    | tail _ leads ih =>
      cases leads with
      | part isPart => exact ih.part isPart
      | named found isNew =>
        exact (fresh found isNew (ih.asked _ ⟨_, .refl⟩)).fewer (forall_mem_nil _)
  intro reenters
  cases reenters with
  | inPlace found enters again => exact (leads enters).inner _ _ found .refl again
  | referent found isNew enters again =>
    exact (fresh found isNew ((leads enters).asked _ ⟨_, .refl⟩)).apart _ (mem_singleton_self _)
      again

/-- Every assembly comes to an end: nothing is done more than `(n + 1) * (n + 1)` calls deep, where
`n` is the number of definitions, so that it does not matter what would be done there. And if the
way through a shape comes upon a definition within itself, with no named referent in between, then
the end is a defect. -/
theorem assemble_ends (shape : Shape) (catalog : Catalog) (machine : Machine)
    (totalLength : Option Nat) (shop : Workshop) :
    (∀ beyond depth, (catalog.size + 1) * (catalog.size + 1) ≤ depth →
      shape.assembleBy machine ((catalog.step machine)^[depth] beyond) totalLength shop =
        shape.assemble catalog machine totalLength shop) ∧
    (shape.Reenters catalog shop.Knows →
      ∃ defect later, shape.assemble catalog machine totalLength shop = .error defect later) := by
  refine ⟨fun beyond _ deep => ?_, fun reenters => ?_⟩
  · rw [catalog.iterate_step machine beyond deep, assembleBy_calls]
  · rcases assembled : shape.assemble catalog machine totalLength shop with
      ⟨_, later⟩ | ⟨defect, later⟩
    · rcases assemble_eq_ok assembled with ⟨_, _, isDraft, _⟩
      rcases passes_planIn isDraft with ⟨passes, cleared⟩
      exact absurd reenters (not_reenters passes cleared)
    · exact ⟨defect, later, rfl⟩

end Shape

/-- Two definitions that contain each other, one of them behind a reference without a name. -/
def Catalog.entangled : Catalog where
  entries :=
    [(⟨0⟩, ⟨"Handle",
        .struct 8 8 [⟨0, .reference (.struct 8 8 [⟨0, .named ⟨1⟩⟩]) ⟨8, .shared, .static⟩⟩]⟩),
      (⟨1⟩, ⟨"Owner", .struct 8 8 [⟨0, .named ⟨0⟩⟩]⟩)]
  next := 2

theorem Shape.reenters_entangled :
    (reference (.named ⟨0⟩) ⟨8, .shared, .static⟩).Reenters .entangled ({} : Workshop).Knows := by
  refine .referent rfl (by rintro ⟨_, ⟨⟩⟩) .refl ?_
  refine .head (.struct mem_cons_self) (.head (.referent (by rintro ⟨_, ⟨⟩⟩)) ?_)
  refine .head (.struct mem_cons_self) ?_
  have owner : (named ⟨1⟩).Part .entangled (.struct 8 8 [⟨0, .named ⟨0⟩⟩]) :=
    @Part.definition .entangled ⟨1⟩ ⟨"Owner", .struct 8 8 [⟨0, .named ⟨0⟩⟩]⟩ rfl
  exact .head owner (.single (.struct mem_cons_self))

/-- A reference to one of them cannot be assembled, and nine calls within each other show it. -/
theorem Shape.assemble_ends_entangled :
    let shape : Shape := .reference (.named ⟨0⟩) ⟨8, .shared, .static⟩
    shape.Reenters .entangled ({} : Workshop).Knows ∧
    (∀ beyond, shape.assembleBy {} ((Catalog.entangled.step {})^[9] beyond) none {} =
      shape.assemble .entangled {} none {}) ∧
    ∃ defect later, shape.assemble .entangled {} none {} = .error defect later := by
  intro shape
  have ends := assemble_ends shape .entangled {} none {}
  exact ⟨reenters_entangled, fun beyond => ends.1 beyond 9 (by decide), ends.2 reenters_entangled⟩

end Recast
