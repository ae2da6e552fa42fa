import Recast.Proofs.Assembly.Shapes
import Recast.Proofs.Assembly.Tells

/-!
# The drafts of shapes

Whatever passes from the parts of a shape to the whole (`Draft.Passes`) holds of each shape and the
draft that its plan leads to (`Shape.draws_planIn`). The widths of references are settled as soon as
no named referent is under assembly.
-/

namespace Recast

open Catalog Shape

variable {catalog : Catalog} {machine : Machine} {shop : Workshop} {shape : Shape}

/-- What passes from the parts of a shape to the whole. It may depend on whether the widths of all
references are settled; that of a reference is then known from its referent. -/
structure Draft.Passes (catalog : Catalog) (machine : Machine)
    (holds : (settled : Prop) → Shape → Draft → Prop) : Prop where
  unsized {settled : Prop} {shape : Shape} {draft : Draft} (drawn : holds settled shape draft) :
    draft.pattern.size = none ↔ shape.Unsized catalog machine
  composed {settled : Prop} {shape : Shape} {draft : Draft} {offset : Nat} (words : shape.FitsWords)
    (shaped : draft.pattern.Shaped)
    (composed : shape.Composed machine none offset (holds settled) draft) :
    holds settled shape draft
  reference {settled : Prop} {referent : Shape} {guarantee : Guarantee} {layout : LayoutId}
    {width : Nat} {size : Option Nat} (isWidth : width = if size.isSome then machine.pointerSize
      else Extent.satMul machine.pointerSize 2)
    (isUnsized : settled → (size = none ↔ referent.Unsized catalog machine)) :
    holds settled (.reference referent guarantee)
      { pattern := .leaf (.reference ⟨guarantee, layout, width⟩), align := machine.pointerSize }
  named {settled : Prop} {id : DefId} {definition : Definition} {draft : Draft}
    (found : catalog.get? id = some definition) (drawn : holds settled definition.shape draft) :
    holds settled (.named id) draft

/-- The plan is sound, and it draws the shape: its draft is related to the shape unless the length
of a tail is settled from outside. -/
structure Plan.Draws (catalog : Catalog) (machine : Machine)
    (holds : (settled : Prop) → Shape → Draft → Prop)
    (shape : Shape) (plan : Plan) : Prop where
  sound : plan.Sound False
  draws : ∀ underway scope offset shop, scope.FitsWords → shop.Sound False →
    shop.Tells catalog machine underway → Assembly.Ensures False shop.size (plan scope offset) shop
      fun draft later => later.Tells catalog machine underway ∧
        (scope.totalLength = none → holds underway.Settled shape draft)

structure Assembly.Depicts (catalog : Catalog) (machine : Machine) (referent : Shape)
    (step : Assembly LayoutId) :
    Prop where
  refers : Assembly.Refers False step
  tells : ∀ underway shop, shop.Sound False → shop.Tells catalog machine underway →
    Assembly.Ensures False shop.size step shop fun id later =>
      later.Tells catalog machine underway ∧ (underway.Settled →
        ((later.arena.layout id).size = none ↔ referent.Unsized catalog machine))

section Referents

open Assembly

variable {holds : (settled : Prop) → Shape → Draft → Prop} {underway : Underway}

theorem Plan.Draws.ensures_fill {target : Shape} {plan : Plan} {scope : Scope} {name : Option DefId}
    {layout : LayoutId} (draws : plan.Draws catalog machine holds shape)
    (unsettled : scope.totalLength = none) (sound : shop.Sound False)
    (tells : shop.Tells catalog machine ((name, layout) :: underway)) (blank : shop.Blank layout)
    (named : ∀ id, name = some id → target = .named id)
    (right : ∀ settled draft, holds settled shape draft →
      (draft.pattern.size = none ↔ target.Unsized catalog machine)) :
    Ensures False layout.index (plan.fill scope layout) shop fun id later =>
      later.Tells catalog machine underway ∧
        ((later.arena.layout id).size = none ↔ target.Unsized catalog machine) := by
  have words : scope.FitsWords := by simp [Scope.FitsWords, unsettled]
  have planned :=
    (draws.draws _ scope 0 shop words sound tells).and (draws.sound scope 0 shop words sound)
  refine (planned.mono (le_of_lt blank.inside) fun _ _ grows post =>
    And.intro (blank.kept grows blank.inside) post).bind ?_
  rintro draft _ _ laterSound ⟨stillBlank, ⟨laterTells, drawn⟩, draftSound⟩
  have isRight := right _ draft (drawn unsettled)
  refine (ensures_define_tells laterSound laterTells stillBlank le_rfl draftSound.shaped
    draftSound.leaves fun id isName => named id isName ▸ isRight).bind ?_
  rintro _ _ _ finalSound ⟨finalTells, size⟩
  exact ensures_pure finalSound ⟨finalTells, size ▸ isRight⟩

theorem Plan.depicts_anonymousReferent (passes : Draft.Passes catalog machine holds)
    {referent : Shape} {plan : Plan} {scope : Scope}
    (draws : plan.Draws catalog machine holds referent) :
    Depicts catalog machine referent (anonymousReferent plan scope) := by
  refine ⟨refers_anonymousReferent draws.sound, fun _ shop sound tells => ?_⟩
  have opened := shop.opened_reserved
  rcases sound.opened opened with ⟨reservedSound, blank, begins⟩
  refine ((draws.ensures_fill rfl reservedSound (tells.opened sound opened) blank (fun _ => nofun)
    fun _ _ drawn => passes.unsized drawn).opened begins
    (anonymousReferent_eq plan scope shop)).mono le_rfl fun _ _ _ post => ⟨post.1, fun _ => post.2⟩

theorem Plan.ensures_drawsReference (passes : Draft.Passes catalog machine holds) {referent : Shape}
    {guarantee : Guarantee} {step : Assembly LayoutId}
    (depicts : Depicts catalog machine referent step) (sound : shop.Sound False)
    (tells : shop.Tells catalog machine underway) :
    Ensures False shop.size (Plan.reference machine guarantee step) shop fun draft later =>
      later.Tells catalog machine underway ∧ holds underway.Settled (.reference referent guarantee)
        draft := by
  refine ensures_ofExcept_bind sound (sensible_requirePowerOfTwo _) ?_
  intro _ _
  refine (depicts.tells underway shop sound tells).bind ?_
  rintro layout later _ laterSound ⟨laterTells, isUnsized⟩
  refine ⟨.refl later, laterSound, laterTells, ?_⟩
  refine passes.reference ?_ isUnsized
  cases (later.arena.layout layout).size <;> rfl

end Referents

section Shapes

open Assembly Plan

variable {holds : (settled : Prop) → Shape → Draft → Prop} {calls : Calls}

/-- What is done for names draws their definitions and leads to layouts of them. -/
structure Calls.Draws (catalog : Catalog) (machine : Machine)
    (holds : (settled : Prop) → Shape → Draft → Prop) (calls : Calls) : Prop where
  expand : ∀ id, (calls.expand id).Draws catalog machine holds (.named id)
  referent : ∀ id, Depicts catalog machine (.named id) (calls.referent id)

theorem Calls.Draws.isSound (draws : calls.Draws catalog machine holds) :
    calls.Sound False catalog :=
  ⟨fun id _ => (draws.expand id).sound, fun _ id => (draws.referent id).refers⟩

variable (passes : Draft.Passes catalog machine holds)
include passes

section

variable (inside : machine.FitsWords)
include inside

theorem Shape.draws_plan (draws : calls.Draws catalog machine holds) (words : shape.FitsWords) :
    (shape.plan machine calls.expand calls.referent).Draws catalog machine holds shape := by
  have isSound {shape : Shape} (words : shape.FitsWords) :=
    sound_plan inside draws.isSound words False.elim
  induction shape using recipe_induction with
  | direct _ direct ih =>
    refine ⟨isSound words, fun underway scope offset shop known sound tells => ?_⟩
    have planned := ensures_plan (fun later => later.Tells catalog machine underway)
      (fun _ part draft => scope.totalLength = none → holds underway.Settled part draft) direct
      offset (fun _ _ _ _ _ drawn => drawn)
      (fun part isPart offset shop => (ih part isPart (words.parts part isPart)).draws underway
        scope offset shop known) sound tells le_rfl
    refine (planned.and (isSound words scope offset shop known sound)).mono le_rfl ?_
    rintro _ _ _ ⟨⟨laterTells, composed⟩, draftSound⟩
    refine ⟨laterTells, fun unsettled => ?_⟩
    simp only [unsettled, forall_const] at composed
    exact passes.composed words draftSound.shaped composed
  | reference referent _ ih =>
    refine ⟨isSound words, fun _ scope _ _ _ sound tells => ?_⟩
    rw [plan_reference_eq]
    have depicts : Depicts catalog machine referent
        (referent.referent machine calls.expand calls.referent scope) := by
      by_cases isNamed : ∃ id, referent = .named id
      · rcases isNamed with ⟨id, rfl⟩
        exact draws.referent id
      · rw [referent_of_not_named isNamed]
        cases words with
        | reference _ referentWords => exact depicts_anonymousReferent passes (ih referentWords)
    exact (ensures_drawsReference passes depicts sound tells).mono le_rfl
      fun _ _ _ post => ⟨post.1, fun _ => post.2⟩
  | named id => exact draws.expand id

theorem Catalog.draws_step (words : catalog.FitsWords) (draws : calls.Draws catalog machine holds) :
    (catalog.step machine calls).Draws catalog machine holds := by
  have isSound := sound_step inside words draws.isSound
  refine ⟨fun id =>
    ⟨isSound.expand id False.elim, fun underway scope offset shop scopeWords sound tells => ?_⟩,
      fun id => ⟨isSound.referent not_false id, fun underway shop sound tells => ?_⟩⟩
  · refine ensures_ofExcept_bind sound (sensible_find id) fun definition isDefinition => ?_
    have found := find_eq_ok isDefinition
    refine ensures_unless sound not_false fun _ => ensures_unless sound not_false fun _ => ?_
    have planDraws := draws_plan passes inside draws (words id definition found)
    refine (planDraws.draws underway { scope with
      inPlace := id :: scope.inPlace, underWay := id :: scope.underWay } offset shop scopeWords
      sound tells).mono le_rfl fun draft later _ post => ?_
    exact ⟨post.1, fun unsettled => passes.named found (post.2 unsettled)⟩
  · rcases known : shop.referents.lookup id with _ | layout
    · rcases found : catalog.get? id with _ | definition
      · rw [Ensures, step_of_undefined known found]
        exact ⟨.refl _, sound, not_false⟩
      have planDraws := draws_plan passes inside draws (words id definition found)
      have opened := Workshop.opened_begun known
      rcases sound.opened opened with ⟨begunSound, blank, begins⟩
      refine ((planDraws.ensures_fill rfl begunSound (tells.opened sound opened) blank
        (by rintro _ ⟨⟩; rfl) fun _ _ drawn => passes.unsized (passes.named found drawn)).opened
        begins (step_of_found known found)).mono le_rfl fun _ _ _ post => ⟨post.1, fun _ => post.2⟩
    · -- A referent that is known is told apart, unless it is under assembly.
      rw [Ensures, step_of_known known]
      refine ⟨.refl _, sound, tells, fun settled => ⟨tells.unsized id layout known, ?_⟩⟩
      exact tells.sized id layout known (settled id layout)

theorem Catalog.draws_calls (words : catalog.FitsWords) :
    (catalog.calls machine).Draws catalog machine holds := by
  have start : Calls.failing.Draws catalog machine holds :=
    ⟨fun _ => ⟨fun _ _ _ _ sound => ensures_throw sound not_false,
      fun _ _ _ _ _ sound _ => ensures_throw sound not_false⟩,
      fun _ => ⟨fun _ sound => ensures_throw sound not_false,
        fun _ _ sound _ => ensures_throw sound not_false⟩⟩
  exact catalog.calls_induction machine start fun _ => draws_step passes inside words

theorem Shape.draws_planIn (catalogWords : catalog.FitsWords) (words : shape.FitsWords) :
    (shape.planIn catalog machine).Draws catalog machine holds shape :=
  draws_plan passes inside (draws_calls passes inside catalogWords) words

theorem Shape.ensures_assemble_tells {totalLength : Option Nat} (catalogWords : catalog.FitsWords)
    (words : shape.FitsWords)
    (lengthWords : ∀ length, totalLength = some length → length ≤ Extent.cap)
    (sound : shop.Sound False) (tells : shop.Tells catalog machine []) :
    Ensures False shop.size (shape.assemble catalog machine totalLength) shop
      fun _ later => later.Tells catalog machine [] := by
  have draws := draws_planIn passes inside catalogWords words
  have planned := (draws.draws [] { totalLength } 0 shop lengthWords sound tells).and
    (draws.sound { totalLength } 0 shop lengthWords sound)
  refine planned.bind ?_
  rintro draft later grows laterSound ⟨⟨laterTells, _⟩, draftSound⟩
  have opened := later.opened_reserved
  rcases laterSound.opened opened with ⟨reservedSound, blank, begins⟩
  have leaves := draftSound.leaves.mono fun _ admitted => admitted.mono begins.grown
  let own : LayoutId := ⟨later.size⟩
  have defines : Ensures False later.size (define own draft.pattern >>= fun _ => pure own)
      later.reserved fun _ last => last.Tells catalog machine [] :=
    (ensures_define_tells reservedSound (laterTells.opened laterSound opened) blank le_rfl
      draftSound.shaped leaves (fun _ => nofun)).bind
      fun _ _ _ finalSound finalTells => ensures_pure finalSound finalTells.1
  exact (defines.opened begins rfl).mono grows.grown fun _ _ _ finalTells => finalTells

end

end Shapes

end Recast
