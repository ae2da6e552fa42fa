import Recast.Proofs.Assembly.Sound

/-!
# Sound plans

Carrying out a recipe keeps a workshop sound if the plans of the parts do (`Shape.ensures_plan`),
and a draft that is put together from sound ones is sound (`Shape.Composed.sound`). The layouts of
plain shapes, in which no reference and no region under safety invariants can be met, hold cells
only.
-/

namespace Recast

open Extent List

variable {plain : Prop} {scope : Scope} {shop : Workshop} {machine : Machine} {shape : Shape}

namespace Shape

/-- Every size that the shape states is a number of a machine word. -/
inductive FitsWords : Shape → Prop
  | scalar {number : Scalar} (inside : number.size ≤ cap) : FitsWords (.scalar number)
  | struct {size align : Nat} {fields : List (Placed Shape)} (inside : size ≤ cap)
      (each : ∀ field ∈ fields, FitsWords field.content) : FitsWords (.struct size align fields)
  | union {size align : Nat} {fields : List (Placed Shape)} (inside : size ≤ cap)
      (each : ∀ field ∈ fields, FitsWords field.content) : FitsWords (.union size align fields)
  | tagged {size align : Nat} {slot : TagSlot} {variants : List (Variant Shape)}
      {others : Option (List (Placed Shape))} (inside : size ≤ cap)
      (each : ∀ variant ∈ variants, ∀ field ∈ variant.fields, FitsWords field.content)
      (rest : ∀ fields, others = some fields → ∀ field ∈ fields, FitsWords field.content) :
      FitsWords (.tagged size align slot variants others)
  | array {element : Shape} (count : Count) (words : FitsWords element) :
      FitsWords (.array element count)
  | reference {referent : Shape} (guarantee : Guarantee) (words : FitsWords referent) :
      FitsWords (.reference referent guarantee)
  | sealed {name : String} {size align : Nat} (inside : size ≤ cap) :
      FitsWords (.sealed name size align)
  | named (id : DefId) : FitsWords (.named id)

/-- The shape is made of scalars only, by way of structs, unions, tagged shapes, arrays and
definitions of the catalog. -/
inductive Plain (catalog : Catalog) : Shape → Prop
  | scalar (number : Scalar) : Plain catalog (.scalar number)
  | struct {size align : Nat} {fields : List (Placed Shape)}
      (each : ∀ field ∈ fields, Plain catalog field.content) :
      Plain catalog (.struct size align fields)
  | union {size align : Nat} {fields : List (Placed Shape)}
      (each : ∀ field ∈ fields, Plain catalog field.content) :
      Plain catalog (.union size align fields)
  | tagged {size align : Nat} {slot : TagSlot} {variants : List (Variant Shape)}
      {others : Option (List (Placed Shape))}
      (each : ∀ variant ∈ variants, ∀ field ∈ variant.fields, Plain catalog field.content)
      (rest : ∀ fields, others = some fields → ∀ field ∈ fields, Plain catalog field.content) :
      Plain catalog (.tagged size align slot variants others)
  | array {element : Shape} {count : Count} (plain : Plain catalog element) :
      Plain catalog (.array element count)
  | named {id : DefId}
      (each : ∀ definition, catalog.get? id = some definition → Plain catalog definition.shape) :
      Plain catalog (.named id)

theorem FitsWords.inside (words : shape.FitsWords) : shape.statedSize ≤ cap := by
  cases words with
  | scalar inside | struct inside | union inside | tagged inside | sealed inside => exact inside
  | array | reference | named => exact Nat.zero_le _

theorem FitsWords.parts (words : shape.FitsWords) : ∀ part ∈ shape.parts, part.FitsWords := by
  cases words with
  | struct _ each | union _ each => exact forall_mem_map.mpr each
  | tagged _ each rest => exact forall_parts_tagged.mpr ⟨each, rest⟩
  | array _ words => exact forall_mem_singleton.mpr words
  | scalar | sealed | reference | named => exact forall_mem_nil _

mutual

/-- Whether every size that the shape states is a number of a machine word. -/
def fits : Shape → Bool
  | scalar number => number.size ≤ cap
  | struct size _ fields | union size _ fields => size ≤ cap && fitFields fields
  | tagged size _ _ variants others => size ≤ cap && fitVariants variants && fitOthers others
  | array shape _ | reference shape _ => shape.fits
  | sealed _ size _ => size ≤ cap
  | named _ => true

def fitFields : List (Placed Shape) → Bool
  | [] => true
  | ⟨_, shape⟩ :: rest => shape.fits && fitFields rest

def fitVariants : List (Variant Shape) → Bool
  | [] => true
  | ⟨_, fields⟩ :: rest => fitFields fields && fitVariants rest

def fitOthers : Option (List (Placed Shape)) → Bool
  | none => true
  | some fields => fitFields fields

end

theorem fitFields_eq (fields : List (Placed Shape)) :
    fitFields fields = fields.all (·.content.fits) := by
  induction fields with
  | nil => rfl
  | cons _ _ ih => rw [fitFields, ih, all_cons]

theorem fitVariants_eq (variants : List (Variant Shape)) :
    fitVariants variants = variants.all (fitFields ·.fields) := by
  induction variants with
  | nil => rfl
  | cons _ _ ih => rw [fitVariants, ih, all_cons]

theorem FitsWords.of_fits {shape : Shape} (fits : shape.fits) : shape.FitsWords := by
  induction shape using parts_induction <;>
    simp only [Shape.fits, fitFields_eq, fitVariants_eq, Bool.and_eq_true, decide_eq_true_eq,
      all_eq_true] at fits
  case scalar => exact .scalar fits
  case struct ih => exact .struct fits.1 fun field member => ih field member (fits.2 field member)
  case union ih => exact .union fits.1 fun field member => ih field member (fits.2 field member)
  case tagged ih ihOthers =>
    refine .tagged fits.1.1 (fun variant isVariant field member => ih variant isVariant field member
      (fits.1.2 variant isVariant field member)) ?_
    rintro fields rfl field member
    simp only [fitOthers, fitFields_eq, all_eq_true] at fits
    exact ihOthers fields rfl field member (fits.2 field member)
  case array ih => exact .array _ (ih fits)
  case reference ih => exact .reference _ (ih fits)
  case sealed => exact .sealed fits
  case named => exact .named _

theorem Plain.parts {catalog : Catalog} (plain : shape.Plain catalog) :
    ∀ part ∈ shape.parts, part.Plain catalog := by
  cases plain with
  | struct each | union each => exact forall_mem_map.mpr each
  | tagged each rest => exact forall_parts_tagged.mpr ⟨each, rest⟩
  | array plain => exact forall_mem_singleton.mpr plain
  | scalar | named => exact forall_mem_nil _

end Shape

def Scope.FitsWords (scope : Scope) : Prop :=
  ∀ length, scope.totalLength = some length → length ≤ cap

/-- From a sound workshop on, the plan leads to a sound workshop and a sound draft. -/
def Plan.Sound (plain : Prop) (plan : Plan) : Prop :=
  ∀ scope offset shop, scope.FitsWords → shop.Sound plain →
    Assembly.Ensures plain shop.size (plan scope offset) shop fun draft later =>
      draft.Sound plain later.size

/-- From a sound workshop on, the step leads to a sound workshop and one of its layouts. -/
def Assembly.Refers (plain : Prop) (step : Assembly LayoutId) : Prop :=
  ∀ shop, shop.Sound plain →
    Assembly.Ensures plain shop.size step shop fun id later => id.index < later.size

section Recipes

open Assembly

variable {bound : Nat} (good : Workshop → Prop) (holds : Workshop → Shape → Draft → Prop)

theorem Recipe.ensures_run {α : Type} {recipe : Recipe α} {planOf : Shape → Plan}
    (mono : ∀ shop later, shop.Extends bound later → ∀ part draft,
      holds shop part draft → holds later part draft)
    (parts : recipe.All fun part => ∀ offset shop, shop.Sound plain → good shop →
      Ensures plain shop.size (planOf part scope offset) shop fun draft later =>
        good later ∧ holds later part draft)
    (sound : shop.Sound plain) (isGood : good shop) (low : bound ≤ shop.size) :
    Ensures plain bound (recipe.run planOf scope) shop fun value later =>
      good later ∧ recipe.Yields (holds later) value := by
  induction recipe generalizing shop with
  | done verdict =>
    cases verdict with
    | ok value => exact ensures_pure sound ⟨isGood, .done value⟩
    | error defect => exact ensures_throw sound (parts defect rfl)
  | draw part offset _ ih =>
    refine ((parts.1 offset shop sound isGood).mono low fun _ _ _ made => made).bind ?_
    rintro draft later grows laterSound ⟨laterGood, drawn⟩
    refine (ih draft (parts.2 draft) laterSound laterGood (le_trans low grows.grown)).mono le_rfl ?_
    rintro _ last lastGrows ⟨lastGood, yields⟩
    exact ⟨lastGood, .draw (mono later last lastGrows part draft drawn) yields⟩

theorem Shape.ensures_plan {expand : DefId → Plan} {referentOf : DefId → Assembly LayoutId}
    (inside : ¬ shape.IsLink) (offset : Nat)
    (mono : ∀ shop later, shop.Extends bound later → ∀ part draft,
      holds shop part draft → holds later part draft)
    (parts : ∀ part ∈ shape.parts, ∀ offset shop, shop.Sound plain → good shop →
      Ensures plain shop.size (part.plan machine expand referentOf scope offset) shop
        fun draft later =>
        good later ∧ holds later part draft) (sound : shop.Sound plain) (isGood : good shop)
    (low : bound ≤ shop.size) :
    Ensures plain bound (shape.plan machine expand referentOf scope offset) shop fun draft later =>
      good later ∧ shape.Composed machine scope.totalLength offset (holds later) draft := by
  rw [Shape.plan_eq_run]
  refine (Recipe.ensures_run good holds mono (Shape.all_recipe inside parts) sound isGood low).mono
    le_rfl ?_
  rintro _ _ _ ⟨laterGood, yields⟩
  exact ⟨laterGood, Shape.composed_of_yields inside yields⟩

end Recipes

/-- A draft is sound if it is put together from sound ones. -/
theorem Shape.Composed.sound {catalog : Catalog} {totalLength : Option Nat} {offset layouts : Nat}
    {draft : Draft} (words : shape.FitsWords)
    (known : ∀ length, totalLength = some length → length ≤ cap)
    (isPlain : plain → shape.Plain catalog)
    (composed : shape.Composed machine totalLength offset (fun _ draft => draft.Sound plain layouts)
      draft) :
    draft.Sound plain layouts where
  shaped := composed.shaped words.inside known fun _ _ sound => sound.shaped
  leaves := by
    refine composed.leaves Token.admitted_uninit (fun _ some => ⟨some, fun _ => ⟨_, rfl⟩⟩) ?_
      fun _ _ sound => sound.leaves
    rintro _ _ _ rfl
    exact ⟨trivial, fun yes => by cases isPlain yes⟩

namespace Plan

open Assembly

theorem Sound.ensures_fill {plan : Plan} {layout : LayoutId} (isSound : plan.Sound plain)
    (words : scope.FitsWords) (sound : shop.Sound plain) (blank : shop.Blank layout) :
    Ensures plain layout.index (plan.fill scope layout) shop fun id later =>
      id.index < later.size := by
  refine ((isSound scope 0 shop words sound).mono (le_of_lt blank.inside)
    fun _ _ grows draftSound =>
    And.intro (blank.kept grows blank.inside) draftSound).bind ?_
  rintro _ _ _ laterSound ⟨stillBlank, draftSound⟩
  refine (ensures_define laterSound stillBlank le_rfl draftSound.shaped draftSound.leaves).bind ?_
  exact fun _ _ _ finalSound inside => ensures_pure finalSound inside

theorem Sound.exists_fill {plan : Plan} {layout : LayoutId} {draft : Draft} {later : Workshop}
    (isSound : plan.Sound False) (words : scope.FitsWords) (sound : shop.Sound False)
    (blank : shop.Blank layout) (planned : plan scope 0 shop = .ok draft later) :
    ∃ last, plan.fill scope layout shop = .ok layout last ∧
      later.Settles layout draft.pattern.size last := by
  rcases (isSound scope 0 shop words sound).ok planned with ⟨grows, laterSound, draftSound⟩
  rcases exists_define laterSound (blank.kept grows blank.inside) draftSound.shaped
    draftSound.leaves with
    ⟨last, defined, settles⟩
  refine ⟨last, ?_, settles⟩
  rw [fill, bind_of_ok planned, bind_of_ok defined]
  rfl

theorem refers_anonymousReferent {referent : Plan} (isSound : referent.Sound plain) :
    Assembly.Refers plain (anonymousReferent referent scope) := by
  intro shop sound
  rcases sound.opened shop.opened_reserved with ⟨reservedSound, blank, begins⟩
  exact (isSound.ensures_fill (by simp [Scope.FitsWords]) reservedSound blank).opened begins
    (anonymousReferent_eq referent scope shop)

theorem ensures_reference {guarantee : Guarantee} {referent : Assembly LayoutId}
    (notPlain : ¬ plain) (inside : machine.pointerSize ≤ cap)
    (refers : Assembly.Refers plain referent) (sound : shop.Sound plain) :
    Ensures plain shop.size (Plan.reference machine guarantee referent) shop
      fun draft later => draft.Sound plain later.size := by
  refine ensures_ofExcept_bind sound (sensible_requirePowerOfTwo _) ?_
  intro _ _
  refine (refers shop sound).bind ?_
  intro _ later _ laterSound isLayout
  refine ⟨.refl later, laterSound, .inl ⟨_, rfl, ?_⟩, isLayout,
    fun isPlain => absurd isPlain notPlain⟩
  simp only [Token.width]
  split
  · exact inside
  · exact Nat.min_le_right _ _

end Plan

end Recast
