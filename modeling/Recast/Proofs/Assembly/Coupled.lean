import Recast.Proofs.Arena.Corresponds
import Recast.Proofs.Assembly.Unfold

/-!
# Two assemblies side by side

Two assemblies are coupled if either both fail, for the same reason, or both lead to the same, but
for the layouts of referents. Which layouts stand for each other is a matter of the `Coupling`, as
is what is known of the two workshops on the way.
-/

namespace Recast

open List Pattern Shape Placed

variable {size align offset : Nat} {fields images : List (Placed Plan)} {scope scopeToo : Scope}
  {machine : Machine} {draft : Draft} {body image : StructBody}

structure Coupling where
  /-- What is known of the workshops as long as all goes well. -/
  linked : Workshop → Workshop → Prop
  failed : Workshop → Workshop → Prop
  twins : Workshop → Workshop → LayoutId → LayoutId → Prop
  grows : Workshop → Workshop → Prop
  scopes : Scope → Scope → Prop
  failed_of_linked {first second : Workshop} : linked first second → failed first second
  grows_refl (shop : Workshop) : grows shop shop
  grows_trans {shop later last : Workshop} : grows shop later → grows later last → grows shop last
  twins_mono {first second later laterToo : Workshop} {layout image : LayoutId} : grows first
    later → grows second laterToo → twins first second layout image →
    twins later laterToo layout image
  size_eq {first second : Workshop} {layout image : LayoutId} : linked first second →
    twins first second layout image → (first.arena.layout layout).size =
      (second.arena.layout image).size
  totalLength_eq {scope image : Scope} : scopes scope image → scope.totalLength = image.totalLength

section Values

variable (layouts : LayoutId → LayoutId → Prop)

structure Draft.Mirrors (draft image : Draft) : Prop where
  pattern : draft.pattern.Mirrors layouts image.pattern
  align : draft.align = image.align
  hasTail : draft.hasTail = image.hasTail

structure StructBody.Mirrors (body image : StructBody) : Prop where
  parts : Forall₂ (Pattern.Mirrors layouts) body.parts image.parts
  stop : body.stop = image.stop
  hasTail : body.hasTail = image.hasTail

structure VariantPart.Mirrors (part image : VariantPart) : Prop where
  size : part.size = image.size
  pattern : part.pattern.Mirrors layouts image.pattern

structure Placed.Related {α β : Type} (related : α → β → Prop) (item : Placed α)
    (image : Placed β) : Prop where
  offset : item.offset = image.offset
  content : related item.content image.content

end Values

section Steps

variable {layouts : LayoutId → LayoutId → Prop}

theorem Draft.Mirrors.fixedSize_eq {image : Draft} (mirrors : draft.Mirrors layouts image) :
    draft.fixedSize = image.fixedSize := by
  simp only [Draft.fixedSize, mirrors.hasTail, mirrors.pattern.size_eq]

theorem Draft.Mirrors.mono {more : LayoutId → LayoutId → Prop} {image : Draft}
    (imp : ∀ layout other, layouts layout other → more layout other)
    (mirrors : draft.Mirrors layouts image) :
    draft.Mirrors more image :=
  ⟨mirrors.pattern.mono imp, mirrors.align, mirrors.hasTail⟩

theorem Verdict.related_self {α : Type} {related : α → α → Prop} {verdict : Except Defect α}
    (each : ∀ value, verdict = .ok value → related value value) :
    Verdict.Related related verdict verdict := by
  cases verdict with
  | ok value => exact .ok (each value rfl)
  | error defect => exact .error defect

theorem StructBody.Mirrors.addField {other : Draft} (mirrors : body.Mirrors layouts image)
    (drafts : draft.Mirrors layouts other) (isLast : Bool) (offset : Nat) :
    Verdict.Related (StructBody.Mirrors layouts) (body.addField size isLast ⟨offset, draft⟩)
      (image.addField size isLast ⟨offset, other⟩) := by
  simp only [StructBody.addField, drafts.align, drafts.hasTail, drafts.pattern.size_eq,
    mirrors.stop, bind, Except.bind]
  split
  · exact .error _
  · split
    · exact .error _
    · split
      · exact .error _
      · split
        · exact .error _
        · have added : Forall₂ (Pattern.Mirrors layouts)
              [.padding (offset - image.stop), draft.pattern]
              [.padding (offset - image.stop), other.pattern] :=
            .cons (mirrors_padding _) (.cons drafts.pattern .nil)
          exact .ok ⟨rel_append mirrors.parts added, rfl, rfl⟩

theorem StructBody.Mirrors.pattern (mirrors : body.Mirrors layouts image) (size : Nat) :
    (body.pattern size).Mirrors layouts (image.pattern size) := by
  simp only [StructBody.pattern, mirrors.hasTail, mirrors.stop]
  split
  · exact mirrors_concat mirrors.parts
  · exact mirrors_concat (rel_append mirrors.parts (.cons (mirrors_padding _) .nil))

theorem Draft.Mirrors.unionMember {image : Draft} (mirrors : draft.Mirrors layouts image)
    (offset : Nat) :
    Verdict.Related (Pattern.Mirrors layouts) (unionMember size ⟨offset, draft⟩)
      (unionMember size ⟨offset, image⟩) := by
  simp only [Recast.unionMember, mirrors.fixedSize_eq, mirrors.align, bind, Except.bind]
  split
  · exact .error _
  · split
    · exact .error _
    · split
      · exact .error _
      · split
        · exact .error _
        · exact .ok (mirrors_concat (.cons (mirrors_padding _) (.cons mirrors.pattern
            (.cons (mirrors_padding _) .nil))))

theorem related_packVariant {parts images : List (Placed VariantPart)}
    (each : Forall₂ (Related (VariantPart.Mirrors layouts)) parts images) (tag : Int) (stop : Nat) :
    Verdict.Related (Forall₂ (Mirrors layouts)) (packVariant size tag stop parts)
      (packVariant size tag stop images) := by
  induction each generalizing stop with
  | nil => exact .ok (.cons (mirrors_padding _) .nil)
  | @cons part image _ _ first _ ih =>
    simp only [packVariant, first.offset, first.content.size, bind, Except.bind]
    split
    · exact .error _
    · split
      · exact .error _
      · rename_i next _
        split
        · exact .error _
        · have behind := ih next
          revert behind
          generalize packVariant size tag next _ = packed
          generalize packVariant size tag next _ = packedToo
          intro behind
          cases behind with
          | ok others => exact .ok (.cons (mirrors_padding _) (.cons first.content.pattern others))
          | error defect => exact .error defect

theorem mirrors_scalar (machine : Machine) (scalar : Scalar) :
    Verdict.Related (Draft.Mirrors layouts) (scalar.draft machine) (scalar.draft machine) := by
  refine Verdict.related_self fun _ isDraft => ?_
  rcases Scalar.draft_eq_ok isDraft with ⟨_, rfl⟩ | ⟨_, _, _, rfl⟩
  · exact ⟨mirrors_padding _, rfl, rfl⟩
  · refine ⟨?_, rfl, rfl⟩
    dsimp only
    split
    · exact mirrors_ofRanges _ _ _
    · split
      · exact .alt .nil
      · exact .seq .nil

end Steps

section Recipes

variable {α β γ δ : Type} {names : DefId → Shape} {layouts : LayoutId → LayoutId → Prop}
  {post : α → β → Prop} {final : γ → δ → Prop} {fields : List (Placed Shape)} {slot : TagSlot}

/-- With shapes in place of names, the second recipe asks for what the first one asks for, and comes
to the same if the drafts mirror each other. -/
inductive Recipe.Mirrors (names : DefId → Shape) (layouts : LayoutId → LayoutId → Prop)
    (post : α → β → Prop) :
    Recipe α → Recipe β → Prop
  | done {verdict : Except Defect α} {image : Except Defect β}
      (related : Verdict.Related post verdict image) :
      Mirrors names layouts post (.done verdict) (.done image)
  | draw {part : Shape} {offset : Nat} {next : Draft → Recipe α} {onward : Draft → Recipe β}
      (goesOn : ∀ draft image, draft.Mirrors layouts image →
        Mirrors names layouts post (next draft) (onward image)) :
      Mirrors names layouts post (.draw part offset next) (.draw (part.replace names) offset onward)

namespace Recipe

theorem Mirrors.bind {first : Recipe α} {second : Recipe β} {next : α → Recipe γ}
    {onward : β → Recipe δ} (mirrors : first.Mirrors names layouts post second)
    (goesOn : ∀ value image, post value image →
      (next value).Mirrors names layouts final (onward image)) :
    (first >>= next).Mirrors names layouts final (second >>= onward) := by
  induction mirrors with
  | done related =>
    cases related with
    | ok holds => exact goesOn _ _ holds
    | error defect => exact .done (.error defect)
  | draw _ ih => exact .draw ih

theorem mirrors_same_bind (verdict : Except Defect α) {next : α → Recipe γ} {onward : α → Recipe δ}
    (goesOn : ∀ value, (next value).Mirrors names layouts final (onward value)) :
    (done verdict >>= next).Mirrors names layouts final (done verdict >>= onward) := by
  cases verdict with
  | ok value => exact goesOn value
  | error defect => exact .done (.error defect)

theorem mirrors_ask_bind {part : Shape} {next : Draft → Recipe γ} {onward : Draft → Recipe δ}
    (goesOn : ∀ draft image, draft.Mirrors layouts image →
      (next draft).Mirrors names layouts final (onward image)) :
    (ask part offset >>= next).Mirrors names layouts final
      (ask (part.replace names) offset >>= onward) :=
  .draw goesOn

theorem mirrors_structBody (bodies : body.Mirrors layouts image) :
    (structBody size offset fields body).Mirrors names layouts (StructBody.Mirrors layouts)
      (structBody size offset (fields.map (map (replace names))) image) := by
  induction fields generalizing body image with
  | nil => exact .done (.ok bodies)
  | cons _ _ ih =>
    simp only [map_cons, structBody, Placed.map, bodies.stop, isEmpty_map]
    split
    · exact .done (.error _)
    · refine mirrors_ask_bind fun _ _ drafts => ?_
      exact (Mirrors.done (bodies.addField drafts _ _)).bind fun _ _ extended => ih extended

theorem mirrors_unionMembers :
    (unionMembers size offset fields).Mirrors names layouts (Forall₂ (Pattern.Mirrors layouts))
      (unionMembers size offset (fields.map (map (replace names)))) := by
  induction fields with
  | nil => exact .done (.ok .nil)
  | cons _ _ ih =>
    refine mirrors_ask_bind fun _ _ drafts => ?_
    refine (Mirrors.done (drafts.unionMember _)).bind fun _ _ members => ?_
    exact ih.bind fun _ _ others => .done (.ok (.cons members others))

theorem mirrors_variantParts : (variantParts offset fields).Mirrors names layouts
      (Forall₂ (Related (VariantPart.Mirrors layouts)))
      (variantParts offset (fields.map (map (replace names)))) := by
  induction fields with
  | nil => exact .done (.ok .nil)
  | cons _ _ ih =>
    refine mirrors_ask_bind fun _ _ drafts => ?_
    rw [drafts.align, drafts.fixedSize_eq]
    refine mirrors_same_bind _ fun _ => ?_
    split
    · exact .done (.error _)
    · exact ih.bind fun _ _ others => .done (.ok (.cons ⟨rfl, rfl, drafts.pattern⟩ others))

theorem mirrors_variant (tag : Int) (ranges : List Range) :
    (variant machine size slot offset tag ranges fields).Mirrors names layouts
      (Pattern.Mirrors layouts)
        (variant machine size slot offset tag ranges (fields.map (map (replace names)))) := by
  refine mirrors_variantParts.bind fun parts images each => ?_
  let tagPart : Placed VariantPart :=
    ⟨slot.offset, slot.size, .ofRanges machine.byteOrder slot.size ranges⟩
  have tagged : Forall₂ (Related (VariantPart.Mirrors layouts)) (tagPart :: parts)
      (tagPart :: images) := .cons ⟨rfl, rfl, mirrors_ofRanges _ _ _⟩ each
  have sorted := forall₂_sortByOffset tagged fun _ _ related => related.offset
  exact (Mirrors.done (related_packVariant sorted tag 0)).bind fun _ _ packed =>
    .done (.ok (mirrors_concat packed))

theorem mirrors_variants {given : List (Variant Shape)} {declared : List Nat} :
    (variants machine size slot offset given declared).Mirrors names layouts
      (fun made image => Forall₂ (Pattern.Mirrors layouts) made.1 image.1 ∧ made.2 = image.2)
      (variants machine size slot offset
        (given.map fun next => ⟨next.tag, next.fields.map (map (replace names))⟩) declared) := by
  induction given generalizing declared with
  | nil => exact .done (.ok ⟨.nil, rfl⟩)
  | cons _ _ ih =>
    refine mirrors_same_bind _ fun _ => ?_
    refine (mirrors_variant _ _).bind fun _ _ mirrors => ?_
    exact ih.bind fun _ _ others => .done (.ok ⟨.cons mirrors others.1, others.2⟩)

end Recipe

open Recipe

theorem Shape.replaceFields_eq (fields : List (Placed Shape)) :
    replaceFields names fields = fields.map (Placed.map (replace names)) :=
  replaceFields_eq_map names fields

theorem Shape.mirrors_recipe {shape : Shape} {totalLength : Option Nat} (direct : ¬ shape.IsLink) :
    (shape.recipe machine totalLength offset).Mirrors names layouts (Draft.Mirrors layouts)
      ((shape.replace names).recipe machine totalLength offset) := by
  cases shape with
  | scalar number => exact .done (mirrors_scalar machine number)
  | struct size =>
    rw [replace, recipe, recipe, replaceFields_eq, sortByOffset_map]
    refine mirrors_same_bind _ fun _ => (mirrors_structBody ⟨.nil, rfl, rfl⟩).bind fun _ _ bodies =>
      ?_
    exact .done (.ok ⟨bodies.pattern size, rfl, bodies.hasTail⟩)
  | union =>
    rw [replace, recipe, recipe, replaceFields_eq, isEmpty_map]
    refine mirrors_same_bind _ fun _ => ?_
    split
    · exact .done (.error _)
    · exact mirrors_unionMembers.bind fun _ _ members =>
        .done (.ok ⟨Pattern.mirrors_alt members, rfl, rfl⟩)
  | tagged _ _ _ _ others =>
    rw [replace, recipe, recipe, replaceVariants_eq_map, replaceOthers_eq_map]
    simp only [replaceFields_eq]
    refine mirrors_same_bind _ fun _ => mirrors_same_bind _ fun _ => mirrors_variants.bind ?_
    rintro ⟨_, _⟩ ⟨_, _⟩ ⟨mirrors, rfl⟩
    cases others with
    | none => exact .done (.ok ⟨mirrors_alt mirrors, rfl, rfl⟩)
    | some =>
      simp only [Option.map_some, replaceFields_eq]
      split
      · exact .done (.ok ⟨mirrors_alt mirrors, rfl, rfl⟩)
      · refine (mirrors_variant _ _).bind fun rest image mirrorsRest => .done (.ok ⟨?_, rfl, rfl⟩)
        exact mirrors_alt (rel_append mirrors (.cons mirrorsRest .nil))
  | array =>
    rw [replace, recipe, recipe]
    refine mirrors_ask_bind fun draft image drafts => ?_
    rw [drafts.fixedSize_eq]
    split
    · exact .done (.error _)
    · exact mirrors_same_bind _ fun settled =>
        .done (.ok ⟨drafts.pattern.replicate settled, drafts.align, rfl⟩)
  | sealed name size =>
    refine mirrors_same_bind _ fun _ => .done (.ok ⟨?_, rfl, rfl⟩)
    exact Mirrors.andThen (.leaf (.marker name)) ((mirrors_cell _).replicate _)
  | reference | named => exact absurd trivial direct

end Recipes

namespace Coupling

variable (coupling : Coupling) {α β γ δ : Type}

def Coupled (related : Workshop → Workshop → α → β → Prop) (step : Assembly α) (image : Assembly β)
    (shop other : Workshop) : Prop :=
  match step shop, image other with
  | .ok value later, .ok valueToo laterToo =>
    coupling.linked later laterToo ∧ coupling.grows shop later ∧ coupling.grows other laterToo ∧
      related later laterToo value valueToo
  | .error defect later, .error defectToo laterToo =>
    defect = defectToo ∧ coupling.failed later laterToo
  | _, _ => False

def Drafts (shop other : Workshop) (draft image : Draft) : Prop :=
  draft.Mirrors (coupling.twins shop other) image

/-- The steps lead to twins. -/
abbrev Refers (step image : Assembly LayoutId) (shop other : Workshop) : Prop :=
  coupling.Coupled coupling.twins step image shop other

abbrev Draws (step image : Assembly Draft) (shop other : Workshop) : Prop :=
  coupling.Coupled coupling.Drafts step image shop other

def Plans (plan image : Plan) : Prop :=
  ∀ scope scopeToo, coupling.scopes scope scopeToo →
    ∀ offset shop other, coupling.linked shop other →
      coupling.Draws (plan scope offset) (image scopeToo offset) shop other

variable {coupling} {related : Workshop → Workshop → α → β → Prop}
  {goal : Workshop → Workshop → γ → δ → Prop} {shop other : Workshop}

theorem coupled_pure {value : α} {image : β} (linked : coupling.linked shop other)
    (isRelated : related shop other value image) :
    coupling.Coupled related (pure value) (pure image) shop other :=
  ⟨linked, coupling.grows_refl _, coupling.grows_refl _, isRelated⟩

section

variable (linked : coupling.linked shop other)
include linked

theorem coupled_throw {defect : Defect} :
    coupling.Coupled related (throw defect) (throw defect) shop other :=
  ⟨rfl, coupling.failed_of_linked linked⟩

theorem coupled_ofExcept {verdict : Except Defect α} {image : Except Defect β}
    (isRelated : Verdict.Related (related shop other) verdict image) :
    coupling.Coupled related (Assembly.ofExcept verdict) (Assembly.ofExcept image) shop other := by
  cases isRelated with
  | ok isRelated => exact coupled_pure linked isRelated
  | error => exact coupled_throw linked

end

theorem Coupled.bind {step : Assembly α} {image : Assembly β} {next : α → Assembly γ}
    {nextToo : β → Assembly δ} (coupled : coupling.Coupled related step image shop other)
    (goesOn : ∀ value valueToo later laterToo, coupling.linked later laterToo →
      coupling.grows shop later → coupling.grows other laterToo →
      related later laterToo value valueToo → coupling.Coupled goal (next value) (nextToo valueToo)
        later laterToo) :
    coupling.Coupled goal (step >>= next) (image >>= nextToo) shop other := by
  simp only [Coupled, Bind.bind, EStateM.bind] at coupled ⊢
  rcases outcome : step shop with ⟨value, later⟩ | ⟨defect, later⟩ <;>
    rcases outcomeToo : image other with ⟨valueToo, laterToo⟩ | ⟨defectToo, laterToo⟩ <;>
    simp only [outcome, outcomeToo] at coupled ⊢
  · rcases coupled with ⟨linked, grows, growsToo, isRelated⟩
    have onward := goesOn value valueToo later laterToo linked grows growsToo isRelated
    simp only [Coupled] at onward
    rcases ends : next value later with ⟨last, final⟩ | ⟨defect, final⟩ <;>
      rcases endsToo : nextToo valueToo laterToo with
        ⟨lastToo, finalToo⟩ | ⟨defectToo, finalToo⟩ <;>
      simp only [ends, endsToo] at onward ⊢
    · rcases onward with ⟨linkedThen, growsThen, growsThenToo, isGoal⟩
      exact ⟨linkedThen, coupling.grows_trans grows growsThen,
        coupling.grows_trans growsToo growsThenToo, isGoal⟩
    · exact onward
  · exact coupled

theorem Coupled.imp {more : Workshop → Workshop → α → β → Prop} {step : Assembly α}
    {image : Assembly β}
    (imp : ∀ later laterToo value valueToo, related later laterToo value valueToo →
      more later laterToo value valueToo)
    (coupled : coupling.Coupled related step image shop other) :
    coupling.Coupled more step image shop other := by
  rw [← bind_pure step, ← bind_pure image]
  exact coupled.bind fun _ _ _ _ linked _ _ isRelated => coupled_pure linked (imp _ _ _ _ isRelated)

theorem coupled_ofExcept_bind {verdict : Except Defect α} {next : α → Assembly γ}
    {nextToo : α → Assembly δ} (linked : coupling.linked shop other)
    (goesOn : ∀ value, verdict = .ok value →
      coupling.Coupled goal (next value) (nextToo value) shop other) :
    coupling.Coupled goal (Assembly.ofExcept verdict >>= next)
      (Assembly.ofExcept verdict >>= nextToo)
      shop other := by
  cases verdict with
  | ok value => exact goesOn value rfl
  | error => exact coupled_throw linked

theorem coupled_unless {condition : Prop} [Decidable condition] {defect : Defect}
    {next : Assembly γ} {nextToo : Assembly δ} (linked : coupling.linked shop other)
    (goesOn : ¬ condition → coupling.Coupled goal next nextToo shop other) :
    coupling.Coupled goal (if condition then do throw defect; next else next)
      (if condition then do throw defect; nextToo else nextToo) shop other := by
  split
  · exact coupled_throw linked
  · rename_i passed
    exact goesOn passed

theorem coupled_run {names : DefId → Shape} {recipe : Recipe α} {image : Recipe β}
    {planOf planOfToo : Shape → Plan} {post : (LayoutId → LayoutId → Prop) → α → β → Prop}
    (mirrors : ∀ later laterToo, coupling.grows shop later → coupling.grows other laterToo →
      recipe.Mirrors names (coupling.twins later laterToo) (post (coupling.twins later laterToo))
        image)
    (plans : recipe.All fun part => coupling.Plans (planOf part) (planOfToo (part.replace names)))
    (scopes : coupling.scopes scope scopeToo) (linked : coupling.linked shop other) :
    coupling.Coupled (fun later laterToo => post (coupling.twins later laterToo))
      (recipe.run planOf scope) (image.run planOfToo scopeToo) shop other := by
  -- More layouts come to stand for each other on the way, and the recipes mirror each other for all
  -- of them.
  have here := mirrors shop other (coupling.grows_refl _) (coupling.grows_refl _)
  induction recipe generalizing image shop other with
  | done =>
    cases here with
    | done related => exact coupled_ofExcept linked related
  | draw _ offset _ ih =>
    cases here with
    | draw goesOn =>
      refine (plans.1 scope scopeToo scopes offset shop other linked).bind ?_
      intro draft draftToo later laterToo linkedThen grows growsToo drafts
      have mirrorsThen (last lastToo : Workshop) (growsThen : coupling.grows later last)
          (growsThenToo : coupling.grows laterToo lastToo) := by
        have again := mirrors last lastToo (coupling.grows_trans grows growsThen)
          (coupling.grows_trans growsToo growsThenToo)
        cases again with
        | draw goesOn =>
          exact goesOn draft draftToo (drafts.mono fun _ _ =>
            coupling.twins_mono growsThen growsThenToo)
      exact ih draft mirrorsThen (plans.2 draft) linkedThen
        (mirrorsThen later laterToo (coupling.grows_refl _) (coupling.grows_refl _))

theorem coupled_reference {guarantee : Guarantee} {referent image : Assembly LayoutId}
    (linked : coupling.linked shop other) (coupled : coupling.Refers referent image shop other) :
    coupling.Draws (Plan.reference machine guarantee referent)
      (Plan.reference machine guarantee image) shop other := by
  apply coupled_ofExcept_bind linked
  intro _ _
  apply coupled.bind
  intro _ _ _ _ linkedThen _ _ twins
  refine coupled_pure linkedThen ⟨.leaf (.reference rfl ?_ twins), rfl, rfl⟩
  rw [coupling.size_eq linkedThen twins]

end Coupling

section Shapes

variable {expand expandToo : DefId → Plan} {referentOf referentOfToo : DefId → Assembly LayoutId}

namespace Coupling

variable {names : DefId → Shape}

/-- The plan of a shape is coupled to the one with shapes in place of its names, if its names are
coupled to those shapes and referents without a name to each other. -/
theorem plans_replace {ι : Type} {couplings : ι → Coupling} {isNamed : DefId → Prop}
    (expands : ∀ index id, isNamed id →
      (couplings index).Plans (expand id) ((names id).plan machine expandToo referentOfToo))
    (refers : ∀ index id, isNamed id → ∀ scope scopeToo, (couplings index).scopes scope scopeToo →
      ∀ shop other, (couplings index).linked shop other →
        (couplings index).Refers (referentOf id)
          ((names id).referent machine expandToo referentOfToo scopeToo) shop other)
    (anonymous : ∀ plan image, (∀ index, (couplings index).Plans plan image) →
      ∀ index scope scopeToo, (couplings index).scopes scope scopeToo →
        ∀ shop other, (couplings index).linked shop other →
          (couplings index).Refers (Plan.anonymousReferent plan scope)
            (Plan.anonymousReferent image scopeToo) shop other) (shape : Shape)
    (within : ∀ id, shape.Mentions id → isNamed id) (index : ι) :
    (couplings index).Plans (shape.plan machine expand referentOf)
      ((shape.replace names).plan machine expandToo referentOfToo) := by
  induction shape using recipe_induction generalizing index with
  | direct shape inside ih =>
    intro scope scopeToo scopes offset shop other linked
    rw [plan_eq_run, plan_eq_run, (couplings index).totalLength_eq scopes]
    refine coupled_run (fun _ _ _ _ => mirrors_recipe inside)
      (all_recipe inside fun part isPart => ?_) scopes linked
    exact ih part isPart (fun id inner => within id (inner.of_part isPart)) index
  | reference referent guarantee ih =>
    intro scope scopeToo scopes offset shop other linked
    rw [Shape.replace, Shape.plan_reference_eq, Shape.plan_reference_eq]
    refine coupled_reference linked ?_
    by_cases named : ∃ id, referent = .named id
    · rcases named with ⟨id, rfl⟩
      exact refers index id (within id (.referent .named)) scope scopeToo scopes shop other linked
    · rw [referent_of_not_named named, referent_of_not_named (not_named_replace named)]
      exact anonymous _ _ (ih fun id inner => within id (.referent inner)) index scope scopeToo
        scopes shop other linked
  | named id => exact expands index id (within id .named)

end Coupling

end Shapes

end Recast
