import Recast.Proofs.Assembly.Parts
import Recast.Proofs.Assembly.Verdicts
import Recast.Proofs.Pattern.Mirrors
import Recast.Proofs.Shape.Replace

/-!
# Recipes

The plan of a compound shape asks for the drafts of its parts, one after the other, and checks them
on the way. What it does next depends on these drafts, but not on the workshop. So it follows a
`Recipe`, which can be carried out with any plans for the parts (`Shape.plan_eq_run`). What the
drafts of the parts make of the whole is told by `Shape.Composed`. References and names lead out of
the shape.
-/

namespace Recast

open Placed List Extent Shape TagSlot StructBody Draft

variable {machine : Machine} {size align offset : Nat} {scope : Scope} {planOf : Shape → Plan}
  {slot : TagSlot} {fields : List (Placed Shape)} {declared : List Nat} {tag : Int}
  {part shape : Shape} {ranges : List Range} {given : List (Variant Shape)}
  {totalLength : Option Nat}

section Places

variable {α β : Type}

theorem Placed.mem_sortByOffset {item : Placed α} {items : List (Placed α)} :
    item ∈ sortByOffset items ↔ item ∈ items := by
  have insert (head : Placed α) (tail : List (Placed α)) :
      item ∈ insertByOffset head tail ↔ item = head ∨ item ∈ tail := by
    induction tail with
    | nil => simp [insertByOffset]
    | cons next rest ih =>
      simp only [insertByOffset]
      split
      · simp
      · simp only [mem_cons, ih]
        tauto
  induction items with
  | nil => simp [sortByOffset]
  | cons _ _ ih =>
    simp only [sortByOffset, foldr_cons, insert, mem_cons]
    exact or_congr Iff.rfl ih

theorem Placed.forall₂_sortByOffset {related : Placed α → Placed β → Prop} {items : List (Placed α)}
    {images : List (Placed β)} (each : Forall₂ related items images)
    (same : ∀ item image, related item image → item.offset = image.offset) :
    Forall₂ related (sortByOffset items) (sortByOffset images) := by
  have insert {item : Placed α} {image : Placed β} {items : List (Placed α)}
      {images : List (Placed β)} (first : related item image)
      (each : Forall₂ related items images) :
      Forall₂ related (item.insertByOffset items) (image.insertByOffset images) := by
    induction each with
    | nil => exact .cons first .nil
    | cons head rest ih =>
      simp only [insertByOffset, same _ _ first, same _ _ head]
      split
      · exact .cons first (.cons head rest)
      · exact .cons head ih
  induction each with
  | nil => exact .nil
  | cons first _ ih => exact insert first ih

theorem Placed.sortByOffset_map (f : α → β) (items : List (Placed α)) :
    sortByOffset (items.map (map f)) = (sortByOffset items).map (map f) := by
  have each : Forall₂ (fun item image => map f item = image) items (items.map (map f)) :=
    forall₂_map_right_iff.mpr (forall₂_same.mpr fun _ _ => rfl)
  have sorted := forall₂_sortByOffset each fun _ _ same => same ▸ rfl
  rw [← forall₂_map_left_iff, forall₂_eq_eq_eq] at sorted
  exact sorted.symm

section

variable {related : α → β → Prop} {items : List α} {others : List β}
  (each : Forall₂ related items others)
include each

theorem forall_of_forall₂ {holds : β → Prop}
    (imp : ∀ item other, related item other → holds other) :
    ∀ other ∈ others, holds other := by
  induction each with
  | nil => exact forall_mem_nil _
  | cons first _ ih => exact forall_mem_cons.mpr ⟨imp _ _ first, ih⟩

theorem forall_of_forall₂_left {holds : α → Prop}
    (imp : ∀ item other, related item other → holds item) :
    ∀ item ∈ items, holds item :=
  forall_of_forall₂ (Forall₂.flip each) fun other item => imp item other

end

end Places

/-- Asks for drafts of shapes, one after the other, and comes to a verdict. -/
inductive Recipe (α : Type)
  | done (verdict : Except Defect α)
  | draw (part : Shape) (offset : Nat) (next : Draft → Recipe α)

namespace Recipe

variable {α β : Type}

def bind : Recipe α → (α → Recipe β) → Recipe β
  | done (.ok value), onward => onward value
  | done (.error defect), _ => done (.error defect)
  | draw part offset next, onward => draw part offset fun draft => (next draft).bind onward

instance : Monad Recipe where
  pure value := done (.ok value)
  bind := bind

def run (planOf : Shape → Plan) (scope : Scope) : Recipe α → Assembly α
  | done verdict => Assembly.ofExcept verdict
  | draw part offset next => planOf part scope offset >>= fun draft => (next draft).run planOf scope

def ask (part : Shape) (offset : Nat) : Recipe Draft :=
  draw part offset pure

def structBody (size offset : Nat) : List (Placed Shape) → StructBody → Recipe StructBody
  | [], body => pure body
  | next :: rest, body => do
    if next.offset < body.stop then
      done (.error (.overlap next.offset body.stop))
    let draft ← ask next.content (satAdd offset next.offset)
    let extended ← done (body.addField size rest.isEmpty ⟨next.offset, draft⟩)
    structBody size offset rest extended

def unionMembers (size offset : Nat) : List (Placed Shape) → Recipe (List Pattern)
  | [] => pure []
  | next :: rest => do
    let draft ← ask next.content (satAdd offset next.offset)
    let member ← done (unionMember size ⟨next.offset, draft⟩)
    let others ← unionMembers size offset rest
    return member :: others

def variantParts (offset : Nat) : List (Placed Shape) → Recipe (List (Placed VariantPart))
  | [] => pure []
  | next :: rest => do
    let draft ← ask next.content (satAdd offset next.offset)
    done (requireAligned next.offset draft.align)
    match draft.fixedSize with
    | none => done (.error (.unsizedMember next.offset))
    | some size =>
      let others ← variantParts offset rest
      return ⟨next.offset, size, draft.pattern⟩ :: others

def variant (machine : Machine) (size : Nat) (slot : TagSlot) (offset : Nat) (tag : Int)
    (tagRanges : List Range) (fields : List (Placed Shape)) : Recipe Pattern := do
  let parts ← variantParts offset fields
  let tagPart : VariantPart := ⟨slot.size, .ofRanges machine.byteOrder slot.size tagRanges⟩
  let packed ← done (packVariant size tag 0 (sortByOffset (⟨slot.offset, tagPart⟩ :: parts)))
  return .concat packed

def variants (machine : Machine) (size : Nat) (slot : TagSlot) (offset : Nat) :
    List (Variant Shape) → (declared : List Nat) → Recipe (List Pattern × List Nat)
  | [], declared => pure ([], declared)
  | next :: rest, declared => do
    let (bits, declared) ← done (slot.declareTag declared next.tag)
    let member ← variant machine size slot offset next.tag [⟨bits, bits⟩] next.fields
    let (others, declared) ← variants machine size slot offset rest declared
    return (member :: others, declared)

end Recipe

namespace Shape

def IsLink : Shape → Prop
  | .reference _ _ | .named _ => True
  | _ => False

def parts : Shape → List Shape
  | .struct _ _ fields | .union _ _ fields => fields.map content
  | .tagged _ _ _ variants others => (variants.flatMap Variant.fields ++ others.getD []).map content
  | .array element _ => [element]
  | _ => []

open Recipe in
/-- How the draft of a shape is made from those of its parts. A link is a part of itself. -/
def recipe (machine : Machine) (totalLength : Option Nat) (offset : Nat) : Shape → Recipe Draft
  | .scalar number => done (number.draft machine)
  | .struct size align fields => do
    done (requirePowerOfTwo align)
    let body ← structBody size offset (sortByOffset fields) {}
    return { pattern := body.pattern size, align, hasTail := body.hasTail }
  | .union size align fields => do
    done (requirePowerOfTwo align)
    if fields.isEmpty then
      done (.error .emptyUnion)
    let members ← unionMembers size offset fields
    return { pattern := .alt members, align }
  | .tagged size align slot given others => do
    done (requirePowerOfTwo align)
    done (slot.check size)
    let (members, declared) ← variants machine size slot offset given []
    let undeclared := slot.undeclared declared
    match others with
    | none => return { pattern := .alt members, align }
    | some fields =>
      if undeclared.isEmpty then
        return { pattern := .alt members, align }
      else
        let rest ← variant machine size slot offset (-1) undeclared fields
        return { pattern := .alt (members ++ [rest]), align }
  | .array element count => do
    let draft ← ask element offset
    match draft.fixedSize with
    | none => done (.error (.unsizedMember offset))
    | some size =>
      let settled ← done (Plan.arrayCount offset size count totalLength)
      let pattern := draft.pattern.replicate settled
      return { pattern, align := draft.align, hasTail := !count.isExact }
  | .sealed name size align => do
    done (requirePowerOfTwo align)
    return { pattern := .andThen (.leaf (.marker name)) (.data size), align }
  | link => ask link offset

end Shape

namespace Recipe

variable {α β : Type}

theorem run_done (verdict : Except Defect α) :
    (done verdict).run planOf scope = Assembly.ofExcept verdict :=
  rfl

theorem run_pure (value : α) : (pure value : Recipe α).run planOf scope = pure value := rfl

theorem run_ask (part : Shape) : (ask part offset).run planOf scope = planOf part scope offset :=
  bind_pure _

theorem run_bind (recipe : Recipe α) (onward : α → Recipe β) :
    (recipe >>= onward).run planOf scope =
      recipe.run planOf scope >>= fun value => (onward value).run planOf scope := by
  change (recipe.bind onward).run planOf scope = _
  induction recipe with
  | done verdict => cases verdict <;> rfl
  | draw _ _ _ ih => simp only [bind, run, bind_assoc, ih]

theorem run_structBody (fields : List (Placed Shape)) (body : StructBody) :
    (structBody size offset fields body).run planOf scope =
      Plan.structBody size scope offset (fields.map (map planOf)) body := by
  induction fields generalizing body with
  | nil => rfl
  | cons _ _ ih =>
    simp only [structBody, map_cons, Plan.structBody, Placed.map]
    split
    · rfl
    · simp only [run_bind, run_ask, run_done, ih, isEmpty_map]

theorem run_unionMembers (fields : List (Placed Shape)) :
    (unionMembers size offset fields).run planOf scope =
      Plan.unionMembers size scope offset (fields.map (map planOf)) := by
  induction fields with
  | nil => rfl
  | cons _ _ ih =>
    simp only [unionMembers, map_cons, Plan.unionMembers, Placed.map, run_bind, run_ask, run_done,
      run_pure, ih]

theorem run_variantParts (fields : List (Placed Shape)) :
    (variantParts offset fields).run planOf scope =
      Plan.variantParts scope offset (fields.map (map planOf)) := by
  induction fields with
  | nil => rfl
  | cons _ _ ih =>
    simp only [variantParts, map_cons, Plan.variantParts, Placed.map, run_bind, run_ask, run_done]
    congr 1
    funext draft
    congr 1
    funext _
    cases draft.fixedSize with
    | none => rfl
    | some => simp only [run_bind, run_pure, ih]

theorem run_variant (slot : TagSlot) (tag : Int) (ranges : List Range)
    (fields : List (Placed Shape)) :
    (variant machine size slot offset tag ranges fields).run planOf scope =
      Plan.variant machine size slot scope offset tag ranges (fields.map (map planOf)) := by
  simp only [variant, Plan.variant, run_bind, run_variantParts, run_done, run_pure]

theorem run_variants (slot : TagSlot) (given : List (Variant Shape)) (declared : List Nat) :
    (variants machine size slot offset given declared).run planOf scope =
      Plan.variants machine size slot scope offset
        (given.map fun next => ⟨next.tag, next.fields.map (map planOf)⟩) declared := by
  induction given generalizing declared with
  | nil => rfl
  | cons _ _ ih =>
    simp only [variants, map_cons, Plan.variants, run_bind, run_variant, run_done, run_pure, ih]

end Recipe

section Plans

variable {expand : DefId → Plan} {referentOf : DefId → Assembly LayoutId}

theorem Shape.fieldPlans_eq (fields : List (Placed Shape)) :
    fieldPlans machine expand referentOf fields =
      fields.map (Placed.map (plan machine expand referentOf)) := by
  induction fields with
  | nil => rfl
  | cons _ _ ih => rw [fieldPlans, ih, map_cons, Placed.map]

theorem Shape.variantPlans_eq (variants : List (Variant Shape)) :
    variantPlans machine expand referentOf variants =
      variants.map fun next =>
        ⟨next.tag, next.fields.map (map (plan machine expand referentOf))⟩ := by
  induction variants with
  | nil => rfl
  | cons _ _ ih => rw [variantPlans, ih, fieldPlans_eq, map_cons]

open Recipe in
/-- The plan of a shape is its recipe, carried out with the plans of its parts. -/
theorem Shape.plan_eq_run (shape : Shape) (scope : Scope) (offset : Nat) :
    shape.plan machine expand referentOf scope offset =
      (shape.recipe machine scope.totalLength offset).run (plan machine expand referentOf)
        scope := by
  cases shape with
  | scalar => rfl
  | struct =>
    simp only [plan, recipe, Plan.struct, run_bind, run_done, run_structBody, run_pure,
      fieldPlans_eq, sortByOffset_map]
  | union =>
    simp only [plan, recipe, Plan.union, run_bind, run_done, fieldPlans_eq, isEmpty_map]
    congr 1
    funext _
    split
    · rfl
    · simp only [run_bind, run_unionMembers, run_pure]
  | tagged _ _ _ _ others =>
    simp only [plan, recipe, Plan.tagged, run_bind, run_done, run_variants, variantPlans_eq]
    congr 1
    funext _
    congr 1
    funext _
    congr 1
    funext made
    cases others with
    | none => rfl
    | some =>
      simp only [otherPlans, fieldPlans_eq]
      split
      · rfl
      · simp only [run_bind, run_variant, run_pure]
  | array =>
    simp only [plan, recipe, Plan.array, run_bind, run_ask]
    congr 1
    funext draft
    cases draft.fixedSize with
    | none => rfl
    | some => simp only [run_bind, run_done, run_pure]
  | sealed =>
    simp only [plan, recipe, Plan.sealed, run_bind, run_done, run_pure]
  | reference | named => exact (run_ask _).symm

end Plans

section Parts

variable (holds : Shape → Draft → Prop)

def Draft.HoldsAt (field : Placed Shape) (draft : Placed Draft) : Prop :=
  draft.offset = field.offset ∧ holds field.content draft.content

/-- The drafts are added to a struct one after the other, none before the last one has ended. -/
inductive StructBody.Grows (size : Nat) : List (Placed Draft) → StructBody → StructBody → Prop
  | done (body : StructBody) : Grows size [] body body
  | step {field : Placed Draft} {rest : List (Placed Draft)} {body extended final : StructBody}
      (ordered : body.stop ≤ field.offset)
      (grown : body.Extends size rest.isEmpty field extended)
      (onward : Grows size rest extended final) : Grows size (field :: rest) body final

def VariantPart.HoldsAt (field : Placed Shape) (part : Placed VariantPart) : Prop :=
  part.offset = field.offset ∧ ∃ draft, holds field.content draft ∧
    draft.fixedSize = some part.content.size ∧ part.content.pattern = draft.pattern

def Pattern.IsVariant (machine : Machine) (size : Nat) (slot : TagSlot) (tag : Int)
    (ranges : List Range) (fields : List (Placed Shape)) (member : Pattern) : Prop :=
  ∃ parts packed, Forall₂ (VariantPart.HoldsAt holds) fields parts ∧
    packVariant size tag 0 (sortByOffset
      (⟨slot.offset, slot.size, .ofRanges machine.byteOrder slot.size ranges⟩ :: parts)) =
        .ok packed ∧ member = .concat packed

def Pattern.AreVariants (machine : Machine) (size : Nat) (slot : TagSlot) :
    List (Variant Shape) → List Pattern → Prop :=
  Forall₂ fun variant member => IsVariant holds machine size slot variant.tag
    [⟨slot.twosComplement variant.tag, slot.twosComplement variant.tag⟩] variant.fields member

/-- The tags that are not declared have a variant of their own, if there are such tags and fields
for them. -/
def Pattern.IsRest (machine : Machine) (size : Nat) (slot : TagSlot) (declared : List Nat)
    (others : Option (List (Placed Shape))) (rest : List Pattern) : Prop :=
  rest = [] ∧ (others = none ∨ slot.undeclared declared = []) ∨
    ∃ fields member, others = some fields ∧ slot.undeclared declared ≠ [] ∧ rest = [member] ∧
      IsVariant holds machine size slot (-1) (slot.undeclared declared) fields member

end Parts

/-- The draft of a shape is put together from drafts that are related to its parts. -/
inductive Shape.Composed (machine : Machine) (totalLength : Option Nat) (offset : Nat)
    (holds : Shape → Draft → Prop) : Shape → Draft → Prop
  | scalar {number : Scalar} {draft : Draft} (isDraft : number.draft machine = .ok draft) :
      Composed machine totalLength offset holds (.scalar number) draft
  | struct {size align : Nat} {fields : List (Placed Shape)} {drafts : List (Placed Draft)}
      {body : StructBody}
      (each : Forall₂ (HoldsAt holds) (sortByOffset fields) drafts)
      (grows : Grows size drafts {} body) :
      Composed machine totalLength offset holds (.struct size align fields)
        { pattern := body.pattern size, align, hasTail := body.hasTail }
  | union {size align : Nat} {fields : List (Placed Shape)} {members : List Pattern}
      (some : fields ≠ [])
      (each : Forall₂ (fun field member => ∃ draft, HoldsAt holds field draft ∧
        unionMember size draft = .ok member) fields members) :
      Composed machine totalLength offset holds
        (.union size align fields) { pattern := .alt members, align }
  | tagged {size align : Nat} {slot : TagSlot} {variants : List (Variant Shape)}
      {others : Option (List (Placed Shape))} {members rest : List Pattern} {declared : List Nat}
      (slotFits : slot.check size = .ok ())
      (isDeclared : ∀ bits, bits ∈ declared ↔ ∃ next ∈ variants,
        bits = slot.twosComplement next.tag)
      (each : Pattern.AreVariants holds machine size slot variants members)
      (isRest : Pattern.IsRest holds machine size slot declared others rest) :
      Composed machine totalLength offset holds (.tagged size align slot variants others)
        { pattern := .alt (members ++ rest), align }
  | array {element : Shape} {draft : Draft} {count settled : Count} {width : Nat}
      (drawn : holds element draft) (fixed : draft.fixedSize = some width)
      (isCount : Plan.arrayCount offset width count totalLength = .ok settled) :
      Composed machine totalLength offset holds (.array element count)
        { pattern := draft.pattern.replicate settled, align := draft.align,
          hasTail := !count.isExact }
  | sealed {name : String} {size align : Nat} :
      Composed machine totalLength offset holds (.sealed name size align)
        { pattern := .andThen (.leaf (.marker name)) (.data size), align }

theorem TagSlot.declareTag_adds {extended : List Nat} {bits : Nat}
    (isDeclared : slot.declareTag declared tag = .ok (bits, extended)) :
    bits = slot.twosComplement tag ∧ extended = bits :: declared := by
  simp only [declareTag, bind, Except.bind, pure, Except.pure] at isDeclared
  split at isDeclared
  · simp at isDeclared
  rename_i number isBits
  split at isDeclared
  · cases isDeclared
  simp only [Except.ok.injEq, Prod.mk.injEq] at isDeclared
  rcases isDeclared with ⟨rfl, rfl⟩
  refine ⟨?_, rfl⟩
  simp only [bits] at isBits
  split at isBits
  · simp at isBits
  rw [Except.ok.injEq] at isBits
  rw [← isBits, twosComplement]

theorem TagSlot.twosComplement_lt (slot : TagSlot) (tag : Int) :
    slot.twosComplement tag < numbers slot.size := by
  have positive : (0 : Int) < numbers slot.size := by
    exact_mod_cast numbers_pos slot.size
  have below := Int.emod_lt_of_pos tag positive
  have notNegative := Int.emod_nonneg tag (Int.ne_of_gt positive)
  rw [twosComplement]
  omega

theorem TagSlot.writes_declared (small : slot.size ≤ 16) (tag : Int) :
    slot.Writes [⟨slot.twosComplement tag, slot.twosComplement tag⟩] :=
  ⟨small, by simp, by simpa using slot.twosComplement_lt tag⟩

section

variable {variants : List (Variant Shape)}
  (isDeclared : ∀ bits, bits ∈ declared ↔ ∃ next ∈ variants, bits = slot.twosComplement next.tag)
include isDeclared

theorem TagSlot.declared_lt : ∀ bits ∈ declared, bits < numbers slot.size := by
  intro bits member
  rcases (isDeclared bits).mp member with ⟨next, _, rfl⟩
  exact slot.twosComplement_lt next.tag

theorem TagSlot.exists_unused (checked : slot.check size = .ok ())
    (some : slot.undeclared declared ≠ []) :
    ∃ bits < numbers slot.size, ∀ next ∈ variants, bits ≠ slot.twosComplement next.tag := by
  have small := (check_eq_ok checked).2.1
  have lower := declared_lt isDeclared
  rcases exists_mem_of_ne_nil _ some with ⟨range, isRange⟩
  have bounds := mem_undeclared small lower isRange
  rcases (exists_undeclared small lower).mp ⟨range, isRange, le_rfl, bounds.1⟩ with ⟨low, unused⟩
  exact ⟨range.first, low, fun next isNext same => unused ((isDeclared _).mpr ⟨next, isNext, same⟩)⟩

theorem Pattern.exists_isVariant {holds : Shape → Draft → Prop}
    {others : Option (List (Placed Shape))} {members rest : List Pattern}
    (checked : slot.check size = .ok ())
    (each : AreVariants holds machine size slot variants members)
    (isRest : IsRest holds machine size slot declared others rest) :
    ∀ member ∈ members ++ rest, ∃ tag ranges fields, slot.Writes ranges ∧
      IsVariant holds machine size slot tag ranges fields member := by
  have small := (check_eq_ok checked).2.1
  refine forall_mem_append.mpr ⟨forall_of_forall₂ each fun next _ isVariant =>
    ⟨_, _, _, writes_declared small next.tag, isVariant⟩, ?_⟩
  rcases isRest with ⟨rfl, _⟩ | ⟨_, _, _, some, rfl, isVariant⟩
  · exact forall_mem_nil _
  · exact forall_mem_singleton.mpr ⟨_, _, _,
      writes_undeclared small some (declared_lt isDeclared), isVariant⟩

end

/-- The size that the shape states, if any. -/
def Shape.statedSize : Shape → Nat
  | .scalar number => number.size
  | .struct size .. | .union size .. | .tagged size .. | .sealed _ size _ => size
  | .array .. | .reference .. | .named _ => 0

section Composed

open Pattern

variable {holds : Shape → Draft → Prop} {member : Pattern} {draft : Draft}

theorem Pattern.IsVariant.fills (writes : slot.Writes ranges)
    (shaped : ∀ part draft, holds part draft → draft.pattern.Shaped)
    (isVariant : IsVariant holds machine size slot tag ranges fields member) :
    ∃ parts, Forall₂ (VariantPart.HoldsAt holds) fields parts ∧
      Fills size ((sortByOffset (⟨slot.offset, slot.size,
        .ofRanges machine.byteOrder slot.size ranges⟩ :: parts)).map (map VariantPart.pattern))
          member := by
  rcases isVariant with ⟨parts, _, each, isPacked, rfl⟩
  have measured : ∀ part ∈ parts, part.content.Measured := by
    refine forall_of_forall₂ each ?_
    rintro _ _ ⟨_, draft, drawn, fixed, isPattern⟩
    exact ⟨isPattern ▸ (draft.fixedSize_eq_some fixed).2, isPattern ▸ shaped _ draft drawn⟩
  refine ⟨parts, each, fills_packVariant (fun part isPart => ?_) isPacked⟩
  rcases mem_cons.mp (mem_sortByOffset.mp isPart) with rfl | inParts
  · exact writes.measured machine.byteOrder
  · exact measured part inParts

theorem StructBody.Grows.sound {drafts : List (Placed Draft)} {body final : StructBody}
    (grows : Grows size drafts body final) (each : ∀ draft ∈ drafts, draft.content.pattern.Shaped)
    (sound : body.Sound size drafts.isEmpty) : final.Sound size true := by
  induction grows with
  | done => exact sound
  | step ordered grown _ ih =>
    rw [forall_mem_cons] at each
    exact ih each.2 (grown.sound sound ordered each.1)

theorem StructBody.Grows.leaves {proper : Token → Prop} {drafts : List (Placed Draft)}
    {body final : StructBody} (grows : Grows size drafts body final)
    (uninit : proper (.cell .uninit)) (each : ∀ draft ∈ drafts, draft.content.pattern.Leaves proper)
    (parts : LeavesOfAll proper body.parts) :
    (final.pattern size).Leaves proper := by
  have padding (width : Nat) : (padding width).Leaves proper := leaves_padding width uninit
  induction grows with
  | done =>
    rw [pattern]
    split
    · exact leaves_concat.mpr parts
    · exact leaves_concat.mpr (leavesOfAll_iff.mpr (forall_mem_append.mpr
        ⟨leavesOfAll_iff.mp parts, forall_mem_singleton.mpr (padding _)⟩))
  | step _ grown _ ih =>
    rw [forall_mem_cons] at each
    refine ih each.2 ?_
    rw [grown.parts, leavesOfAll_iff, forall_mem_append]
    exact ⟨leavesOfAll_iff.mp parts, leavesOfAll_iff.mp ⟨padding _, each.1, trivial⟩⟩

section

variable (composed : shape.Composed machine totalLength offset holds draft)
include composed

theorem Shape.Composed.shaped (inside : shape.statedSize ≤ cap)
    (known : ∀ length, totalLength = some length → length ≤ cap)
    (shaped : ∀ part draft, holds part draft → draft.pattern.Shaped) : draft.pattern.Shaped := by
  have choice {size : Nat} {members : List Pattern} (inside : size ≤ cap)
      (fit : ∀ member ∈ members, member.Fits size) : (alt members).Shaped := by
    rcases members with _ | ⟨_, _⟩
    · exact .inl ⟨0, fits_never, Nat.zero_le _⟩
    · exact .inl ⟨size, ⟨nofun, fitEach_iff.mpr fit⟩, inside⟩
  cases composed with
  | scalar isDraft =>
    rcases Scalar.fits_draft inside isDraft with ⟨_, width, small, fits, _⟩
    exact .inl ⟨width, fits, small⟩
  | struct each grows =>
    have drafts := forall_of_forall₂ each fun _ _ isDraft => shaped _ _ isDraft.2
    exact (grows.sound drafts sound_empty).shaped_pattern inside
  | union _ each =>
    refine choice inside (forall_of_forall₂ each ?_)
    rintro _ _ ⟨_, isDraft, isMember⟩
    exact (fills_unionMember (shaped _ _ isDraft.2) isMember).fits inside
  | tagged slotFits isDeclared each isRest =>
    refine choice inside fun member isMember => ?_
    rcases exists_isVariant isDeclared slotFits each isRest member isMember with
      ⟨_, _, _, writes, isVariant⟩
    rcases isVariant.fills writes shaped with ⟨_, _, fills⟩
    exact fills.fits inside
  | array drawn fixed isCount =>
    rcases (shaped _ _ drawn).fits_of_size (fixedSize_eq_some fixed).2 with ⟨fits, small⟩
    exact shaped_array known fits small isCount
  | sealed => exact .inl ⟨_, fits_sealed inside, inside⟩

theorem Shape.Composed.mono {weaker : Shape → Draft → Prop}
    (imp : ∀ part draft, holds part draft → weaker part draft) :
    shape.Composed machine totalLength offset weaker draft := by
  have variant {size : Nat} {slot : TagSlot} {tag : Int} {ranges : List Range}
      {fields : List (Placed Shape)} {member : Pattern}
      (isVariant : IsVariant holds machine size slot tag ranges fields member) :
      IsVariant weaker machine size slot tag ranges fields member := by
    rcases isVariant with ⟨parts, packed, each, made⟩
    refine ⟨parts, packed, each.imp ?_, made⟩
    rintro _ _ ⟨placed, draft, drawn, fixed⟩
    exact ⟨placed, draft, imp _ _ drawn, fixed⟩
  cases composed with
  | scalar isDraft => exact .scalar isDraft
  | struct each grows => exact .struct (each.imp fun _ _ drawn => ⟨drawn.1, imp _ _ drawn.2⟩) grows
  | union some each =>
    refine .union some (each.imp ?_)
    rintro _ _ ⟨draft, drawn, made⟩
    exact ⟨draft, ⟨drawn.1, imp _ _ drawn.2⟩, made⟩
  | tagged slotFits isDeclared each isRest =>
    refine .tagged slotFits isDeclared (each.imp fun _ _ => variant) ?_
    rcases isRest with none | ⟨fields, member, isFields, some, isMember, isVariant⟩
    · exact .inl none
    · exact .inr ⟨fields, member, isFields, some, isMember, variant isVariant⟩
  | array drawn fixed isCount => exact .array (imp _ _ drawn) fixed isCount
  | sealed => exact .sealed

/-- All tokens of the draft are proper if those of the parts are, and those that the shape adds. -/
theorem Shape.Composed.leaves {proper : Token → Prop} (uninit : proper (.cell .uninit))
    (cells : ∀ values : ByteSet, (∃ byte, byte ∈ values) → proper (.cell (.init values)))
    (marked : ∀ name size align, shape = .sealed name size align → proper (.marker name))
    (leaves : ∀ part draft, holds part draft → draft.pattern.Leaves proper) :
    draft.pattern.Leaves proper := by
  cases composed with
  | scalar isDraft => exact Scalar.leaves_draft uninit cells isDraft
  | struct each grows =>
    exact grows.leaves uninit (forall_of_forall₂ each fun _ _ isDraft => leaves _ _ isDraft.2)
      trivial
  | union _ each =>
    refine leavesOfAll_iff.mpr (forall_of_forall₂ each ?_)
    rintro field member ⟨draft, isDraft, isMember⟩
    rcases unionMember_eq_ok isMember with ⟨width, _, _, rfl⟩
    exact leaves_concat.mpr ⟨leaves_padding _ uninit, leaves _ _ isDraft.2, leaves_padding _ uninit,
      trivial⟩
  | tagged slotFits isDeclared each isRest =>
    refine leavesOfAll_iff.mpr fun member isMember => ?_
    rcases exists_isVariant isDeclared slotFits each isRest member isMember with
      ⟨_, _, _, writes, isVariant⟩
    rcases isVariant with ⟨parts, _, eachPart, isPacked, rfl⟩
    have partLeaves :=
      forall_of_forall₂ eachPart fun _ _ ⟨_, _, drawn, _, isPattern⟩ => isPattern ▸ leaves _ _ drawn
    refine leaves_concat.mpr (leaves_packVariant uninit (fun part member => ?_) isPacked)
    rcases mem_cons.mp (mem_sortByOffset.mp member) with rfl | isField
    · exact leaves_ofRanges cells writes.written
    · exact partLeaves part isField
  | array drawn => exact leaves_replicate (leaves _ _ drawn)
  | sealed =>
    refine leaves_andThen ?_ (leaves_data _ (cells _ ⟨0, ByteSet.mem_full⟩))
    simpa only [Leaves] using marked _ _ _ rfl

end

end Composed

namespace Recipe

variable {α β : Type} {holds : Shape → Draft → Prop} {value : β}

/-- The recipe comes to the value if it gets drafts that are related to the parts it asks for. -/
inductive Yields (holds : Shape → Draft → Prop) : Recipe α → α → Prop
  | done (value : α) : Yields holds (.done (.ok value)) value
  | draw {part : Shape} {offset : Nat} {next : Draft → Recipe α} {draft : Draft} {value : α}
      (drawn : holds part draft) (onward : Yields holds (next draft) value) :
      Yields holds (.draw part offset next) value

theorem yields_bind {recipe : Recipe α} {onward : α → Recipe β}
    (yields : (recipe >>= onward).Yields holds value) :
    ∃ middle, recipe.Yields holds middle ∧ (onward middle).Yields holds value := by
  change (recipe.bind onward).Yields holds value at yields
  induction recipe with
  | done verdict =>
    cases verdict with
    | ok middle => exact ⟨middle, .done middle, yields⟩
    | error => cases yields
  | draw _ _ _ ih =>
    cases yields with
    | draw drawn others =>
      rcases ih _ others with ⟨middle, first, second⟩
      exact ⟨middle, .draw drawn first, second⟩

theorem yields_done {verdict : Except Defect α} {value : α}
    (yields : (done verdict).Yields holds value) :
    verdict = .ok value := by
  cases yields
  rfl

theorem yields_done_bind {verdict : Except Defect α} {onward : α → Recipe β}
    (yields : (done verdict >>= onward).Yields holds value) :
    ∃ given, verdict = .ok given ∧ (onward given).Yields holds value := by
  rcases yields_bind yields with ⟨given, first, others⟩
  exact ⟨given, yields_done first, others⟩

theorem yields_ask_bind {onward : Draft → Recipe β}
    (yields : (ask part offset >>= onward).Yields holds value) :
    ∃ draft, holds part draft ∧ (onward draft).Yields holds value := by
  cases yields with
  | draw drawn others => exact ⟨_, drawn, others⟩

theorem yields_structBody {body final : StructBody}
    (yields : (structBody size offset fields body).Yields holds final) :
    ∃ drafts, Forall₂ (HoldsAt holds) fields drafts ∧ Grows size drafts body final := by
  induction fields generalizing body with
  | nil =>
    cases yields
    exact ⟨[], .nil, .done _⟩
  | cons next rest ih =>
    simp only [structBody] at yields
    split at yields
    · cases yields
    rename_i ordered
    rcases yields_ask_bind yields with ⟨draft, drawn, onward⟩
    rcases yields_done_bind onward with ⟨_, isExtended, others⟩
    rcases ih others with ⟨drafts, each, grows⟩
    have isEmpty : rest.isEmpty = drafts.isEmpty := by cases each <;> rfl
    refine ⟨⟨next.offset, draft⟩ :: drafts, .cons ⟨rfl, drawn⟩ each, ?_⟩
    exact .step (not_lt.mp ordered) (isEmpty ▸ addField_eq_ok isExtended) grows

theorem yields_unionMembers {members : List Pattern}
    (yields : (unionMembers size offset fields).Yields holds members) :
    Forall₂ (fun field member => ∃ draft, HoldsAt holds field draft ∧
      unionMember size draft = .ok member) fields members := by
  induction fields generalizing members with
  | nil =>
    cases yields
    exact .nil
  | cons _ _ ih =>
    rcases yields_ask_bind yields with ⟨_, drawn, onward⟩
    rcases yields_done_bind onward with ⟨_, isMember, onwardThen⟩
    rcases yields_bind onwardThen with ⟨_, isOthers, ⟨⟩⟩
    exact .cons ⟨_, ⟨rfl, drawn⟩, isMember⟩ (ih isOthers)

theorem yields_variantParts {parts : List (Placed VariantPart)}
    (yields : (variantParts offset fields).Yields holds parts) :
    Forall₂ (VariantPart.HoldsAt holds) fields parts := by
  induction fields generalizing parts with
  | nil =>
    cases yields
    exact .nil
  | cons _ _ ih =>
    rcases yields_ask_bind yields with ⟨draft, drawn, onward⟩
    rcases yields_done_bind onward with ⟨_, _, onwardThen⟩
    cases fixed : draft.fixedSize with
    | none =>
      rw [fixed] at onwardThen
      cases onwardThen
    | some =>
      rw [fixed] at onwardThen
      rcases yields_bind onwardThen with ⟨_, isOthers, ⟨⟩⟩
      exact .cons ⟨rfl, draft, drawn, fixed, rfl⟩ (ih isOthers)

theorem yields_variant {member : Pattern}
    (yields : (variant machine size slot offset tag ranges fields).Yields holds member) :
    Pattern.IsVariant holds machine size slot tag ranges fields member := by
  rcases yields_bind yields with ⟨parts, isParts, onward⟩
  rcases yields_done_bind onward with ⟨packed, isPacked, ⟨⟩⟩
  exact ⟨parts, packed, yields_variantParts isParts, isPacked, rfl⟩

theorem yields_variants {made : List Pattern × List Nat}
    (yields : (variants machine size slot offset given declared).Yields holds made) :
    (∀ bits, bits ∈ made.2 ↔ bits ∈ declared ∨
      ∃ next ∈ given, bits = slot.twosComplement next.tag) ∧
        Pattern.AreVariants holds machine size slot given made.1 := by
  induction given generalizing declared made with
  | nil =>
    cases yields
    exact ⟨by simp, .nil⟩
  | cons next rest ih =>
    rcases yields_done_bind yields with ⟨⟨bits, extended⟩, isDeclared, onward⟩
    rcases declareTag_adds isDeclared with ⟨rfl, rfl⟩
    rcases yields_bind onward with ⟨member, isMember, onwardThen⟩
    rcases yields_bind onwardThen with ⟨others, isOthers, ⟨⟩⟩
    rcases ih isOthers with ⟨areDeclared, areVariants⟩
    refine ⟨fun bits => ?_, .cons (yields_variant isMember) areVariants⟩
    rw [areDeclared, mem_cons, exists_mem_cons_iff]
    tauto

end Recipe

open Recipe in
theorem Shape.composed_of_yields {holds : Shape → Draft → Prop} {draft : Draft}
    (inside : ¬ shape.IsLink)
    (yields : (shape.recipe machine totalLength offset).Yields holds draft) :
    shape.Composed machine totalLength offset holds draft := by
  cases shape with
  | scalar => exact .scalar (yields_done yields)
  | struct =>
    rcases yields_done_bind yields with ⟨_, _, onward⟩
    rcases yields_bind onward with ⟨_, isBody, ⟨⟩⟩
    rcases yields_structBody isBody with ⟨_, each, grows⟩
    exact .struct each grows
  | union size align fields =>
    rcases yields_done_bind yields with ⟨_, _, onward⟩
    dsimp only at onward
    split at onward
    · cases onward
    rename_i some
    rcases yields_bind onward with ⟨_, isMembers, ⟨⟩⟩
    exact .union (by simpa using some) (yields_unionMembers isMembers)
  | tagged size align slot variants others =>
    rcases yields_done_bind yields with ⟨_, _, checks⟩
    rcases yields_done_bind checks with ⟨⟨⟩, slotFits, onward⟩
    rcases yields_bind onward with ⟨⟨members, declared⟩, isMembers, onwardThen⟩
    rcases yields_variants isMembers with ⟨isDeclared, each⟩
    simp only [not_mem_nil, false_or] at isDeclared
    have noRest (nothing : others = none ∨ slot.undeclared declared = []) :
        (tagged size align slot variants others).Composed machine totalLength offset holds
          { pattern := .alt members, align } := by
      rw [← append_nil members]
      exact .tagged slotFits isDeclared each (.inl ⟨rfl, nothing⟩)
    cases others with
    | none =>
      cases onwardThen
      exact noRest (.inl rfl)
    | some fields =>
      dsimp only at onwardThen
      split at onwardThen
      · rename_i nothing
        cases onwardThen
        exact noRest (.inr (by simpa using nothing))
      · rename_i some
        rcases yields_bind onwardThen with ⟨rest, isRest, ⟨⟩⟩
        exact .tagged slotFits isDeclared each
          (.inr ⟨fields, rest, rfl, by simpa using some, rfl, yields_variant isRest⟩)
  | array =>
    rcases yields_ask_bind yields with ⟨made, drawn, onward⟩
    cases fixed : made.fixedSize with
    | none =>
      rw [fixed] at onward
      cases onward
    | some =>
      rw [fixed] at onward
      rcases yields_done_bind onward with ⟨_, isCount, ⟨⟩⟩
      exact .array drawn fixed isCount
  | sealed =>
    rcases yields_done_bind yields with ⟨_, _, ⟨⟩⟩
    exact .sealed
  | reference | named => exact absurd trivial inside

/-- The second shape is assembled on the way through the first one, with no named referent in
between. -/
inductive Shape.Part (catalog : Catalog) : Shape → Shape → Prop
  | struct {size align : Nat} {fields : List (Placed Shape)} {field : Placed Shape}
      (member : field ∈ fields) :
      Part catalog (.struct size align fields) field.content
  | union {size align : Nat} {fields : List (Placed Shape)} {field : Placed Shape}
      (member : field ∈ fields) :
      Part catalog (.union size align fields) field.content
  | variant {size align : Nat} {slot : TagSlot} {variants : List (Variant Shape)}
      {others : Option (List (Placed Shape))} {variant : Variant Shape} {field : Placed Shape}
      (isVariant : variant ∈ variants) (member : field ∈ variant.fields) :
      Part catalog (.tagged size align slot variants others) field.content
  | others {size align : Nat} {slot : TagSlot} {variants : List (Variant Shape)}
      {fields : List (Placed Shape)} {field : Placed Shape} {bits : Nat}
      (inside : bits < numbers slot.size)
      (undeclared : ∀ variant ∈ variants, bits ≠ slot.twosComplement variant.tag)
        (member : field ∈ fields) :
      Part catalog (.tagged size align slot variants (some fields)) field.content
  | element {element : Shape} {count : Count} : Part catalog (.array element count) element
  | referent {referent : Shape} {guarantee : Guarantee} (notNamed : ¬ ∃ id, referent = .named id) :
      Part catalog (.reference referent guarantee) referent
  | definition {id : DefId} {definition : Definition} (found : catalog.get? id = some definition) :
      Part catalog (.named id) definition.shape

section Parts

open Recipe

variable {α β : Type} {holds : Shape → Prop}

/-- All parts that are asked for are as wanted, and the verdict is sensible, whatever drafts the
recipe gets. -/
def Recipe.All (holds : Shape → Prop) : Recipe α → Prop
  | done verdict => Except.Sensible verdict
  | draw part _ next => holds part ∧ ∀ draft, (next draft).All holds

theorem Recipe.All.bind {recipe : Recipe α} {onward : α → Recipe β} (all : recipe.All holds)
    (others : ∀ value, recipe.Yields (fun _ _ => True) value → (onward value).All holds) :
    (recipe >>= onward).All holds := by
  change (recipe.bind onward).All holds
  induction recipe with
  | done verdict =>
    cases verdict with
    | ok value => exact others value (.done value)
    | error defect => exact Except.sensible_error.mpr (Except.sensible_error.mp all)
  | draw part offset next ih =>
    exact ⟨all.1, fun draft => ih draft (all.2 draft) fun value yields =>
      others value (.draw trivial yields)⟩

theorem Recipe.all_pure (value : α) : (pure value : Recipe α).All holds := Except.sensible_ok value

theorem Recipe.all_ask (isPart : holds part) : (ask part offset).All holds :=
  ⟨isPart, all_pure⟩

section

variable (each : ∀ field ∈ fields, holds field.content)
include each

theorem Recipe.all_structBody {body : StructBody} :
    (structBody size offset fields body).All holds := by
  induction fields generalizing body with
  | nil => exact all_pure body
  | cons next rest ih =>
    rw [forall_mem_cons] at each
    simp only [structBody]
    split
    · exact Except.sensible_error.mpr id
    · exact (all_ask each.1).bind fun _ _ => All.bind (body.sensible_addField _ _ _) fun _ _ =>
        ih each.2

theorem Recipe.all_unionMembers : (unionMembers size offset fields).All holds := by
  induction fields with
  | nil => exact all_pure []
  | cons next rest ih =>
    rw [forall_mem_cons] at each
    exact (all_ask each.1).bind fun _ _ => All.bind (sensible_unionMember _ _) fun _ _ =>
      (ih each.2).bind fun _ _ => all_pure _

theorem Recipe.all_variant : (variant machine size slot offset tag ranges fields).All holds := by
  have parts : (variantParts offset fields).All holds := by
    induction fields with
    | nil => exact all_pure []
    | cons next rest ih =>
      rw [forall_mem_cons] at each
      refine (all_ask each.1).bind fun draft _ => All.bind (sensible_requireAligned _ _) fun _ _ =>
        ?_
      cases draft.fixedSize with
      | none => exact Except.sensible_error.mpr id
      | some width => exact (ih each.2).bind fun _ _ => all_pure _
  exact parts.bind fun _ _ => All.bind (sensible_packVariant _ _ _ _) fun _ _ => all_pure _

end

theorem Recipe.all_variants (each : ∀ next ∈ given, ∀ field ∈ next.fields, holds field.content) :
    (variants machine size slot offset given declared).All holds := by
  induction given generalizing declared with
  | nil => exact all_pure _
  | cons next rest ih =>
    rw [forall_mem_cons] at each
    exact All.bind (slot.sensible_declareTag _ _) fun _ _ =>
      (all_variant each.1).bind fun _ _ => (ih each.2).bind fun _ _ => all_pure _

theorem Shape.forall_parts_tagged {variants : List (Variant Shape)}
    {others : Option (List (Placed Shape))} :
    (∀ part ∈ (tagged size align slot variants others).parts, holds part) ↔
      (∀ next ∈ variants, ∀ field ∈ next.fields, holds field.content) ∧
        ∀ fields, others = some fields → ∀ field ∈ fields, holds field.content := by
  simp only [parts, forall_mem_map, forall_mem_append, mem_flatMap]
  refine and_congr ⟨fun each next isNext field member => each field ⟨next, isNext, member⟩,
    fun each field ⟨next, isNext, member⟩ => each next isNext field member⟩ ?_
  cases others <;> simp

theorem Shape.all_part {catalog : Catalog} (inside : ¬ shape.IsLink)
    (each : ∀ part, shape.Part catalog part → holds part) :
    (shape.recipe machine totalLength offset).All holds := by
  cases shape with
  | scalar number => exact number.sensible_draft
  | sealed => exact All.bind (sensible_requirePowerOfTwo _) fun _ _ => all_pure _
  | struct size align fields =>
    refine All.bind (sensible_requirePowerOfTwo _) fun _ _ =>
      (all_structBody fun field member => ?_).bind fun _ _ => all_pure _
    exact each _ (.struct (mem_sortByOffset.mp member))
  | union size align fields =>
    refine All.bind (sensible_requirePowerOfTwo _) fun _ _ => ?_
    dsimp only
    split
    · exact Except.sensible_error.mpr id
    · exact (all_unionMembers fun _ member => each _ (.union member)).bind fun _ _ => all_pure _
  | tagged size align slot variants others =>
    refine All.bind (sensible_requirePowerOfTwo _) fun _ _ =>
      All.bind (slot.sensible_check _) fun _ checked => ?_
    refine (all_variants fun _ isNext _ member => each _ (.variant isNext member)).bind
      fun made isMade => ?_
    cases others with
    | none => exact all_pure _
    | some fields =>
      dsimp only
      split
      · exact all_pure _
      · rename_i some
        rcases (yields_variants isMade).1 with isDeclared
        simp only [not_mem_nil, false_or] at isDeclared
        rcases exists_unused isDeclared (yields_done checked) (by simpa using some) with
          ⟨bits, low, unused⟩
        exact (all_variant fun _ member => each _ (.others low unused member)).bind fun _ _ =>
          all_pure _
  | array element count =>
    refine (all_ask (each _ .element)).bind fun draft _ => ?_
    cases draft.fixedSize with
    | none => exact Except.sensible_error.mpr id
    | some width => exact All.bind (Plan.sensible_arrayCount _ _ _ _) fun _ _ => all_pure _
  | reference | named => exact absurd trivial inside

theorem Shape.Part.mem_parts {catalog : Catalog} (inside : ¬ shape.IsLink)
    (isPart : shape.Part catalog part) :
    part ∈ shape.parts := by
  cases isPart with
  | struct member | union member => exact mem_map_of_mem member
  | variant isVariant member =>
    exact mem_map_of_mem (mem_append_left _ (mem_flatMap.mpr ⟨_, isVariant, member⟩))
  | others _ _ member => exact mem_map_of_mem (mem_append_right _ member)
  | element => exact mem_singleton_self _
  | referent | definition => exact absurd trivial inside

theorem Shape.all_recipe (inside : ¬ shape.IsLink) (each : ∀ part ∈ shape.parts, holds part) :
    (shape.recipe machine totalLength offset).All holds :=
  all_part inside fun part (isPart : shape.Part {} part) => each part (isPart.mem_parts inside)

theorem Shape.Mentions.of_part {id : DefId} (isPart : part ∈ shape.parts)
    (inner : part.Mentions id) :
    shape.Mentions id := by
  cases shape with
  | struct =>
    rcases mem_map.mp isPart with ⟨_, member, rfl⟩
    exact .struct member inner
  | union =>
    rcases mem_map.mp isPart with ⟨_, member, rfl⟩
    exact .union member inner
  | tagged size align slot variants others =>
    have each : ∀ part ∈ (tagged size align slot variants others).parts, part.Mentions id →
        (tagged size align slot variants others).Mentions id := by
      refine forall_parts_tagged.mpr ⟨fun _ isVariant _ member => .variant isVariant member, ?_⟩
      rintro _ rfl _ member
      exact .others member
    exact each part isPart inner
  | array => exact .element (mem_singleton.mp isPart ▸ inner)
  | _ => cases isPart

@[elab_as_elim]
theorem Shape.recipe_induction {motive : Shape → Prop}
    (direct : ∀ shape, ¬ shape.IsLink → (∀ part ∈ shape.parts, motive part) → motive shape)
    (reference : ∀ referent guarantee, motive referent → motive (.reference referent guarantee))
    (named : ∀ id, motive (.named id)) (shape : Shape) : motive shape := by
  induction shape using parts_induction with
  | scalar | sealed => exact direct _ not_false (by simp [parts])
  | struct _ _ _ ih | union _ _ _ ih => exact direct _ not_false (by simpa [parts] using ih)
  | tagged _ _ _ _ _ ihEach ihRest =>
    exact direct _ not_false (forall_parts_tagged.mpr ⟨ihEach, ihRest⟩)
  | array _ _ ih => exact direct _ not_false (by simpa [parts] using ih)
  | reference referent guarantee ih => exact reference referent guarantee ih
  | named id => exact named id

end Parts

end Recast
