import Recast.Proofs.Assembly.Drafts

/-!
# The sizes of drafts

A draft tells whether its shape has a tail, whether it has a fixed size and whether it has bytes
(`Draft.Measures`). All this can be read off the shapes: what matters is the tail at the end of a
shape, and whether the elements of the tail have bytes.
-/

namespace Recast

open Pattern Extent Shape Placed Draft

variable {size align width : Nat} {draft : Draft} {fields : List (Placed Shape)} {member : Pattern}
  {members : List Pattern} {catalog : Catalog} {machine : Machine} {shape : Shape}
  {definition : Definition} {settledCount : Count} {bytes : Option Nat}
  {parts : List (Placed VariantPart)}

namespace Shape

variable {element : Shape → Prop}

theorem EndsIn.mono {weaker : Shape → Prop} (imp : ∀ shape, element shape → weaker shape)
    (ends : EndsIn catalog element shape) :
    EndsIn catalog weaker shape := by
  induction ends with
  | array holds => exact .array (imp _ holds)
  | struct member _ ih => exact .struct member ih
  | named found _ ih => exact .named found ih

theorem Unsized.hasTail (unsized : shape.Unsized catalog machine) : shape.HasTail catalog :=
  unsized.mono fun _ _ => trivial

theorem endsIn_struct :
    EndsIn catalog element (.struct size align fields) ↔
      ∃ field ∈ fields, EndsIn catalog element field.content := by
  constructor
  · intro ends
    cases ends with
    | struct member inner => exact ⟨_, member, inner⟩
  · rintro ⟨_, member, ends⟩
    exact .struct member ends

theorem endsIn_named {id : DefId} (found : catalog.get? id = some definition) :
    EndsIn catalog element (.named id) ↔ EndsIn catalog element definition.shape := by
  constructor
  · intro ends
    cases ends with
    | named isOther inner =>
      rw [found, Option.some.injEq] at isOther
      exact isOther ▸ inner
  · exact .named found

end Shape

/-- The draft has a tail, a fixed size and bytes if the shape has. -/
structure Draft.Measures (catalog : Catalog) (machine : Machine) (shape : Shape) (draft : Draft) :
    Prop where
  shaped : draft.pattern.Shaped
  tail : draft.hasTail ↔ shape.HasTail catalog
  unsized : draft.pattern.size = none ↔ shape.Unsized catalog machine
  bytes : draft.hasTail = false → (draft.pattern.size ≠ some 0 ↔ shape.HasBytes catalog machine)

theorem Draft.Measures.of_fits (fits : draft.pattern.Fits width) (inside : width ≤ cap)
    (noTail : draft.hasTail = false) (notOpen : ¬ shape.HasTail catalog)
    (bytes : width ≠ 0 ↔ shape.HasBytes catalog machine) :
    draft.Measures catalog machine shape where
  shaped := .inl ⟨width, fits, inside⟩
  tail := by simp [noTail, notOpen]
  unsized := by
    rw [size_of_fits fits inside]
    exact iff_of_false (by simp) fun unsized => notOpen unsized.hasTail
  bytes _ := by
    rw [size_of_fits fits inside, ne_eq, Option.some.injEq]
    exact bytes

theorem Scalar.measures_draft {scalar : Scalar} (inside : scalar.size ≤ cap)
    (isDraft : scalar.draft machine = .ok draft) :
    draft.Measures catalog machine (.scalar scalar) := by
  have noTail : ¬ (Shape.scalar scalar).HasTail catalog := by
    rintro ⟨⟩
  have hasBytes : (Shape.scalar scalar).HasBytes catalog machine ↔
      scalar.size ≠ 0 ∧ scalar.contents ≠ .ranges [] := by
    constructor
    · intro bytes
      cases bytes with
      | scalar positive some => exact ⟨positive, some⟩
    · rintro ⟨positive, some⟩
      exact .scalar positive some
  rcases Scalar.fits_draft inside isDraft with ⟨isSized, _, small, fits, bytes⟩
  exact .of_fits fits small isSized noTail (bytes.trans hasBytes.symm)

theorem Pattern.size_replicate_atLeast {body : Pattern} (isWidth : body.size = some width)
    (number : Nat) :
    (body.replicate (.atLeast number)).size = none ↔ width ≠ 0 := by
  by_cases empty : width = 0
  · simp only [replicate, reduceCtorEq, if_false, isWidth, empty, if_true, ne_eq, not_true_eq_false,
      iff_false]
    split <;> simp [unit, never, size, sumOfSizes, largestSize]
  · simp [replicate, isWidth, empty, size]

theorem Draft.measures_array {element : Shape} {count : Count} {offset : Nat}
    (measures : draft.Measures catalog machine element) (fixed : draft.fixedSize = some width)
    (isCount : Plan.arrayCount offset width count none = .ok settledCount) :
    Measures catalog machine (.array element count)
      { pattern := draft.pattern.replicate settledCount, align := draft.align,
        hasTail := !count.isExact } := by
  rcases Plan.arrayCount_eq_ok isCount with ⟨rfl, small⟩ | ⟨_, _, _, _, _, _, ⟨⟩, _⟩
  rcases draft.fixedSize_eq_some fixed with ⟨noTail, isWidth⟩
  rcases measures.shaped.fits_of_size isWidth with ⟨fits, inside⟩
  have bytes : width ≠ 0 ↔ element.HasBytes catalog machine := by
    simpa [isWidth] using measures.bytes noTail
  cases settledCount with
  | exact number =>
    have someBytes : width * number ≠ 0 ↔
        (array element (.exact number)).HasBytes catalog machine := by
      rw [Nat.mul_ne_zero_iff, bytes]
      constructor
      · rintro ⟨elementBytes, positive⟩
        exact .array positive elementBytes
      · intro hasBytes
        cases hasBytes with
        | array positive elementBytes => exact ⟨elementBytes, positive⟩
    exact .of_fits (fits_replicate fits (small _ rfl)) (small _ rfl) rfl (by rintro ⟨⟩) someBytes
  | atLeast number =>
    have unsized : (draft.pattern.replicate (.atLeast number)).size = none ↔
        (array element (.atLeast number)).Unsized catalog machine := by
      have ends : (array element (.atLeast number)).Unsized catalog machine ↔
          element.HasBytes catalog machine := by
        constructor
        · intro unsized
          cases unsized with
          | array holds => exact holds
        · exact .array
      rw [ends, ← bytes]
      exact size_replicate_atLeast isWidth number
    exact {
      shaped := shaped_replicate_atLeast number fits inside
      tail := iff_of_true rfl (.array trivial)
      unsized := unsized
      bytes := by simp [Count.isExact] }

theorem Draft.measures_sealed {name : String} (inside : size ≤ cap) :
    Measures catalog machine (.sealed name size align)
      { pattern := .andThen (.leaf (.marker name)) (.data size), align } := by
  have bytes : size ≠ 0 ↔ (sealed name size align).HasBytes catalog machine := by
    constructor
    · exact .sealed
    · intro hasBytes
      cases hasBytes with
      | sealed positive => exact positive
  exact .of_fits (fits_sealed inside) inside rfl (by rintro ⟨⟩) bytes

section

variable (inside : machine.FitsWords)
  (isWidth : width = if bytes.isSome then machine.pointerSize else satMul machine.pointerSize 2)
include inside isWidth

theorem Machine.reference_width : (width ≠ 0 ↔ machine.pointerSize ≠ 0) ∧ width ≤ cap := by
  have cap : cap ≠ 0 := by decide
  rw [isWidth]
  split
  · exact ⟨Iff.rfl, inside⟩
  · simp only [satMul]
    omega

theorem Draft.measures_reference {referent : Shape} {guarantee : Guarantee} {layout : LayoutId} :
    Measures catalog machine (.reference referent guarantee)
      { pattern := .leaf (.reference ⟨guarantee, layout, width⟩),
        align := machine.pointerSize } := by
  rcases machine.reference_width inside isWidth with ⟨positive, fitsWords⟩
  have hasBytes : width ≠ 0 ↔ (reference referent guarantee).HasBytes catalog machine := by
    rw [positive]
    constructor
    · exact .reference
    · intro hasBytes
      cases hasBytes with
      | reference positive => exact positive
  exact .of_fits rfl fitsWords rfl (by rintro ⟨⟩) hasBytes

end

theorem Draft.Measures.named {id : DefId} (found : catalog.get? id = some definition)
    (measures : draft.Measures catalog machine definition.shape) :
    draft.Measures catalog machine (.named id) where
  shaped := measures.shaped
  tail := measures.tail.trans (endsIn_named found).symm
  unsized := measures.unsized.trans (endsIn_named found).symm
  bytes noTail := by
    rw [measures.bytes noTail]
    constructor
    · exact .named found
    · intro bytes
      cases bytes with
      | named isOther inner =>
        rw [found, Option.some.injEq] at isOther
        exact isOther ▸ inner

section Related

variable {α β γ : Type} {related : α → β → Prop} {items : List α} {others : List β}

theorem exists_mem_iff_of_forall₂ {holds : α → Prop} {holdsToo : β → Prop}
    (same : ∀ item other, related item other → (holds item ↔ holdsToo other))
    (each : List.Forall₂ related items others) :
    (∃ item ∈ items, holds item) ↔ ∃ other ∈ others, holdsToo other := by
  induction each with
  | nil => simp
  | cons here _ ih => simp [same _ _ here, ih]

theorem forall₂_congr_of_forall₂ {first : α → γ → Prop} {second : β → γ → Prop} {results : List γ}
    (same : ∀ item other, related item other → ∀ result, first item result ↔ second other result)
    (each : List.Forall₂ related items others) :
    List.Forall₂ first items results ↔ List.Forall₂ second others results := by
  induction each generalizing results with
  | nil => simp [List.forall₂_nil_left_iff]
  | cons here _ ih => simp only [List.forall₂_cons_left_iff, same _ _ here, ih]

end Related

section Structs

variable {drafts : List (Placed Draft)} {body final : StructBody}

structure StructBody.Lays (size : Nat) (drafts : List (Placed Draft)) (body final : StructBody) :
    Prop where
  parts : final.parts = body.parts ++ spaced body.stop (drafts.map (map Draft.pattern))
  apart : Apart body.stop (drafts.map (map Draft.pattern))
  last : drafts.Pairwise fun before _ => before.content.hasTail = false
  tail : final.hasTail ↔ body.hasTail ∨ ∃ draft ∈ drafts, draft.content.hasTail
  stop : final.hasTail = false →
    final.stop = behind body.stop (drafts.map (map Draft.pattern)) ∧ final.stop ≤ size

theorem StructBody.Grows.lays (grows : Grows size drafts body final)
    (tails : ∀ draft ∈ drafts, draft.content.pattern.size = none → draft.content.hasTail)
    (noMore : body.hasTail → drafts = []) (room : body.hasTail = false → body.stop ≤ size) :
    Lays size drafts body final := by
  induction grows with
  | done body =>
    exact ⟨by simp [spaced], trivial, .nil, by simp, fun noTail => ⟨rfl, room noTail⟩⟩
  | @step field rest body extended _ ordered grown _ ih =>
    rw [List.forall_mem_cons] at tails
    have noTail : body.hasTail = false := Bool.eq_false_iff.mpr fun hasTail => by
      simpa using noMore hasTail
    have hasTail : extended.hasTail = field.content.hasTail := by
      rw [grown.hasTail, Bool.or_eq_left_iff_imp]
      simpa using tails.1
    have isLast (tail : field.content.hasTail) : rest = [] := by
      simpa using grown.last (hasTail.trans tail)
    have lays := ih tails.2 (hasTail ▸ isLast) grown.room
    have stop : extended.stop = (field.map Draft.pattern).offset +
      (field.map Draft.pattern).content.size.getD 0 := grown.stop
    refine ⟨?_, ⟨ordered, ?_, ?_⟩, ?_, ?_, ?_⟩
    · rw [lays.parts, grown.parts, grown.stop]
      simp [spaced, map]
    · intro more unsized
      apply more
      simp [isLast (tails.1 unsized)]
    · exact stop ▸ lays.apart
    · refine .cons (fun _ member => ?_) lays.last
      refine Bool.eq_false_iff.mpr fun tail => ?_
      simp [isLast tail] at member
    · rw [lays.tail, noTail, hasTail]
      simp
    · rw [List.map_cons, behind, ← stop]
      exact lays.stop

theorem StructBody.Lays.pattern_eq (lays : Lays size drafts {} body) :
    body.pattern size = if body.hasTail then concat (spaced 0 (drafts.map (map Draft.pattern)))
      else concat (spaced 0 (drafts.map (map Draft.pattern)) ++
        [padding (size - behind 0 (drafts.map (map Draft.pattern)))]) := by
  have parts : body.parts = spaced 0 (drafts.map (map Draft.pattern)) := by
    simpa using lays.parts
  rw [StructBody.pattern, parts]
  split
  · rfl
  · rename_i noTail
    rw [(lays.stop (by simpa using noTail)).1]

theorem StructBody.Grows.lays_fields (grows : Grows size drafts {} body)
    (each : List.Forall₂ (Draft.HoldsAt (Draft.Measures catalog machine)) (sortByOffset fields)
      drafts) : Lays size drafts {} body :=
  have tails := forall_of_forall₂ each fun _ _ measures unsized =>
      measures.2.tail.mpr (measures.2.unsized.mp unsized).hasTail
  grows.lays tails (by simp) fun _ => Nat.zero_le _

theorem StructBody.Lays.fills (lays : Lays size drafts {} body)
    (each : List.Forall₂ (Draft.HoldsAt (Draft.Measures catalog machine)) (sortByOffset fields)
      drafts) (noTail : body.hasTail = false) :
    Fills size (drafts.map (map Draft.pattern)) (body.pattern size) := by
  have none : ∀ draft ∈ drafts, draft.content.hasTail = false := by
    simpa [noTail] using lays.tail
  have measures : ∀ draft ∈ drafts, draft.content.pattern.Shaped ∧
      (draft.content.pattern.size = .none → draft.content.hasTail) :=
    forall_of_forall₂ each fun _ _ measures => ⟨measures.2.shaped, fun unsized =>
      measures.2.tail.mpr (measures.2.unsized.mp unsized).hasTail⟩
  rcases lays.stop noTail with ⟨isStop, room⟩
  refine ⟨?_, ?_, lays.apart, isStop ▸ room, ?_⟩
  · exact List.forall_mem_map.mpr fun draft member => (measures draft member).1
  · refine List.forall_mem_map.mpr fun draft member unsized => ?_
    simpa [none draft member] using (measures draft member).2 unsized
  · rw [lays.pattern_eq, noTail, if_neg Bool.false_ne_true]

theorem Draft.measures_struct (inside : size ≤ cap) (shaped : (body.pattern size).Shaped)
    (each : List.Forall₂ (Draft.HoldsAt (Draft.Measures catalog machine)) (sortByOffset fields)
      drafts) (grows : StructBody.Grows size drafts {} body) :
    Draft.Measures catalog machine (.struct size align fields)
      { pattern := body.pattern size, align, hasTail := body.hasTail } := by
  have perm := perm_sortByOffset fields
  have lays := grows.lays_fields each
  have shapeTail : body.hasTail ↔ (struct size align fields).HasTail catalog := by
    rw [lays.tail, HasTail, endsIn_struct]
    have same := exists_mem_iff_of_forall₂ (fun _ _ measures => measures.2.tail.symm) each
    simp only [perm.mem_iff] at same
    simpa [HasTail] using same.symm
  have shapeUnsized : (∃ draft ∈ drafts, draft.content.pattern.size = none) ↔
      (struct size align fields).Unsized catalog machine := by
    rw [Unsized, endsIn_struct,
      ← exists_mem_iff_of_forall₂ (fun _ _ measures => measures.2.unsized.symm) each]
    simp only [perm.mem_iff]
    rfl
  cases isTail : body.hasTail with
  | true =>
    refine ⟨shaped, by simpa [isTail] using shapeTail, ?_, by simp⟩
    rw [lays.pattern_eq, isTail, if_pos rfl, size_concat_spaced_eq_none, ← shapeUnsized]
    simp [map]
  | false =>
    have bytes : size ≠ 0 ↔ (struct size align fields).HasBytes catalog machine := by
      constructor
      · exact .struct
      · intro hasBytes
        cases hasBytes with
        | struct positive => exact positive
    exact .of_fits ((lays.fills each isTail).fits inside) inside rfl
      (by simpa [isTail] using shapeTail) bytes

end Structs

theorem Draft.measures_alt (fits : ∀ member ∈ members, member.Fits size) (inside : size ≤ cap)
    (noTail : ¬ shape.HasTail catalog)
    (bytes : (if members = [] then 0 else size) ≠ 0 ↔ shape.HasBytes catalog machine) :
    Measures catalog machine shape { pattern := .alt members, align } := by
  by_cases none : members = []
  · rw [if_pos none] at bytes
    subst none
    exact .of_fits fits_never (Nat.zero_le _) rfl noTail bytes
  · rw [if_neg none] at bytes
    exact .of_fits ⟨fun isNil => absurd isNil none, fitEach_iff.mpr fits⟩ inside rfl noTail bytes

theorem Draft.measures_union (inside : size ≤ cap) (some : fields ≠ [])
    (each : List.Forall₂ (fun field member => ∃ draft,
      HoldsAt (Measures catalog machine) field draft ∧
        unionMember size draft = .ok member) fields members) :
    Measures catalog machine (.union size align fields) { pattern := .alt members, align } := by
  have someMember : members ≠ [] := by
    rintro rfl
    exact some (List.forall₂_nil_right_iff.mp each)
  have fits : ∀ member ∈ members, member.Fits size := by
    refine forall_of_forall₂ each ?_
    rintro _ _ ⟨_, measures, isMember⟩
    exact (fills_unionMember measures.2.shaped isMember).fits inside
  refine measures_alt fits inside (by rintro ⟨⟩) ?_
  rw [if_neg someMember]
  constructor
  · exact .union
  · intro hasBytes
    cases hasBytes with
    | union positive => exact positive

section Variants

variable {slot : TagSlot} {declared : List Nat}

variable {variants : List (Variant Shape)} {others : Option (List (Placed Shape))}
  {rest : List Pattern}

theorem Draft.measures_tagged (inside : size ≤ cap) (slotFits : slot.check size = .ok ())
    (isDeclared : ∀ bits, bits ∈ declared ↔ ∃ variant ∈ variants,
      bits = slot.twosComplement variant.tag)
    (each : AreVariants (Measures catalog machine) machine size slot variants members)
    (isRest : IsRest (Measures catalog machine) machine size slot declared others rest) :
    Measures catalog machine (.tagged size align slot variants others)
      { pattern := .alt (members ++ rest), align } := by
  rcases TagSlot.check_eq_ok slotFits with ⟨positive, small, fitsInside⟩
  have lower := TagSlot.declared_lt isDeclared
  have noVariant : members = [] ↔ variants = [] := by
    rw [← List.length_eq_zero_iff, ← each.length_eq, List.length_eq_zero_iff]
  have empty : members ++ rest = [] ↔ variants = [] ∧ others = none := by
    rw [List.append_eq_nil_iff, noVariant]
    refine and_congr_right fun none => ?_
    -- Without variants no tag is declared.
    have unlisted : (0 : Nat) ∉ declared := by simp [isDeclared, none]
    rcases (TagSlot.exists_undeclared small lower).mpr ⟨numbers_pos _, unlisted⟩ with
      ⟨range, member, _⟩
    have some := List.ne_nil_of_mem member
    rcases isRest with ⟨rfl, condition⟩ | ⟨_, _, rfl, _, rfl, _⟩
    · exact iff_of_true rfl (condition.resolve_right some)
    · simp
  refine measures_alt (fun member isMember => ?_) inside (by rintro ⟨⟩) ?_
  · rcases exists_isVariant isDeclared slotFits each isRest member isMember with
      ⟨_, _, _, writes, isVariant⟩
    rcases isVariant.fills writes fun _ _ => Measures.shaped with ⟨_, _, fills⟩
    exact fills.fits inside
  · constructor
    · intro positive
      refine .tagged ?_
      by_contra none
      simp only [ne_eq, not_or, not_not] at none
      exact positive (if_pos (empty.mpr none))
    · intro hasBytes
      cases hasBytes with
      | tagged some =>
        rw [if_neg fun none => some.elim (absurd (empty.mp none).1) (absurd (empty.mp none).2)]
        omega

end Variants

theorem Draft.passes_measures (inside : machine.FitsWords) :
    Passes catalog machine fun _ => Measures catalog machine where
  unsized := Measures.unsized
  composed words shaped composed := by
    have inside := words.inside
    cases composed with
    | scalar isDraft => exact Scalar.measures_draft inside isDraft
    | struct each grows => exact measures_struct inside shaped each grows
    | union some each => exact measures_union inside some each
    | tagged fits isDeclared each isRest => exact measures_tagged inside fits isDeclared each isRest
    | array drawn fixed isCount => exact measures_array drawn fixed isCount
    | sealed => exact measures_sealed inside
  reference isWidth _ := measures_reference inside isWidth
  named := Measures.named

end Recast
