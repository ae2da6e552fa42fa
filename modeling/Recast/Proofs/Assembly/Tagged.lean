import Recast.Proofs.Assembly.Composed

/-!
# Drafts of tagged shapes

A tagged shape is any one of its variants, each of which has a tag in two's complement and fields.
The fields for other tags belong to all tags that no variant has declared.
-/

namespace Recast

open Pattern List Shape TagSlot Draft

variable {others : Option (List (Placed Shape))} {rest : List Pattern} {catalog : Catalog}
  {machine : Machine} {settled : Prop} {size align : Nat} {whole : List Symbol} {slot : TagSlot}
  {tag : Int} {ranges : List Range} {fields : List (Placed Shape)} {member : Pattern}
  {declared : List Nat}

def Shape.DenotesTagged (catalog : Catalog) (machine : Machine) (size : Nat) (slot : TagSlot)
    (bits : Nat) (fields : List (Placed Shape)) (whole : List Symbol) : Prop :=
  ∃ pieces, Forall₂ (fun (field : Placed Shape) piece => piece.offset = field.offset ∧
    field.content.Denotes catalog machine piece.content) fields pieces ∧
      Symbol.Composes 0 size (⟨slot.offset, machine.byteOrder.encode slot.size bits⟩ :: pieces)
        whole

theorem Pattern.IsVariant.spells_iff (writes : slot.Writes ranges)
    (renders : IsVariant (Renders catalog machine settled) machine size slot tag ranges fields
      member)
    (isSettled : settled) :
    member.Spells whole ↔ ∃ range ∈ ranges, ∃ bits, (range.first ≤ bits ∧ bits ≤ range.last) ∧
      DenotesTagged catalog machine size slot bits fields whole := by
  rcases renders.fills writes fun _ _ renders => renders.measures.shaped with ⟨parts, each, fills⟩
  have perm := Placed.perm_sortByOffset
    (⟨slot.offset, slot.size, .ofRanges machine.byteOrder slot.size ranges⟩ :: parts)
  have tagLeaves : (ofRanges machine.byteOrder slot.size ranges).Leaves Token.Solid :=
    leaves_ofRanges (fun _ someByte => someByte) writes.written
  have partLeaves : ∀ part ∈ parts, part.content.pattern.Leaves Token.Solid := by
    refine forall_of_forall₂ each ?_
    rintro _ _ ⟨_, _, renders, _, isPattern⟩
    exact isPattern ▸ renders.leaves
  have leaves : ∀ part ∈ (Placed.sortByOffset (⟨slot.offset, slot.size,
      .ofRanges machine.byteOrder slot.size ranges⟩ :: parts)).map (Placed.map VariantPart.pattern),
      part.content.Leaves Token.Solid := by
    refine forall_mem_map.mpr fun part isPart => ?_
    rcases mem_cons.mp (perm.mem_iff.mp isPart) with rfl | inParts
    · exact tagLeaves
    · exact partLeaves part inParts
  have partly (pieces : List (Placed (List Symbol))) :
      Forall₂ (fun (part : Placed VariantPart) => SpellsAt (part.map VariantPart.pattern)) parts
      pieces ↔ Forall₂ (fun (field : Placed Shape) piece => piece.offset = field.offset ∧
        field.content.Denotes catalog machine piece.content) fields pieces := by
    refine (forall₂_congr_of_forall₂ (fun _ _ partRenders _ => ?_) each).symm
    rcases partRenders with ⟨offset, _, draftRenders, _, isPattern⟩
    rw [SpellsAt, Placed.map, isPattern, offset, draftRenders.spells isSettled]
  rw [fills.spells_iff leaves]
  simp only [forall₂_map_left_iff]
  constructor
  · intro composed
    rcases exists_composes_of_perm perm composed with ⟨_, _ | ⟨tagSpells, partsSpell⟩, composes⟩
    rename_i tagPiece pieces
    rcases (spells_ofRanges writes.written).mp tagSpells.2 with
      ⟨range, inRanges, bits, between, isTag⟩
    refine ⟨range, inRanges, bits, between, pieces, (partly pieces).mp partsSpell, ?_⟩
    have isOffset : tagPiece.offset = slot.offset := tagSpells.1
    rw [← isTag, ← isOffset]
    exact composes
  · rintro ⟨range, inRanges, bits, between, pieces, denotes, composes⟩
    refine exists_composes_of_perm perm.symm
      ⟨_, .cons ⟨rfl, ?_⟩ ((partly pieces).mpr denotes), composes⟩
    exact (spells_ofRanges writes.written).mpr ⟨range, inRanges, bits, between, rfl⟩

theorem Pattern.IsVariant.spells_declared (small : slot.size ≤ 16) (isSettled : settled)
    (renders : IsVariant (Renders catalog machine settled) machine size slot tag
      [⟨slot.twosComplement tag, slot.twosComplement tag⟩] fields member) :
    member.Spells whole ↔
      DenotesTagged catalog machine size slot (slot.twosComplement tag) fields whole := by
  rw [renders.spells_iff (writes_declared small tag) isSettled]
  simp only [mem_singleton, exists_eq_left]
  constructor
  · rintro ⟨_, between, denotes⟩
    exact Nat.le_antisymm between.2 between.1 ▸ denotes
  · intro denotes
    exact ⟨_, ⟨le_rfl, le_rfl⟩, denotes⟩

variable {variants : List (Variant Shape)} {members : List Pattern}

theorem Pattern.IsRest.spells_iff (small : slot.size ≤ 16)
    (lower : ∀ bits ∈ declared, bits < Extent.numbers slot.size)
    (renders : IsRest (Renders catalog machine settled) machine size slot declared others rest)
    (isSettled : settled) :
    (∃ member ∈ rest, member.Spells whole) ↔
      ∃ fields, others = some fields ∧ ∃ bits, bits < Extent.numbers slot.size ∧
        bits ∉ declared ∧ DenotesTagged catalog machine size slot bits fields whole := by
  have undeclared {bits : Nat} := @exists_undeclared bits declared slot small lower
  rcases renders with ⟨rfl, condition⟩ | ⟨fields, member, rfl, some, rfl, renders⟩
  · simp only [not_mem_nil, false_and, exists_false, false_iff]
    rintro ⟨_, isSome, _, low, unlisted, _⟩
    have none := condition.resolve_left (by simp [isSome])
    rcases undeclared.mpr ⟨low, unlisted⟩ with ⟨_, member, _⟩
    simp [none] at member
  · simp only [mem_singleton, exists_eq_left, Option.some.injEq, exists_eq_left']
    rw [renders.spells_iff (writes_undeclared small some lower) isSettled]
    constructor
    · rintro ⟨range, inRanges, bits, between, denotes⟩
      rcases undeclared.mp ⟨range, inRanges, between⟩ with ⟨low, unlisted⟩
      exact ⟨bits, low, unlisted, denotes⟩
    · rintro ⟨bits, low, unlisted, denotes⟩
      rcases undeclared.mpr ⟨low, unlisted⟩ with ⟨range, inRanges, between⟩
      exact ⟨range, inRanges, bits, between, denotes⟩

theorem Shape.denotes_tagged :
    (tagged size align slot variants others).Denotes catalog machine whole ↔
      (∃ variant ∈ variants, DenotesTagged catalog machine size slot
        (slot.twosComplement variant.tag) variant.fields whole) ∨
      ∃ fields, others = some fields ∧ ∃ bits, bits < Extent.numbers slot.size ∧
        (∀ variant ∈ variants, bits ≠ slot.twosComplement variant.tag) ∧
        DenotesTagged catalog machine size slot bits fields whole := by
  have refilled (bits : Nat) (fields : List (Placed Shape)) := exists_refill fields
    (fun field value => field.content.Denotes catalog machine value) fun pieces =>
    Symbol.Composes 0 size (⟨slot.offset, machine.byteOrder.encode slot.size bits⟩ :: pieces) whole
  constructor
  · intro denotes
    cases denotes with
    | variant member each composes =>
      exact .inl ⟨_, member, (refilled _ _).mp ⟨_, each, composes⟩⟩
    | others inside undeclared each composes =>
      exact .inr ⟨_, rfl, _, inside, undeclared, (refilled _ _).mp ⟨_, each, composes⟩⟩
  · rintro (⟨_, member, denotes⟩ | ⟨_, rfl, _, inside, undeclared, denotes⟩) <;>
      rcases (refilled _ _).mpr denotes with ⟨_, each, composes⟩
    · exact .variant member each composes
    · exact .others inside undeclared each composes

theorem Draft.spells_tagged (slotFits : slot.check size = .ok ())
    (isDeclared : ∀ bits, bits ∈ declared ↔ ∃ variant ∈ variants,
      bits = slot.twosComplement variant.tag)
    (each : AreVariants (Renders catalog machine settled) machine size slot variants members)
    (isRest : IsRest (Renders catalog machine settled) machine size slot declared others rest)
    (isSettled : settled) :
    (alt (members ++ rest)).Spells whole ↔
      (tagged size align slot variants others).Denotes catalog machine whole := by
  rcases check_eq_ok slotFits with ⟨_, small, _⟩
  have lower := declared_lt isDeclared
  simp only [Spells, spellsAny_iff, mem_append, or_and_right, exists_or]
  rw [denotes_tagged, isRest.spells_iff small lower isSettled,
    ← exists_mem_iff_of_forall₂ (fun _ _ renders => (renders.spells_declared small isSettled).symm)
      each]
  simp only [isDeclared, not_exists, not_and, ne_eq]

end Recast
