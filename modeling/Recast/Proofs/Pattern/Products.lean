import Mathlib.Algebra.Group.Nat.Defs
import Recast.Proofs.Pattern.Numbers

/-!
# The products of a range

The products that a range is split into hold no bytes in common (`splitRange_partitions`), and there
are at most two of them for each byte of the numbers (`length_splitRange_le`): behind the most
significant byte only one end of the range is still free.
-/

namespace Recast

open Extent List

theorem bigEndian_inj {width number other : Nat} (small : number < numbers width)
    (otherSmall : other < numbers width) (same : bigEndian width number = bigEndian width other) :
    number = other := by
  induction width generalizing number other with
  | zero =>
    have numbers : numbers 0 = 1 := rfl
    omega
  | succ width ih =>
    have positive := numbers_pos width
    rw [bigEndian_succ, bigEndian_succ] at same
    rw [numbers_succ] at small otherSmall
    have lower := ih (Nat.mod_lt _ positive) (Nat.mod_lt _ positive) (cons.inj same).2
    have digit : number / numbers width = other / numbers width := by
      have sameByte := congrArg UInt8.toNat (cons.inj same).1
      rwa [UInt8.toNat_ofNat', UInt8.toNat_ofNat',
        Nat.mod_eq_of_lt ((Nat.div_lt_iff_lt_mul positive).mpr small),
          Nat.mod_eq_of_lt ((Nat.div_lt_iff_lt_mul positive).mpr otherSmall)] at sameByte
    rw [← Nat.div_add_mod number (numbers width), ← Nat.div_add_mod other (numbers width), digit,
      lower]

namespace ByteOrder

theorem arrange_injective {α : Type} (order : ByteOrder) : (order.arrange (α := α)).Injective := by
  cases order with
  | little => exact reverse_injective
  | big => exact fun _ _ same => same

end ByteOrder

namespace Pattern

section Apart

variable {width first stop : Nat} {products : List Product}

def Product.Apart (product other : Product) : Prop :=
  ∀ bytes, product.Holds bytes → ¬other.Holds bytes

/-- The products cover the numbers from `first` up to `stop`, each number by one product only. -/
structure Partitions (products : List Product) (width first stop : Nat) : Prop where
  covers : Covers products width first stop
  inside : stop ≤ numbers width
  apart : products.Pairwise Product.Apart

theorem Partitions.append {front back : List Product} {middle : Nat} (behindFirst : first ≤ middle)
    (beforeStop : middle ≤ stop) (frontPart : Partitions front width first middle)
    (backPart : Partitions back width middle stop) :
    Partitions (front ++ back) width first stop where
  covers := frontPart.covers.append middle behindFirst beforeStop backPart.covers
  inside := backPart.inside
  apart := by
    refine pairwise_append.mpr ⟨frontPart.apart, backPart.apart, ?_⟩
    intro product inFront other inBack bytes holds otherHolds
    rcases (frontPart.covers bytes).mp ⟨product, inFront, holds⟩ with ⟨number, _, below, isNumber⟩
    rcases (backPart.covers bytes).mp ⟨other, inBack, otherHolds⟩ with
      ⟨higher, above, inside, isHigher⟩
    have small := backPart.inside
    have same := bigEndian_inj (by omega) (by omega) (isNumber.trans isHigher.symm)
    omega

theorem Partitions.digit {low high digit : Nat} (isDigit : digit < 256)
    (small : high ≤ numbers width) (part : Partitions products width low high) :
    Partitions (products.map (({UInt8.ofNat digit} : ByteSet) :: ·)) (width + 1)
      (digit * numbers width + low) (digit * numbers width + high) where
  covers := part.covers.digit digit small
  inside := by
    calc
      digit * numbers width + high ≤ (digit + 1) * numbers width := by
        rw [Nat.succ_mul]
        omega
      _ ≤ 256 * numbers width := Nat.mul_le_mul_right _ isDigit
      _ = numbers (width + 1) := (numbers_succ width).symm
  apart := by
    refine pairwise_map.mpr (part.apart.imp ?_)
    intro _ _ apart _ holds otherHolds
    rcases holds with _ | ⟨_, holdsRest⟩
    rcases otherHolds with _ | ⟨_, otherHoldsRest⟩
    exact apart _ holdsRest otherHoldsRest

theorem splitRange_partitions {last : Nat} (ordered : first ≤ last)
    (inside : last < numbers width) :
    Partitions (splitRange width first last) width first (last + 1) := by
  refine splitRange_induction (motive := fun width first stop products =>
    stop ≤ numbers width → Partitions products width first stop) ?_ ?_ ?_ ?_ ?_
    ordered inside inside
  · exact fun small => ⟨covers_zero, small, pairwise_singleton _ _⟩
  · exact fun small => ⟨covers_nil le_rfl, small, .nil⟩
  · intro _ _ _ _ _ _ behindFirst beforeStop front back small
    exact (front (by omega)).append behindFirst beforeStop (back small)
  · intro _ _ _ _ _ isDigit small part _
    exact (part small).digit isDigit small
  · intro _ _ _ ordered isDigit small
    exact ⟨covers_blocks ordered isDigit, small, pairwise_singleton _ _⟩

end Apart

theorem length_splitRange_succ_le (width first last : Nat) :
    (splitRange (width + 1) first last).length ≤
      if first / numbers width = last / numbers width then
        (splitRange width (first % numbers width) (last % numbers width)).length
      else
        (if first % numbers width = 0 then 0 else
          (splitRange width (first % numbers width) (numbers width - 1)).length) + 1 +
        (if last % numbers width = numbers width - 1 then 0 else
          (splitRange width 0 (last % numbers width)).length) := by
  have atMostOne (condition : Prop) [Decidable condition] (product : Product) :
      (if condition then [product] else []).length ≤ 1 := by
    split <;> simp
  simp only [splitRange]
  split
  · rw [length_map]
  · simp only [length_append]
    refine Nat.add_le_add (Nat.add_le_add ?_ (atMostOne _ _)) ?_ <;>
      rw [apply_ite length, length_map, length_nil]

theorem length_splitRange_one_le (first last : Nat) :
    (splitRange (0 + 1) first last).length ≤ 1 := by
  have bound := length_splitRange_succ_le 0 first last
  simp only [show numbers 0 = 1 from rfl, Nat.mod_one, if_true] at bound
  split at bound <;> simpa [splitRange] using bound

theorem length_splitRange_upper_le (width first : Nat) :
    (splitRange (width + 1) first (numbers (width + 1) - 1)).length ≤ width + 1 := by
  induction width generalizing first with
  | zero => exact length_splitRange_one_le _ _
  | succ width ih =>
    have bound := length_splitRange_succ_le (width + 1) first (numbers (width + 1 + 1) - 1)
    have positive := numbers_pos (width + 1)
    have highest : (numbers (width + 1 + 1) - 1) % numbers (width + 1) =
        numbers (width + 1) - 1 := by
      rw [numbers_succ, show 256 * numbers (width + 1) - 1 =
        numbers (width + 1) * 255 + (numbers (width + 1) - 1) by omega,
        Nat.mul_add_mod, Nat.mod_eq_of_lt (by omega)]
    rw [highest, if_pos rfl] at bound
    have lower := ih (first % numbers (width + 1))
    split at bound
    · omega
    · split at bound <;> omega

theorem length_splitRange_lower_le (width last : Nat) :
    (splitRange (width + 1) 0 last).length ≤ width + 1 := by
  induction width generalizing last with
  | zero => exact length_splitRange_one_le _ _
  | succ width ih =>
    have bound := length_splitRange_succ_le (width + 1) 0 last
    have lower := ih (last % numbers (width + 1))
    simp only [Nat.zero_mod, if_true] at bound
    split at bound
    · omega
    · split at bound <;> omega

theorem length_splitRange_le (width first last : Nat) :
    (splitRange (width + 1) first last).length ≤ 2 * (width + 1) := by
  induction width generalizing first last with
  | zero =>
    have bound := length_splitRange_one_le first last
    omega
  | succ width ih =>
    have bound := length_splitRange_succ_le (width + 1) first last
    have upper := length_splitRange_upper_le width (first % numbers (width + 1))
    have lower := length_splitRange_lower_le width (last % numbers (width + 1))
    split at bound
    · have same := ih (first % numbers (width + 1)) (last % numbers (width + 1))
      omega
    · split at bound <;> split at bound <;> omega

section Options

variable {order : ByteOrder} {width : Nat} {ranges : List Range} {range : Range} {number : Nat}

def options : Pattern → List Pattern
  | alt options => options
  | pattern => [pattern]

/-- The options that a range adds to the pattern of some ranges, one for each of its products. -/
def ofRange (order : ByteOrder) (width : Nat) (range : Range) : List Pattern :=
  (splitRange width range.first range.last).map (ofProduct order)

theorem options_replicate_byte (cell : Cell) (count : Count) :
    ((byte cell).replicate count).options = [(byte cell).replicate count] := by
  have oneByte : (byte cell).size ≠ some 0 := by simp [byte, size, Token.width]
  rw [replicate, if_neg oneByte]
  split
  · rfl
  · split <;> rfl

theorem options_ofProduct (product : Product) :
    (ofProduct order product).options = [ofProduct order product] := by
  simp only [ofProduct]
  split
  · rename_i pattern single
    have member : pattern ∈ [pattern] := mem_singleton_self pattern
    rw [← single] at member
    rcases mem_map.mp member with ⟨_, _, rfl⟩
    exact options_replicate_byte _ _
  · rfl

theorem options_ofRanges :
    (ofRanges order width ranges).options = ranges.flatMap (ofRange order width) := by
  have isMap : (ranges.flatMap fun range => splitRange width range.first range.last).map
      (ofProduct order) = ranges.flatMap (ofRange order width) := map_flatMap
  simp only [ofRanges]
  split
  · rename_i pattern single
    have member : pattern ∈ [pattern] := mem_singleton_self pattern
    rw [← single] at member
    rcases mem_map.mp member with ⟨_, _, rfl⟩
    rw [options_ofProduct, ← single, isMap]
  · exact isMap

theorem spells_ofRange {symbols : List Symbol} (ordered : range.first ≤ range.last)
    (inside : range.last < numbers width) :
    (∃ pattern ∈ ofRange order width range, pattern.Spells symbols) ↔ ∃ number,
      (range.first ≤ number ∧ number ≤ range.last) ∧ symbols = order.encode width number := by
  rw [← spells_splitRange ordered inside]
  simp [ofRange]

theorem pairwise_ofRange (ordered : range.first ≤ range.last)
    (inside : range.last < numbers width) :
    (ofRange order width range).Pairwise fun pattern other =>
      ∀ symbols, pattern.Spells symbols → ¬other.Spells symbols := by
  refine pairwise_map.mpr ((splitRange_partitions ordered inside).apart.imp_of_mem ?_)
  intro _ _ member otherMember apart _ spells otherSpells
  rw [spells_ofProduct (full_of_mem_splitRange ordered inside member)] at spells
  rw [spells_ofProduct (full_of_mem_splitRange ordered inside otherMember)] at otherSpells
  rcases spells with ⟨bytes, holds, rfl⟩
  rcases otherSpells with ⟨otherBytes, otherHolds, same⟩
  have sameBytes : bytes = otherBytes :=
    order.arrange_injective (map_injective_iff.mpr (fun _ _ => Symbol.byte.inj) same)
  exact apart bytes holds (sameBytes ▸ otherHolds)

/-- The pattern of some ranges spells the numbers in them, and no others. Each range adds at most
two options for each byte, and every number in it is spelled by exactly one of them. -/
theorem ofRanges_encodes (order : ByteOrder) (width : Nat) (ranges : List Range) (some : 1 ≤ width)
    (written : ∀ range ∈ ranges, range.first ≤ range.last ∧ range.last < 2 ^ (8 * width)) :
    (∀ symbols, (ofRanges order width ranges).Spells symbols ↔ ∃ range ∈ ranges, ∃ number,
      (range.first ≤ number ∧ number ≤ range.last) ∧ symbols = order.encode width number) ∧
    (ofRanges order width ranges).options = ranges.flatMap (ofRange order width) ∧
    ∀ range ∈ ranges, (ofRange order width range).length ≤ 2 * width ∧
      ∀ number, range.first ≤ number → number ≤ range.last →
        ∃! place : Fin (ofRange order width range).length,
          ((ofRange order width range).get place).Spells (order.encode width number) := by
  have numbers : numbers width = 2 ^ (8 * width) := by
    rw [Nat.pow_mul]
    rfl
  rw [← numbers] at written
  refine ⟨fun _ => spells_ofRanges written, options_ofRanges, ?_⟩
  intro range member
  rcases written range member with ⟨ordered, inside⟩
  constructor
  · obtain ⟨_, rfl⟩ := Nat.exists_eq_add_of_le' some
    rw [ofRange, length_map]
    exact length_splitRange_le _ _ _
  · intro number above below
    have spelled : ∃ pattern ∈ ofRange order width range,
        pattern.Spells (order.encode width number) :=
      (spells_ofRange ordered inside).mpr ⟨number, ⟨above, below⟩, rfl⟩
    rcases spelled with ⟨_, isOption, spells⟩
    rcases mem_iff_get.mp isOption with ⟨place, rfl⟩
    refine ⟨place, spells, ?_⟩
    intro _ otherSpells
    by_contra differs
    have pairwise : (ofRange order width range).Pairwise _ := pairwise_ofRange ordered inside
    have apart := pairwise_iff_get.mp pairwise
    rcases Fin.lt_or_lt_of_ne differs with before | after
    · exact apart _ _ before _ otherSpells spells
    · exact apart _ _ after _ spells otherSpells

theorem ofRanges_encodes_three_blocks :
    (1 ≤ 2 ∧ ∀ range ∈ [Range.mk 0x0101 0x03fe], range.first ≤ range.last ∧
      range.last < 2 ^ (8 * 2)) ∧
    (∃! place : Fin (ofRange .little 2 ⟨0x0101, 0x03fe⟩).length,
      ((ofRange .little 2 ⟨0x0101, 0x03fe⟩).get place).Spells [.byte 0xfe, .byte 0x03]) :=
  have written : ∀ range ∈ [Range.mk 0x0101 0x03fe],
      range.first ≤ range.last ∧ range.last < 2 ^ (8 * 2) := by decide
  ⟨⟨by decide, written⟩,
    ((ofRanges_encodes .little 2 _ (by decide) written).2.2 _ mem_cons_self).2 0x03fe
      (by decide) (by decide)⟩

end Options

end Pattern

end Recast
