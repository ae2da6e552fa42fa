import Recast.Proofs.Assembly.Unfold
import Mathlib.Data.Int.ModEq
import Mathlib.Data.List.Nodup

/-!
# Tags and bit patterns

The variants of a tagged shape declare their tags one after the other. All of them can be declared
if each tag is a number that fits, be it signed or unsigned, and no two of them have the same bit
pattern (`TagSlot.declareTags_eq_ok`). The gaps that the declared patterns leave are ascending
ranges of all others, so each bit pattern selects one variant, or else is left to the fields for
other tags (`TagSlot.declareTags_partition`).
-/

namespace Recast

open List Assembly

variable {slot : TagSlot} {declared final : List Nat}

namespace TagSlot

/-- Declares some tags in turn. -/
def declareTags (slot : TagSlot) : List Int → (declared : List Nat) → Except Defect (List Nat)
  | [], declared => .ok declared
  | tag :: rest, declared => do
    let (_, extended) ← slot.declareTag declared tag
    slot.declareTags rest extended

def Holds (slot : TagSlot) (tag : Int) : Prop :=
  slot.size = 16 ∨ -2 ^ (8 * slot.size - 1) ≤ tag ∧ tag ≤ 2 ^ (8 * slot.size) - 1

variable {tag other : Int} {tags : List Int} {bits : Nat}

theorem numbers_eq (slot : TagSlot) : (Extent.numbers slot.size : Int) = 2 ^ (8 * slot.size) := by
  change ((256 ^ slot.size : Nat) : Int) = _
  rw [pow_mul]
  norm_cast

section Declared

variable (positive : slot.size ≠ 0) (small : slot.size ≤ 16)

include positive small

theorem bits_eq_ok :
    slot.bits tag = .ok bits ↔ slot.Holds tag ∧ bits = slot.twosComplement tag := by
  have double : (2 : Int) ^ (8 * slot.size) = 2 * 2 ^ (8 * slot.size - 1) := by
    rw [← pow_succ']
    congr 1
    omega
  simp only [TagSlot.bits, Holds, twosComplement, numbers_eq]
  split
  · rename_i outside
    simp only [reduceCtorEq, false_iff]
    rintro ⟨_ | _, _⟩ <;> omega
  · rename_i inside
    rw [Except.ok.injEq, eq_comm]
    refine ⟨fun same => ⟨?_, same⟩, And.right⟩
    omega

theorem declareTag_eq_ok {extended : List Nat} :
    slot.declareTag declared tag = .ok (bits, extended) ↔
    slot.Holds tag ∧ slot.twosComplement tag ∉ declared ∧ bits = slot.twosComplement tag ∧
      extended = bits :: declared := by
  constructor
  · intro isDeclared
    rcases declareTag_adds isDeclared with ⟨rfl, rfl⟩
    simp only [declareTag, bind, Except.bind] at isDeclared
    split at isDeclared
    · cases isDeclared
    rename_i isBits
    rcases (bits_eq_ok positive small).mp isBits with ⟨holds, rfl⟩
    split at isDeclared
    · cases isDeclared
    · exact ⟨holds, ‹_›, rfl, rfl⟩
  · rintro ⟨holds, isNew, rfl, rfl⟩
    simp only [declareTag, (bits_eq_ok positive small).mpr ⟨holds, rfl⟩, bind, Except.bind, isNew,
      if_false]
    rfl

theorem declareTags_eq_ok : slot.declareTags tags declared = .ok final ↔
    (∀ tag ∈ tags, slot.Holds tag ∧ slot.twosComplement tag ∉ declared) ∧
      (tags.map slot.twosComplement).Nodup ∧ final =
        (tags.map slot.twosComplement).reverse ++ declared := by
  induction tags generalizing declared with
  | nil => simp [declareTags, eq_comm]
  | cons tag rest ih =>
    have step : slot.declareTags (tag :: rest) declared = .ok final ↔
        slot.Holds tag ∧ slot.twosComplement tag ∉ declared ∧
          slot.declareTags rest (slot.twosComplement tag :: declared) = .ok final := by
      rw [declareTags]
      rcases isTag : slot.declareTag declared tag with _ | ⟨_, _⟩
      · have refused : ¬ (slot.Holds tag ∧ slot.twosComplement tag ∉ declared) := by
          rintro ⟨holds, isNew⟩
          rw [(declareTag_eq_ok positive small).mpr ⟨holds, isNew, rfl, rfl⟩] at isTag
          cases isTag
        simp only [bind, Except.bind, reduceCtorEq, false_iff]
        exact fun accepted => refused ⟨accepted.1, accepted.2.1⟩
      · rcases (declareTag_eq_ok positive small).mp isTag with ⟨holds, isNew, rfl, rfl⟩
        simp [bind, Except.bind, holds, isNew]
    rw [step, ih]
    rw [forall_mem_cons]
    simp only [map_cons, nodup_cons, reverse_cons, append_assoc, singleton_append,
      mem_cons, not_or, mem_map, not_exists, not_and]
    constructor
    · rintro ⟨holds, isNew, each, distinct, same⟩
      exact ⟨⟨⟨holds, isNew⟩, fun other member => ⟨(each other member).1, (each other member).2.2⟩⟩,
        ⟨fun other member => (each other member).2.1, distinct⟩, same⟩
    · rintro ⟨⟨⟨holds, isNew⟩, each⟩, ⟨others, distinct⟩, same⟩
      exact ⟨holds, isNew, fun other member =>
        ⟨(each other member).1, others other member, (each other member).2⟩, distinct, same⟩

end Declared

theorem twosComplement_eq_iff :
    slot.twosComplement tag = bits ↔ bits < 2 ^ (8 * slot.size) ∧
    tag ≡ bits [ZMOD 2 ^ (8 * slot.size)] := by
  have bound := numbers_eq slot
  have below := slot.twosComplement_lt tag
  have notNegative : 0 ≤ tag % (Extent.numbers slot.size : Int) :=
    Int.emod_nonneg tag (by exact_mod_cast (Extent.numbers_pos slot.size).ne')
  have value : (slot.twosComplement tag : Int) = tag % 2 ^ (8 * slot.size) := by
    rw [twosComplement, Int.toNat_of_nonneg notNegative, bound]
  have room : (bits : Int) < 2 ^ (8 * slot.size) ↔ bits < 2 ^ (8 * slot.size) := by norm_cast
  constructor
  · rintro rfl
    rw [← room, Int.ModEq, value, Int.emod_emod_of_dvd _ dvd_rfl]
    exact ⟨by rw [← value, ← bound]; exact_mod_cast below, rfl⟩
  · rintro ⟨inside, same⟩
    have settled := Int.emod_eq_of_lt (by omega) (room.mpr inside)
    rw [Int.ModEq, ← value, settled] at same
    exact_mod_cast same

theorem twosComplement_eq_twosComplement :
    slot.twosComplement tag = slot.twosComplement other ↔
    tag ≡ other [ZMOD 2 ^ (8 * slot.size)] := by
  have isOther := twosComplement_eq_iff.mp (rfl : slot.twosComplement other = _)
  rw [twosComplement_eq_iff]
  exact ⟨fun same => same.2.trans isOther.2.symm, fun same => ⟨isOther.1, same.trans isOther.2⟩⟩

theorem pairwise_gaps {values : List Nat} {largest next : Nat} (ascending : values.Pairwise (· ≤ ·))
    (start : ∀ value ∈ values, next ≤ value + 1) :
    (gaps largest next values).Pairwise (fun range later => range.last < later.first) ∧
      ∀ range ∈ gaps largest next values, next ≤ range.first := by
  induction values generalizing next with
  | nil =>
    simp only [gaps]
    split <;> simp
  | cons value rest ih =>
    rw [pairwise_cons] at ascending
    have first := start value mem_cons_self
    rcases @ih (value + 1) ascending.2
      (fun other member => Nat.succ_le_succ (ascending.1 other member)) with
      ⟨apart, behind⟩
    simp only [gaps]
    split
    · rename_i before
      refine ⟨.cons (fun range member => ?_) apart,
        forall_mem_cons.mpr ⟨le_rfl, fun range member => ?_⟩⟩
      · exact Nat.lt_of_lt_of_le (by simp only; omega) (behind range member)
      · exact first.trans (behind range member)
    · exact ⟨apart, fun range member => first.trans (behind range member)⟩

theorem existsUnique_tag (distinct : (tags.map slot.twosComplement).Nodup)
    (member : bits ∈ tags.map slot.twosComplement) :
    ∃! index : Fin tags.length, slot.twosComplement (tags.get index) = bits := by
  rcases mem_map.mp member with ⟨_, isTag, rfl⟩
  rcases mem_iff_get.mp isTag with ⟨index, rfl⟩
  refine ⟨index, rfl, fun other same => ?_⟩
  have injective := nodup_iff_injective_get.mp distinct
  have sameIndex := @injective ⟨other, by simp⟩ ⟨index, by simp⟩ (by simpa using same)
  exact Fin.ext (Fin.mk.inj sameIndex)

end TagSlot

namespace Plan

variable {machine : Machine} {size offset : Nat} {scope : Scope} {variants : List (Variant Plan)}
  {shop later : Workshop} {members : List Pattern}

theorem declareTags_of_variants
    (isOk : Plan.variants machine size slot scope offset variants declared shop = .ok
      (members, final) later) :
    slot.declareTags (variants.map Variant.tag) declared = .ok final := by
  induction variants generalizing declared shop members final later with
  | nil =>
    cases isOk
    rfl
  | cons _ _ ih =>
    rcases ofExcept_bind_eq_ok isOk with ⟨⟨_, _⟩, isTag, onward⟩
    rcases bind_eq_ok.mp onward with ⟨_, _, _, onwardThen⟩
    rcases bind_eq_ok.mp onwardThen with ⟨⟨_, _⟩, _, isRest, ⟨⟩⟩
    rw [map_cons, TagSlot.declareTags, isTag]
    exact ih isRest

theorem exists_variants (made : ∀ next ∈ variants, ∀ ranges shop, ∃ member later,
      Plan.variant machine size slot scope offset next.tag ranges next.fields shop = .ok member
        later)
    (isOk : slot.declareTags (variants.map Variant.tag) declared = .ok final) :
    ∃ members later,
      Plan.variants machine size slot scope offset variants declared shop =
        .ok (members, final) later := by
  induction variants generalizing declared shop with
  | nil =>
    cases isOk
    exact ⟨_, _, rfl⟩
  | cons next _ ih =>
    rw [forall_mem_cons] at made
    rw [map_cons, TagSlot.declareTags] at isOk
    rcases isTag : slot.declareTag declared next.tag with _ | ⟨bits, extended⟩
    · rw [isTag] at isOk
      cases isOk
    · rw [isTag] at isOk
      rcases made.1 [⟨bits, bits⟩] shop with ⟨member, middle, isMember⟩
      rcases @ih extended middle made.2 isOk with ⟨others, last, isRest⟩
      refine ⟨member :: others, last, ?_⟩
      have isNext : ofExcept (slot.declareTag declared next.tag) shop =
          .ok (bits, extended) shop := by
        rw [isTag]
        rfl
      exact bind_eq_ok.mpr ⟨_, _, isNext, bind_eq_ok.mpr
        ⟨_, _, isMember, bind_eq_ok.mpr ⟨_, _, isRest, rfl⟩⟩⟩

end Plan

namespace TagSlot

/-- The tags of variants can be declared exactly if each of them can be written and no two of them
are congruent. Where that is so, the ranges of undeclared bit patterns ascend, and each bit pattern
either is in one of them or is that of exactly one tag. What the variants of a shape declare are
their tags, whatever their fields are. -/
theorem declareTags_partition (slot : TagSlot) (positive : slot.size ≠ 0) (small : slot.size ≤ 16)
    (tags : List Int) :
    ((∃ declared, slot.declareTags tags [] = .ok declared) ↔
      (∀ tag ∈ tags, slot.size = 16 ∨ -2 ^ (8 * slot.size - 1) ≤ tag ∧
        tag ≤ 2 ^ (8 * slot.size) - 1) ∧ tags.Pairwise fun tag other =>
          ¬ tag ≡ other [ZMOD 2 ^ (8 * slot.size)]) ∧
    (∀ declared, slot.declareTags tags [] = .ok declared →
      (slot.undeclared declared).Pairwise (fun range later => range.last < later.first) ∧
      (∀ range ∈ slot.undeclared declared, range.first ≤ range.last ∧
        range.last ≤ 2 ^ (8 * slot.size) - 1) ∧
      ∀ bits < 2 ^ (8 * slot.size),
        (∃ range ∈ slot.undeclared declared, range.first ≤ bits ∧ bits ≤ range.last) ∧
            (∀ tag ∈ tags, ¬ tag ≡ bits [ZMOD 2 ^ (8 * slot.size)]) ∨
          (¬ ∃ range ∈ slot.undeclared declared, range.first ≤ bits ∧ bits ≤ range.last) ∧
            ∃! index : Fin tags.length, tags.get index ≡ bits [ZMOD 2 ^ (8 * slot.size)]) ∧
    ∀ machine size scope offset variants shop declared, variants.map Variant.tag = tags →
      (∀ members later, Plan.variants machine size slot scope offset variants [] shop =
        .ok (members, declared) later → slot.declareTags tags [] = .ok declared) ∧
      (slot.declareTags tags [] = .ok declared → (∀ next ∈ variants, ∀ ranges shop, ∃ member later,
        Plan.variant machine size slot scope offset next.tag ranges next.fields shop = .ok member
          later) →
        ∃ members later, Plan.variants machine size slot scope offset variants [] shop =
          .ok (members, declared) later) := by
  have numbers : Extent.numbers slot.size = 2 ^ (8 * slot.size) := by exact_mod_cast numbers_eq slot
  have large := largest_add_one small
  refine ⟨?_, fun declared isDeclared => ?_, ?_⟩
  · have distinct : (tags.map slot.twosComplement).Nodup ↔
        tags.Pairwise fun tag other => ¬ tag ≡ other [ZMOD 2 ^ (8 * slot.size)] := by
      simp only [Nodup, pairwise_map, ne_eq, twosComplement_eq_twosComplement]
    simp only [declareTags_eq_ok positive small, distinct, not_mem_nil, not_false_eq_true, and_true,
      Holds]
    exact ⟨fun ⟨_, each, apart, _⟩ => ⟨each, apart⟩, fun ⟨each, apart⟩ => ⟨_, each, apart, rfl⟩⟩
  · rcases (declareTags_eq_ok positive small).mp isDeclared with ⟨_, distinct, rfl⟩
    rw [append_nil]
    have lower : ∀ bits ∈ (tags.map slot.twosComplement).reverse,
        bits < Extent.numbers slot.size := by
      intro _ member
      rcases mem_map.mp (mem_reverse.mp member) with ⟨tag, _, rfl⟩
      exact slot.twosComplement_lt tag
    refine ⟨(pairwise_gaps (ascending_sorted _) (by simp)).1, fun range member => ?_,
      fun bits inside => ?_⟩
    · have bounds := mem_undeclared small lower member
      omega
    · rw [exists_undeclared small lower, mem_reverse, numbers]
      have isTag (tag : Int) : tag ≡ bits [ZMOD 2 ^ (8 * slot.size)] ↔
          slot.twosComplement tag = bits := by
        rw [twosComplement_eq_iff, and_iff_right inside]
      simp only [isTag]
      by_cases member : bits ∈ tags.map slot.twosComplement
      · exact .inr ⟨fun unused => unused.2 member, existsUnique_tag distinct member⟩
      · exact .inl ⟨⟨inside, member⟩, fun tag isMember same =>
          member (mem_map.mpr ⟨tag, isMember, same⟩)⟩
  · rintro _ _ _ _ _ _ _ rfl
    exact ⟨fun _ _ => Plan.declareTags_of_variants, fun isOk made => Plan.exists_variants made isOk⟩

theorem declareTags_partition_byte :
    ∃ declared, TagSlot.declareTags ⟨0, 1⟩ [-128, 127, 0] [] = .ok declared :=
  ((declareTags_partition ⟨0, 1⟩ (by decide) (by decide) [-128, 127, 0]).1).mpr (by decide)

end TagSlot

end Recast
