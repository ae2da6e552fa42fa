import Recast.Proofs.Pattern.Ranges
import Recast.Proofs.Pattern.Spells

/-!
# The values of written numbers

The products that a range is split into hold exactly the bytes of the numbers in the range, most
significant byte first (`splitRange_covers`). So the pattern of some ranges spells exactly these
numbers in the byte order of the machine.
-/

namespace Recast

open Extent List

variable {bytes : List UInt8} {product : Product} {width first : Nat}

def bigEndian (width number : Nat) : List UInt8 :=
  (littleEndian width number).reverse

theorem length_littleEndian (width number : Nat) : (littleEndian width number).length = width := by
  induction width generalizing number with
  | zero => rfl
  | succ _ ih => simp [littleEndian, ih]

theorem littleEndian_succ (width number : Nat) :
    littleEndian (width + 1) number =
      littleEndian width (number % numbers width) ++ [.ofNat (number / numbers width)] := by
  induction width generalizing number with
  | zero => simp [littleEndian, numbers]
  | succ width ih =>
    have lowest : UInt8.ofNat (number % numbers (width + 1)) = UInt8.ofNat number := by
      apply UInt8.toNat_inj.mp
      rw [UInt8.toNat_ofNat', UInt8.toNat_ofNat', numbers_succ, Nat.mod_mul_right_mod]
    have others : number % numbers (width + 1) / 256 = number / 256 % numbers width := by
      rw [numbers_succ, Nat.mod_mul_right_div_self]
    have highest : number / 256 / numbers width = number / numbers (width + 1) := by
      rw [numbers_succ, Nat.div_div_eq_div_mul]
    rw [littleEndian, ih (number / 256), highest]
    simp only [littleEndian, lowest, others, cons_append]

theorem bigEndian_succ (width number : Nat) :
    bigEndian (width + 1) number =
      .ofNat (number / numbers width) :: bigEndian width (number % numbers width) := by
  simp [bigEndian, littleEndian_succ]

theorem bigEndian_digit {digit low : Nat} (small : low < numbers width) :
    bigEndian (width + 1) (digit * numbers width + low) = .ofNat digit :: bigEndian width low := by
  have positive := numbers_pos width
  rw [bigEndian_succ, Nat.mul_comm, Nat.mul_add_div positive, Nat.div_eq_of_lt small,
    Nat.mul_add_mod, Nat.mod_eq_of_lt small, Nat.add_zero]

theorem exists_bigEndian (length : bytes.length = width) :
    ∃ number, number < numbers width ∧ bigEndian width number = bytes := by
  induction bytes generalizing width with
  | nil =>
    subst length
    exact ⟨0, numbers_pos 0, rfl⟩
  | cons byte rest ih =>
    subst length
    rcases ih rfl with ⟨low, small, isRest⟩
    refine ⟨byte.toNat * numbers rest.length + low, ?_, ?_⟩
    · rw [length_cons, numbers_succ]
      have digit := byte.toNat_lt
      calc
        byte.toNat * numbers rest.length + low <
            byte.toNat * numbers rest.length + numbers rest.length := by omega
        _ = (byte.toNat + 1) * numbers rest.length := by rw [Nat.succ_mul]
        _ ≤ 256 * numbers rest.length := Nat.mul_le_mul_right _ (by omega)
    · rw [length_cons, bigEndian_digit small, isRest, UInt8.ofNat_toNat]

namespace Pattern

section Products

variable {stop : Nat}

def Product.Holds (product : Product) (bytes : List UInt8) : Prop :=
  Forall₂ (fun values byte => byte ∈ values) product bytes

/-- The products hold the bytes of the numbers from `first` up to `stop`, that one left out, and no
others. -/
def Covers (products : List Product) (width first stop : Nat) : Prop :=
  ∀ bytes, (∃ product ∈ products, product.Holds bytes) ↔
    ∃ number, first ≤ number ∧ number < stop ∧ bigEndian width number = bytes

theorem covers_nil (empty : stop ≤ first) : Covers [] width first stop := by
  intro bytes
  refine iff_of_false (by simp) ?_
  rintro ⟨number, above, below, _⟩
  omega

theorem Covers.append {front back : List Product} (middle : Nat) (behindFirst : first ≤ middle)
    (beforeStop : middle ≤ stop) (frontCovers : Covers front width first middle)
    (backCovers : Covers back width middle stop) : Covers (front ++ back) width first stop := by
  intro bytes
  simp only [mem_append, or_and_right, exists_or, frontCovers bytes, backCovers bytes]
  constructor
  · rintro (⟨number, above, below, same⟩ | ⟨number, above, below, same⟩)
    · exact ⟨number, above, by omega, same⟩
    · exact ⟨number, by omega, below, same⟩
  · rintro ⟨number, above, below, same⟩
    rcases Nat.lt_or_ge number middle with before | after
    · exact .inl ⟨number, above, before, same⟩
    · exact .inr ⟨number, after, below, same⟩

theorem Covers.digit {products : List Product} {low high : Nat} (digit : Nat)
    (small : high ≤ numbers width) (covers : Covers products width low high) :
    Covers (products.map (({UInt8.ofNat digit} : ByteSet) :: ·)) (width + 1)
      (digit * numbers width + low) (digit * numbers width + high) := by
  intro bytes
  constructor
  · rintro ⟨_, member, holds⟩
    rcases mem_map.mp member with ⟨product, isProduct, rfl⟩
    rcases holds with _ | ⟨isDigit, holdsRest⟩
    rw [ByteSet.mem_singleton] at isDigit
    rcases (covers _).mp ⟨product, isProduct, holdsRest⟩ with ⟨number, above, below, rfl⟩
    refine ⟨digit * numbers width + number, by omega, by omega, ?_⟩
    rw [bigEndian_digit (by omega), isDigit]
  · rintro ⟨number, above, below, rfl⟩
    have split : number = digit * numbers width + (number - digit * numbers width) := by
      omega
    rw [split, bigEndian_digit (by omega)]
    rcases (covers _).mpr ⟨number - digit * numbers width, by omega, by omega, rfl⟩ with
      ⟨product, isProduct, holds⟩
    exact ⟨_, mem_map_of_mem isProduct, .cons (ByteSet.mem_singleton.mpr rfl) holds⟩

theorem holds_replicate {values : ByteSet} :
    Product.Holds (List.replicate width values) bytes ↔
      bytes.length = width ∧ ∀ byte ∈ bytes, byte ∈ values := by
  constructor
  · intro holds
    refine ⟨by simpa using holds.length_eq.symm, ?_⟩
    intro _ member
    rcases mem_iff_getElem.mp member with ⟨place, inside, rfl⟩
    have here :=
      (List.forall₂_iff_get.mp holds).2 place (by rw [holds.length_eq]; exact inside) inside
    simpa using here
  · rintro ⟨rfl, members⟩
    induction bytes with
    | nil => exact .nil
    | cons byte _ ih =>
      exact .cons (members byte mem_cons_self)
        (ih fun other member => members other (mem_cons_of_mem _ member))

theorem covers_blocks {low high : Nat} (ordered : low ≤ high) (small : high < 256) :
    Covers [ByteSet.range (.ofNat low) (.ofNat high) :: List.replicate width .full] (width + 1)
      (low * numbers width) ((high + 1) * numbers width) := by
  have positive := numbers_pos width
  have toNat {digit : Nat} (isDigit : digit < 256) : (UInt8.ofNat digit).toNat = digit := by
    rw [UInt8.toNat_ofNat', Nat.mod_eq_of_lt isDigit]
  intro bytes
  simp only [mem_singleton, exists_eq_left]
  constructor
  · intro holds
    rcases holds with _ | ⟨isDigit, holdsRest⟩
    rename_i digit rest
    rw [ByteSet.mem_range, UInt8.le_iff_toNat_le, UInt8.le_iff_toNat_le, toNat small,
      toNat (lt_of_le_of_lt ordered small)] at isDigit
    rcases exists_bigEndian (holds_replicate.mp holdsRest).1 with ⟨number, isSmall, rfl⟩
    have above : low * numbers width ≤ digit.toNat * numbers width :=
      Nat.mul_le_mul_right _ isDigit.1
    have below : (digit.toNat + 1) * numbers width ≤ (high + 1) * numbers width :=
      Nat.mul_le_mul_right _ (Nat.succ_le_succ isDigit.2)
    rw [Nat.succ_mul] at below
    refine ⟨digit.toNat * numbers width + number, by omega, by omega, ?_⟩
    rw [bigEndian_digit isSmall, UInt8.ofNat_toNat]
  · rintro ⟨number, above, below, rfl⟩
    have lowest : low ≤ number / numbers width := (Nat.le_div_iff_mul_le positive).mpr above
    have highest : number / numbers width < high + 1 := (Nat.div_lt_iff_lt_mul positive).mpr below
    rw [bigEndian_succ]
    refine .cons ?_ (holds_replicate.mpr ⟨by simp [bigEndian, length_littleEndian], ?_⟩)
    swap
    · exact fun _ _ => ByteSet.mem_full
    rw [ByteSet.mem_range, UInt8.le_iff_toNat_le, UInt8.le_iff_toNat_le, toNat small,
      toNat (lt_of_le_of_lt ordered small), toNat (by omega)]
    omega

theorem covers_zero : Covers [[]] 0 0 1 := by
  intro _
  simp only [mem_singleton, exists_eq_left]
  constructor
  · rintro ⟨⟩
    exact ⟨0, le_rfl, Nat.one_pos, rfl⟩
  · rintro ⟨_, _, _, rfl⟩
    exact .nil

theorem splitRange_covers {last : Nat} (ordered : first ≤ last) (inside : last < numbers width) :
    Covers (splitRange width first last) width first (last + 1) :=
  splitRange_induction (motive := fun width first stop products => Covers products width first stop)
    covers_zero (covers_nil le_rfl)
    (fun behindFirst beforeStop front back => front.append _ behindFirst beforeStop back)
    (fun digit _ small covers => covers.digit digit small) covers_blocks ordered inside

end Products

section Patterns

variable {order : ByteOrder} {symbols : List Symbol}

theorem eq_replicate_of_mem_splitBy {bytes run : Product} (member : run ∈ bytes.splitBy (· == ·)) :
    ∃ values ∈ bytes, run = List.replicate run.length values ∧ run.headD ∅ = values := by
  rcases run with _ | ⟨values, _⟩
  · exact absurd rfl (ne_nil_of_mem_splitBy member)
  refine ⟨values, ?_, ?_, rfl⟩
  · rw [← flatten_splitBy (· == ·) bytes]
    exact mem_flatten.mpr ⟨_, member, mem_cons_self⟩
  · have chain := isChain_of_mem_splitBy member
    simp only [beq_iff_eq] at chain
    have same := isChain_iff_pairwise.mp chain
    refine eq_replicate_of_mem fun other isOther => ?_
    rcases mem_cons.mp isOther with rfl | inRest
    · rfl
    · exact ((pairwise_cons.mp same).1 other inRest).symm

theorem spellsInTurn_runPatterns {bytes : Product}
    (some : ∀ values ∈ bytes, ∃ byte, byte ∈ values) :
    SpellsInTurn (runPatterns bytes) symbols ↔
      ∃ held : List UInt8, Product.Holds bytes held ∧ symbols = held.map .byte := by
  have inTurn (runs : List Product) (symbols : List Symbol)
      (equal : ∀ run ∈ runs, run ∈ bytes.splitBy (· == ·)) : SpellsInTurn
      (runs.map fun run => (byte (.init (run.headD ∅))).replicate (.exact run.length)) symbols ↔
        ∃ held : List UInt8, Product.Holds runs.flatten held ∧ symbols = held.map .byte := by
    induction runs generalizing symbols with
    | nil =>
      constructor
      · rintro rfl
        exact ⟨[], .nil, rfl⟩
      · rintro ⟨_, ⟨⟩, rfl⟩
        rfl
    | cons run _ ih =>
      rcases eq_replicate_of_mem_splitBy (equal run mem_cons_self) with
        ⟨values, member, isRun, isHead⟩
      have one (symbols : List Symbol) :
          ((byte (.init values)).replicate (.exact run.length)).Spells symbols ↔
            ∃ held : List UInt8, Product.Holds run held ∧ symbols = held.map .byte := by
        rw [spells_bytes (some values member)]
        conv_rhs => rw [isRun]
        simp only [holds_replicate, and_assoc]
      have later := fun symbols => ih symbols fun other isOther =>
        equal other (mem_cons_of_mem _ isOther)
      simp only [map_cons, SpellsInTurn, isHead, one, later, flatten_cons, Product.Holds,
        forall₂_append]
      constructor
      · rintro ⟨_, _, ⟨first, holdsRun, rfl⟩, ⟨second, holdsRest, rfl⟩, rfl⟩
        exact ⟨_, ⟨first, second, holdsRun, holdsRest, rfl⟩, by simp⟩
      · rintro ⟨_, ⟨first, second, holdsRun, holdsRest, rfl⟩, rfl⟩
        exact ⟨_, _, ⟨first, holdsRun, rfl⟩, ⟨second, holdsRest, rfl⟩, by simp⟩
  have all := inTurn (bytes.splitBy (· == ·)) symbols fun _ member => member
  rwa [flatten_splitBy] at all

theorem holds_arrange {held : List UInt8} :
    Product.Holds (order.arrange product) held ↔
      ∃ bytes, product.Holds bytes ∧ held = order.arrange bytes := by
  cases order with
  | little =>
    simp only [ByteOrder.arrange, Product.Holds]
    constructor
    · intro holds
      refine ⟨held.reverse, ?_, by simp⟩
      simpa using rel_reverse holds
    · rintro ⟨_, holds, rfl⟩
      exact rel_reverse holds
  | big => simp [ByteOrder.arrange]

theorem spells_ofProduct (full : product.Full width) :
    (ofProduct order product).Spells symbols ↔
      ∃ bytes, product.Holds bytes ∧ symbols = (order.arrange bytes).map .byte := by
  have isRuns : (ofProduct order product).Spells symbols ↔
      SpellsInTurn (runPatterns (order.arrange product)) symbols := by
    have inOrder : ofProduct order product = ofProduct .big (order.arrange product) := by
      cases order <;> rfl
    rw [inOrder]
    simp only [ofProduct, runPatterns]
    split
    · rename_i pattern single
      rw [single, spellsInTurn_singleton]
    · simp only [Spells]
  have some : ∀ values ∈ order.arrange product, ∃ byte, byte ∈ values := by
    intro values member
    apply full.2 values
    cases order <;> simpa [ByteOrder.arrange] using member
  rw [isRuns, spellsInTurn_runPatterns some]
  simp only [holds_arrange]
  constructor
  · rintro ⟨_, ⟨bytes, holds, rfl⟩, rfl⟩
    exact ⟨bytes, holds, rfl⟩
  · rintro ⟨bytes, holds, rfl⟩
    exact ⟨_, ⟨bytes, holds, rfl⟩, rfl⟩

theorem spells_splitRange {last : Nat} (ordered : first ≤ last) (inside : last < numbers width) :
    (∃ product ∈ splitRange width first last, (ofProduct order product).Spells symbols) ↔
      ∃ number, (first ≤ number ∧ number ≤ last) ∧ symbols = order.encode width number := by
  constructor
  · rintro ⟨product, member, spells⟩
    rw [spells_ofProduct (full_of_mem_splitRange ordered inside member)] at spells
    rcases spells with ⟨bytes, holds, rfl⟩
    rcases (splitRange_covers ordered inside bytes).mp ⟨product, member, holds⟩ with
      ⟨number, above, below, rfl⟩
    exact ⟨number, ⟨above, Nat.le_of_lt_succ below⟩, rfl⟩
  · rintro ⟨number, ⟨above, below⟩, rfl⟩
    rcases (splitRange_covers ordered inside _).mpr
      ⟨number, above, Nat.lt_succ_of_le below, rfl⟩ with
      ⟨product, member, holds⟩
    refine ⟨product, member, ?_⟩
    rw [spells_ofProduct (full_of_mem_splitRange ordered inside member)]
    exact ⟨_, holds, rfl⟩

theorem spells_ofRanges {ranges : List Range}
    (written : ∀ range ∈ ranges, range.first ≤ range.last ∧ range.last < numbers width) :
    (ofRanges order width ranges).Spells symbols ↔ ∃ range ∈ ranges, ∃ number,
      (range.first ≤ number ∧ number ≤ range.last) ∧ symbols = order.encode width number := by
  have anyOf : (ofRanges order width ranges).Spells symbols ↔
      SpellsAny ((ranges.flatMap fun range => splitRange width range.first range.last).map
        (ofProduct order)) symbols := by
    simp only [ofRanges]
    split
    · rename_i pattern single
      simp [single, SpellsAny]
    · simp only [Spells]
  have ofEach : (ofRanges order width ranges).Spells symbols ↔ ∃ range ∈ ranges,
      ∃ product ∈ splitRange width range.first range.last,
      (ofProduct order product).Spells symbols := by
    rw [anyOf, spellsAny_iff]
    simp only [mem_map, mem_flatMap]
    constructor
    · rintro ⟨_, ⟨product, ⟨range, isRange, member⟩, rfl⟩, spells⟩
      exact ⟨range, isRange, product, member, spells⟩
    · rintro ⟨range, isRange, product, member, spells⟩
      exact ⟨_, ⟨product, ⟨range, isRange, member⟩, rfl⟩, spells⟩
  rw [ofEach]
  refine exists_congr fun range => and_congr_right fun isRange => ?_
  exact spells_splitRange (written range isRange).1 (written range isRange).2

end Patterns

end Pattern

end Recast
