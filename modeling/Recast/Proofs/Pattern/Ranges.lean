import Mathlib.Data.List.SplitBy
import Recast.Pattern.Digits
import Recast.Proofs.Pattern.Sized

/-!
# The size of written numbers

The products that a range is split into have one set of values for each byte, and none of these sets
is empty. So the pattern of some ranges has the size that the numbers are written with, unless there
is no range at all: then it has no value, and counts as having no bytes.
-/

namespace Recast.Pattern

open List Extent ByteSet

variable {order : ByteOrder} {width : Nat} {product : Product} {proper : Token → Prop}

def Product.Full (width : Nat) (product : Product) : Prop :=
  product.length = width ∧ ∀ values ∈ product, ∃ byte, byte ∈ values

theorem Product.full_cons {values : ByteSet} (some : ∃ byte, byte ∈ values)
    (full : Product.Full width product) :
    Product.Full (width + 1) (values :: product) := by
  refine ⟨by simp [full.1], ?_⟩
  intro other member
  rcases mem_cons.mp member with rfl | inside
  · exact some
  · exact full.2 other inside

theorem Product.full_replicate (width : Nat) : Product.Full width (List.replicate width .full) := by
  refine ⟨length_replicate, ?_⟩
  intro _ member
  rw [List.eq_of_mem_replicate member]
  exact ⟨0, mem_full⟩

theorem exists_mem_range {first last : Nat} (ordered : first ≤ last) (inside : last < 256) :
    ∃ byte, byte ∈ range (.ofNat first) (.ofNat last) := by
  refine ⟨.ofNat first, mem_range.mpr ⟨UInt8.le_refl _, ?_⟩⟩
  rw [UInt8.le_iff_toNat_le, UInt8.toNat_ofNat', UInt8.toNat_ofNat',
    Nat.mod_eq_of_lt (by omega), Nat.mod_eq_of_lt inside]
  exact ordered

/-- What holds of the products of a range: the range is put together, from the lower end up, from
ranges that share their most significant byte and from full blocks. -/
theorem splitRange_induction {motive : (width first stop : Nat) → List Product → Prop}
    (zero : motive 0 0 1 [[]]) (nil : ∀ {width first}, motive width first first [])
    (append : ∀ {width first middle stop front back}, first ≤ middle → middle ≤ stop →
      motive width first middle front → motive width middle stop back →
      motive width first stop (front ++ back))
    (digit : ∀ {width low high products} (digit : Nat), digit < 256 → high ≤ numbers width →
      motive width low high products →
      motive (width + 1) (digit * numbers width + low) (digit * numbers width + high)
        (products.map (({UInt8.ofNat digit} : ByteSet) :: ·)))
    (blocks : ∀ {width low high}, low ≤ high → high < 256 →
      motive (width + 1) (low * numbers width) ((high + 1) * numbers width)
        [.range (.ofNat low) (.ofNat high) :: List.replicate width .full]) {first last : Nat}
    (ordered : first ≤ last) (inside : last < numbers width) :
    motive width first (last + 1) (splitRange width first last) := by
  induction width generalizing first last with
  | zero =>
    obtain rfl : last = 0 := by simpa [numbers] using inside
    obtain rfl : first = 0 := Nat.le_zero.mp ordered
    exact zero
  | succ width ih =>
    have positive := numbers_pos width
    have highDigit : last / numbers width < 256 := by
      rw [Nat.div_lt_iff_lt_mul positive]
      rwa [← numbers_succ]
    have digits : first / numbers width ≤ last / numbers width := Nat.div_le_div_right ordered
    have lowSmall := Nat.mod_lt first positive
    have highSmall := Nat.mod_lt last positive
    have firstSplit := Nat.div_add_mod first (numbers width)
    have lastSplit := Nat.div_add_mod last (numbers width)
    rw [Nat.mul_comm] at firstSplit lastSplit
    simp only [splitRange]
    generalize first / numbers width = lowDigit at *
    generalize last / numbers width = topDigit at *
    generalize first % numbers width = low at *
    generalize last % numbers width = high at *
    subst firstSplit lastSplit
    split
    · rename_i same
      subst same
      exact digit lowDigit highDigit highSmall (ih (by omega) highSmall)
    · rename_i different
      generalize isBlock : numbers width = block at *
      generalize isFirstFull : (if low = 0 then lowDigit else lowDigit + 1) = firstFull
      generalize isLastFull : (if high = block - 1 then topDigit else topDigit - 1) = lastFull
      have above : lowDigit ≤ firstFull ∧ firstFull ≤ lastFull + 1 ∧ lastFull ≤ topDigit := by
        split at isFirstFull <;> split at isLastFull <;> omega
      -- Where an end lies at the end of a block, there is nothing to split off there.
      have lowPart : motive (width + 1) (lowDigit * block + low) (firstFull * block)
          (if low = 0 then [] else
            (splitRange width low (block - 1)).map (({UInt8.ofNat lowDigit} : ByteSet) :: ·)) := by
        subst isFirstFull
        split
        · rename_i isFull
          rw [isFull, Nat.add_zero]
          exact nil
        · have narrow : low ≤ block - 1 := by omega
          have part := digit lowDigit (by omega) (by omega) (ih narrow (by omega))
          have ends : (lowDigit + 1) * block = lowDigit * block + (block - 1 + 1) := by
            rw [Nat.succ_mul]
            omega
          rwa [isBlock, ← ends] at part
      have fullPart : motive (width + 1) (firstFull * block) ((lastFull + 1) * block)
          (if firstFull ≤ lastFull then
            [.range (.ofNat firstFull) (.ofNat lastFull) :: List.replicate width
              .full] else []) := by
        split
        · rename_i some
          rw [← isBlock]
          exact blocks some (by omega)
        · rw [show firstFull = lastFull + 1 by omega]
          exact nil
      have highPart : motive (width + 1) ((lastFull + 1) * block) (topDigit * block + high + 1)
          (if high = block - 1 then [] else
            (splitRange width 0 high).map (({UInt8.ofNat topDigit} : ByteSet) :: ·)) := by
        subst isLastFull
        split
        · rw [Nat.succ_mul, show topDigit * block + high + 1 = topDigit * block + block by omega]
          exact nil
        · have part := digit topDigit highDigit (by omega) (ih (Nat.zero_le high) highSmall)
          rw [show topDigit - 1 + 1 = topDigit by omega, Nat.add_assoc]
          rwa [isBlock] at part
      have lowest : lowDigit * block + low ≤ firstFull * block := by
        subst isFirstFull
        split
        · omega
        · rw [Nat.succ_mul]
          omega
      have middle : firstFull * block ≤ (lastFull + 1) * block := Nat.mul_le_mul_right _ above.2.1
      have highest : (lastFull + 1) * block ≤ topDigit * block + high + 1 := by
        subst isLastFull
        split
        · rw [Nat.succ_mul]
          omega
        · rw [show topDigit - 1 + 1 = topDigit by omega]
          omega
      exact append (by omega) highest (append lowest middle lowPart fullPart) highPart

theorem full_of_mem_splitRange {first last : Nat} (ordered : first ≤ last)
    (inside : last < numbers width) (member : product ∈ splitRange width first last) :
    Product.Full width product := by
  revert product
  refine splitRange_induction (motive := fun width _ _ products =>
    ∀ {product}, product ∈ products → Product.Full width product) ?_ ?_ ?_ ?_ ?_ ordered inside
  · intro _ member
    rw [mem_singleton.mp member]
    exact ⟨rfl, by simp⟩
  · simp
  · intro _ _ _ _ _ _ _ _ front back _ member
    exact (mem_append.mp member).elim front back
  · intro _ _ _ _ _ _ _ lower _ member
    rcases mem_map.mp member with ⟨_, isRest, rfl⟩
    exact Product.full_cons ⟨_, mem_singleton.mpr rfl⟩ (lower isRest)
  · intro width _ _ ordered small _ member
    rw [mem_singleton.mp member]
    exact Product.full_cons (exists_mem_range ordered small) (Product.full_replicate width)

/-- The bytes of a product as they lie in memory, each run of equal neighbours as one pattern. -/
def runPatterns (bytes : Product) : List Pattern :=
  (bytes.splitBy (· == ·)).map fun run =>
    (byte (.init (run.headD ∅))).replicate (.exact run.length)

theorem ofProduct_eq (order : ByteOrder) (product : Product) :
    ∃ bytes : Product, bytes.Perm product ∧
      (runPatterns bytes = [ofProduct order product] ∨
        ofProduct order product = .seq (runPatterns bytes)) := by
  obtain ⟨bytes, perm, inOrder⟩ :
      ∃ bytes : Product, bytes.Perm product ∧ ofProduct order product = ofProduct .big bytes := by
    cases order with
    | little => exact ⟨product.reverse, reverse_perm product, rfl⟩
    | big => exact ⟨product, Perm.refl product, rfl⟩
  refine ⟨bytes, perm, ?_⟩
  rw [inOrder]
  simp only [ofProduct, runPatterns]
  split
  · rename_i same
    exact .inl same
  · exact .inr rfl

theorem fitTogether_runPatterns (bytes : Product) (inside : bytes.length ≤ cap) :
    FitTogether (runPatterns bytes) bytes.length := by
  have fit (runs : List (List ByteSet)) (small : runs.flatten.length ≤ cap) :
      FitTogether (runs.map fun run => (byte (.init (run.headD ∅))).replicate (.exact run.length))
        runs.flatten.length := by
    induction runs with
    | nil => simp [FitTogether]
    | cons run rest ih =>
      simp only [flatten_cons, length_append] at small
      simp only [map_cons, FitTogether, flatten_cons, length_append]
      refine ⟨run.length, rest.flatten.length, ?_, ih (by omega), rfl⟩
      have cell : (byte (.init (run.headD ∅))).Fits 1 := by simp [byte, Fits, Token.width]
      have oneEach : 1 * run.length ≤ cap := by omega
      simpa using fits_replicate cell oneEach
  have fitBytes := fit (bytes.splitBy (· == ·)) (by rwa [flatten_splitBy])
  rwa [flatten_splitBy] at fitBytes

theorem leaves_runPatterns {bytes : Product}
    (cells : ∀ values : ByteSet, (∃ byte, byte ∈ values) → proper (.cell (.init values)))
    (some : ∀ values ∈ bytes, ∃ byte, byte ∈ values) :
    LeavesOfAll proper (runPatterns bytes) := by
  rw [leavesOfAll_iff]
  intro _ member
  rcases mem_map.mp member with ⟨run, runMember, rfl⟩
  apply leaves_replicate
  rcases run with _ | ⟨values, _⟩
  · exact absurd rfl (ne_nil_of_mem_splitBy runMember)
  · have member : values ∈ bytes := by
      rw [← flatten_splitBy (· == ·) bytes]
      exact mem_flatten.mpr ⟨_, runMember, mem_cons_self⟩
    simpa only [byte, Leaves, headD_cons] using cells values (some values member)

theorem fits_ofProduct (full : product.Full width) (inside : width ≤ cap) :
    (ofProduct order product).Fits width := by
  rcases ofProduct_eq order product with ⟨bytes, perm, shape⟩
  have length : bytes.length = width := perm.length_eq.trans full.1
  have together := fitTogether_runPatterns bytes (by omega)
  rw [length] at together
  rcases shape with single | several
  · rw [single] at together
    simpa [FitTogether] using together
  · rw [several]
    simpa only [Fits] using together

theorem leaves_ofProduct
    (cells : ∀ values : ByteSet, (∃ byte, byte ∈ values) → proper (.cell (.init values)))
    (full : product.Full width) : (ofProduct order product).Leaves proper := by
  rcases ofProduct_eq order product with ⟨bytes, perm, shape⟩
  have leaves := leaves_runPatterns cells fun values (member : values ∈ bytes) =>
    full.2 values (perm.mem_iff.mp member)
  rcases shape with single | several
  · rw [single] at leaves
    exact leaves.1
  · rw [several]
    simpa only [Leaves] using leaves

section Ranges

variable {ranges : List Range}

theorem full_of_mem_products
    (written : ∀ range ∈ ranges, range.first ≤ range.last ∧ range.last < numbers width)
    (member : product ∈ ranges.flatMap fun range => splitRange width range.first range.last) :
    product.Full width := by
  rcases mem_flatMap.mp member with ⟨range, rangeMember, inside⟩
  have bounds := written range rangeMember
  exact full_of_mem_splitRange bounds.1 bounds.2 inside

theorem splitRange_ne_nil {first last : Nat} (ordered : first ≤ last)
    (inside : last < numbers width) :
    splitRange width first last ≠ [] := by
  refine splitRange_induction (motive := fun _ first stop products => first < stop → products ≠ [])
    ?_ ?_ ?_ ?_ ?_ ordered inside (Nat.lt_succ_of_le ordered)
  · simp
  · simp
  · intro _ _ middle _ _ _ _ _ front back _
    rw [Ne, append_eq_nil_iff]
    rintro ⟨noFront, noBack⟩
    have low := mt front (not_not.mpr noFront)
    have high := mt back (not_not.mpr noBack)
    omega
  · intro _ _ _ _ _ _ _ some less
    simpa using some (by omega)
  · simp

theorem fits_ofRanges (some : ranges ≠ []) (inside : width ≤ cap)
    (written : ∀ range ∈ ranges, range.first ≤ range.last ∧ range.last < numbers width) :
    (ofRanges order width ranges).Fits width := by
  have each : ∀ products : List Product, (∀ product ∈ products, product.Full width) →
      FitEach (products.map (ofProduct order)) width := by
    intro products full
    induction products with
    | nil => trivial
    | cons product _ ih =>
      exact ⟨fits_ofProduct (full product mem_cons_self) inside,
        ih fun other member => full other (mem_cons_of_mem _ member)⟩
  have all := each _ fun _ member => full_of_mem_products written member
  simp only [ofRanges]
  split
  · rename_i pattern only
    rw [only] at all
    exact all.1
  · simp only [Fits]
    refine ⟨?_, all⟩
    intro nothing
    rcases ranges with _ | ⟨range, _⟩
    · exact absurd rfl some
    · simp only [flatMap_cons, map_eq_nil_iff, append_eq_nil_iff] at nothing
      have bounds := written range mem_cons_self
      exact absurd nothing.1 (splitRange_ne_nil bounds.1 bounds.2)

theorem leaves_ofRanges_of_products
    (each : ∀ product ∈ ranges.flatMap fun range => splitRange width range.first range.last,
      (ofProduct order product).Leaves proper) : (ofRanges order width ranges).Leaves proper := by
  have all := leavesOfAll_iff.mpr (forall_mem_map.mpr each)
  simp only [ofRanges]
  split
  · rename_i pattern only
    rw [only] at all
    exact all.1
  · simpa only [Leaves] using all

theorem leaves_ofRanges
    (cells : ∀ values : ByteSet, (∃ byte, byte ∈ values) → proper (.cell (.init values)))
    (written : ∀ range ∈ ranges, range.first ≤ range.last ∧ range.last < numbers width) :
    (ofRanges order width ranges).Leaves proper :=
  leaves_ofRanges_of_products fun _ member =>
    leaves_ofProduct cells (full_of_mem_products written member)

theorem leaves_ofRanges_of_cells (cells : ∀ contents, proper (.cell contents)) (order : ByteOrder)
    (width : Nat) (ranges : List Range) : (ofRanges order width ranges).Leaves proper := by
  have each (bytes : Product) : LeavesOfAll proper (runPatterns bytes) := by
    refine leavesOfAll_iff.mpr fun _ member => ?_
    rcases mem_map.mp member with ⟨_, _, rfl⟩
    exact leaves_replicate (by simpa only [byte, Leaves] using cells _)
  refine leaves_ofRanges_of_products fun product _ => ?_
  rcases ofProduct_eq order product with ⟨bytes, _, isRun | isSeq⟩
  · have only := each bytes
    rw [isRun] at only
    exact only.1
  · rw [isSeq]
    exact each bytes

end Ranges

end Recast.Pattern
