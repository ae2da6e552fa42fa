/-!
# Sets of bytes

A `ByteSet` is a set of byte values, stored as one bit per value. It is seen through membership:
each operation comes with the lemma that says which bytes are members of its result, and two sets
with the same members are equal.
-/

namespace Recast

/-- A set of byte values; bit `b` tells whether `b` is a member. -/
structure ByteSet where
  bits : BitVec 256
deriving DecidableEq

namespace ByteSet

instance : Membership UInt8 ByteSet where
  mem set byte := set.bits.getLsbD byte.toNat = true

instance (byte : UInt8) (set : ByteSet) : Decidable (byte ∈ set) :=
  inferInstanceAs (Decidable (_ = true))

instance : EmptyCollection ByteSet where
  emptyCollection := ⟨0⟩

instance : Inhabited ByteSet where
  default := ∅

def full : ByteSet :=
  ⟨BitVec.allOnes 256⟩

instance : Singleton UInt8 ByteSet where
  singleton byte := ⟨BitVec.twoPow 256 byte.toNat⟩

/-- The bytes from `first` up to `last`, both included; empty if `first` is above `last`. -/
def range (first last : UInt8) : ByteSet :=
  ⟨(BitVec.allOnes 256 <<< first.toNat) &&& (BitVec.allOnes 256 >>> (255 - last.toNat))⟩

instance : Union ByteSet where
  union left right := ⟨left.bits ||| right.bits⟩

instance : Inter ByteSet where
  inter left right := ⟨left.bits &&& right.bits⟩

instance : SDiff ByteSet where
  sdiff left right := ⟨left.bits &&& (left.bits ^^^ right.bits)⟩

instance : Insert UInt8 ByteSet where
  insert byte set := {byte} ∪ set

def ofList (bytes : List UInt8) : ByteSet :=
  bytes.foldr insert ∅

def isEmpty (set : ByteSet) : Bool :=
  set = ∅

def isFull (set : ByteSet) : Bool :=
  set = full

instance : HasSubset ByteSet where
  Subset small large := (small \ large).isEmpty = true

instance (small large : ByteSet) : Decidable (small ⊆ large) :=
  inferInstanceAs (Decidable (_ = true))

def meets (left right : ByteSet) : Bool :=
  !(left ∩ right).isEmpty

def allBytes : List UInt8 :=
  (List.range 256).map UInt8.ofNat

def toList (set : ByteSet) : List UInt8 :=
  allBytes.filter (· ∈ set)

def size (set : ByteSet) : Nat :=
  set.toList.length

variable {byte other : UInt8} {left right : ByteSet}

theorem ext_mem (h : ∀ byte, byte ∈ left ↔ byte ∈ right) : left = right := by
  obtain ⟨leftBits⟩ := left
  obtain ⟨rightBits⟩ := right
  congr 1
  apply BitVec.eq_of_getLsbD_eq
  intro i inside
  have same := h (UInt8.ofNat i)
  simp only [Membership.mem, UInt8.toNat_ofNat', Nat.mod_eq_of_lt inside] at same
  exact Bool.eq_iff_iff.mpr same

@[simp]
theorem not_mem_empty : byte ∉ (∅ : ByteSet) := by
  simp [Membership.mem, EmptyCollection.emptyCollection]

@[simp]
theorem mem_full : byte ∈ full := by
  simp only [Membership.mem, full, BitVec.getLsbD_allOnes, decide_eq_true_eq]
  exact byte.toNat_lt

@[simp]
theorem mem_singleton : byte ∈ ({other} : ByteSet) ↔ byte = other := by
  simp only [Membership.mem, Singleton.singleton, BitVec.getLsbD_twoPow, Bool.and_eq_true,
    decide_eq_true_eq]
  constructor
  · rintro ⟨_, same⟩
    exact UInt8.toNat_inj.mp same.symm
  · rintro rfl
    exact ⟨byte.toNat_lt, rfl⟩

theorem mem_range {first last : UInt8} : byte ∈ range first last ↔ first ≤ byte ∧ byte ≤ last := by
  have bound := byte.toNat_lt
  have lastBound := last.toNat_lt
  simp only [Membership.mem, range, BitVec.getLsbD_and, BitVec.getLsbD_shiftLeft,
    BitVec.getLsbD_ushiftRight, BitVec.getLsbD_allOnes, Bool.and_eq_true, Bool.not_eq_true',
    decide_eq_true_eq, decide_eq_false_iff_not, UInt8.le_iff_toNat_le]
  omega

@[simp]
theorem mem_union : byte ∈ left ∪ right ↔ byte ∈ left ∨ byte ∈ right := by
  simp [Membership.mem, Union.union]

@[simp]
theorem mem_inter : byte ∈ left ∩ right ↔ byte ∈ left ∧ byte ∈ right := by
  simp [Membership.mem, Inter.inter]

@[simp]
theorem mem_sdiff : byte ∈ left \ right ↔ byte ∈ left ∧ byte ∉ right := by
  simp only [Membership.mem, SDiff.sdiff, BitVec.getLsbD_and, BitVec.getLsbD_xor]
  cases left.bits.getLsbD byte.toNat <;> simp

@[simp]
theorem mem_insert : byte ∈ insert other left ↔ byte = other ∨ byte ∈ left := by
  simp [Insert.insert]

@[simp]
theorem mem_ofList {bytes : List UInt8} : byte ∈ ofList bytes ↔ byte ∈ bytes := by
  induction bytes with
  | nil => simp [ofList]
  | cons head tail ih => simp_all [ofList]

theorem isEmpty_iff : left.isEmpty ↔ ∀ byte, byte ∉ left := by
  simp only [isEmpty, decide_eq_true_eq]
  exact ⟨fun h byte => h ▸ not_mem_empty, fun h => ext_mem (by simpa using h)⟩

theorem subset_iff : left ⊆ right ↔ ∀ byte, byte ∈ left → byte ∈ right := by
  change (left \ right).isEmpty = true ↔ _
  simp [isEmpty_iff]

theorem mem_allBytes : byte ∈ allBytes := by
  simp only [allBytes, List.mem_map, List.mem_range]
  exact ⟨byte.toNat, byte.toNat_lt, by simp⟩

@[simp]
theorem mem_toList : byte ∈ left.toList ↔ byte ∈ left := by
  simp [toList, mem_allBytes]

end ByteSet

end Recast
