import Mathlib.Data.Set.Card
import Recast.ByteSet

/-!
# Byte sets in four words

A set of bytes can be kept in four words of 64 bits, where byte `b` has bit `b % 64` of word `b /
64`. Any sequence of operations on any number of sets leads to the same members whether it is
carried out on such words, on the 256 bits of a `ByteSet`, or on sets as mathematics has them
(`SetOps.Lawful.mem_run`). So all that is asked about a `ByteSet` is answered as for the set that it
stands for.
-/

namespace Recast

open ByteSet

variable {σ : Type} {byte : UInt8}

/-- The operations on sets of bytes, for one way to keep them. -/
structure SetOps (σ : Type) where
  empty : σ
  full : σ
  singleton : UInt8 → σ
  range : UInt8 → UInt8 → σ
  collect : List UInt8 → σ
  insert : UInt8 → σ → σ
  union : σ → σ → σ
  inter : σ → σ → σ
  sdiff : σ → σ → σ

/-- An operation, with the names of the sets that it is applied to. -/
inductive SetOp
  | empty
  | full
  | singleton (byte : UInt8)
  | range (first last : UInt8)
  | collect (bytes : List UInt8)
  | insert (byte : UInt8) (set : Nat)
  | union (left right : Nat)
  | inter (left right : Nat)
  | sdiff (left right : Nat)

namespace SetOps

def apply (ops : SetOps σ) (sets : Nat → σ) : SetOp → σ
  | .empty => ops.empty
  | .full => ops.full
  | .singleton byte => ops.singleton byte
  | .range first last => ops.range first last
  | .collect bytes => ops.collect bytes
  | .insert byte set => ops.insert byte (sets set)
  | .union left right => ops.union (sets left) (sets right)
  | .inter left right => ops.inter (sets left) (sets right)
  | .sdiff left right => ops.sdiff (sets left) (sets right)

def step (ops : SetOps σ) (sets : Nat → σ) (step : Nat × SetOp) : Nat → σ :=
  Function.update sets step.1 (ops.apply sets step.2)

/-- The sets after a sequence of operations, each with the name of the set that is to hold its
result. -/
def run (ops : SetOps σ) (steps : List (Nat × SetOp)) : Nat → σ :=
  steps.foldl ops.step fun _ => ops.empty

/-- Each operation leads to the members that it is meant to. -/
structure Lawful (ops : SetOps σ) (mem : UInt8 → σ → Prop) : Prop where
  empty : ∀ {byte}, ¬ mem byte ops.empty
  full : ∀ {byte}, mem byte ops.full
  singleton : ∀ {byte other}, mem byte (ops.singleton other) ↔ byte = other
  range : ∀ {byte first last}, mem byte (ops.range first last) ↔ first ≤ byte ∧ byte ≤ last
  collect : ∀ {byte bytes}, mem byte (ops.collect bytes) ↔ byte ∈ bytes
  insert : ∀ {byte other set}, mem byte (ops.insert other set) ↔ byte = other ∨ mem byte set
  union : ∀ {byte left right}, mem byte (ops.union left right) ↔ mem byte left ∨ mem byte right
  inter : ∀ {byte left right}, mem byte (ops.inter left right) ↔ mem byte left ∧ mem byte right
  sdiff : ∀ {byte left right}, mem byte (ops.sdiff left right) ↔ mem byte left ∧ ¬ mem byte right

/-- The operations of `ByteSet`. -/
def bytes : SetOps ByteSet where
  empty := ∅
  full := .full
  singleton byte := {byte}
  range := .range
  collect := .ofList
  insert := Insert.insert
  union := (· ∪ ·)
  inter := (· ∩ ·)
  sdiff := (· \ ·)

/-- The operations on sets as mathematics has them. -/
def values : SetOps (Set UInt8) where
  empty := ∅
  full := .univ
  singleton byte := {byte}
  range first last := {byte | first ≤ byte ∧ byte ≤ last}
  collect bytes := {byte | byte ∈ bytes}
  insert := Insert.insert
  union := (· ∪ ·)
  inter := (· ∩ ·)
  sdiff := (· \ ·)

namespace Lawful

variable {ops : SetOps σ} {mem : UInt8 → σ → Prop} (lawful : ops.Lawful mem)
include lawful

theorem mem_step {sets : Nat → σ} {valuesOf : Nat → Set UInt8}
    (same : ∀ name byte, mem byte (sets name) ↔ byte ∈ valuesOf name) (step : Nat × SetOp)
    (name : Nat) (byte : UInt8) :
    mem byte (ops.step sets step name) ↔ byte ∈ values.step valuesOf step name := by
  rcases step with ⟨_, op⟩
  simp only [SetOps.step, Function.update_apply]
  split
  · cases op with
    | empty => simp [apply, lawful.empty, values]
    | full => simp [apply, lawful.full, values]
    | singleton => simp [apply, lawful.singleton, values]
    | range => simp [apply, lawful.range, values]
    | collect => simp [apply, lawful.collect, values]
    | insert => simp [apply, lawful.insert, values, same]
    | union => simp [apply, lawful.union, values, same]
    | inter => simp [apply, lawful.inter, values, same]
    | sdiff => simp [apply, lawful.sdiff, values, same]
  · exact same name byte

theorem mem_run (steps : List (Nat × SetOp)) (name : Nat) (byte : UInt8) :
    mem byte (ops.run steps name) ↔ byte ∈ values.run steps name := by
  have fold (sets : Nat → σ) (valuesOf : Nat → Set UInt8)
      (same : ∀ name byte, mem byte (sets name) ↔ byte ∈ valuesOf name) :
      mem byte (steps.foldl ops.step sets name) ↔ byte ∈ steps.foldl values.step valuesOf name := by
    induction steps generalizing sets valuesOf with
    | nil => exact same name byte
    | cons step _ ih => exact ih _ _ (lawful.mem_step same step)
  exact fold _ _ fun _ _ => iff_of_false lawful.empty (Set.notMem_empty _)

end Lawful

end SetOps

/-- A set of bytes in four words. -/
abbrev Words : Type := Fin 4 → BitVec 64

namespace Words

variable {other : UInt8} {left : Words} {set : ByteSet}

/-- The word that tells whether the byte is a member. -/
def place (byte : UInt8) : Fin 4 :=
  ⟨byte.toNat / 64, Nat.div_lt_of_lt_mul byte.toNat_lt⟩

/-- The bit for the byte in its word. -/
def mask (byte : UInt8) : BitVec 64 :=
  1#64 <<< (byte.toNat % 64)

def contains (words : Words) (byte : UInt8) : Bool :=
  words (place byte) &&& mask byte != 0

def empty : Words := fun _ => 0

def full : Words := fun _ => ~~~0

def singleton (byte : UInt8) : Words :=
  Function.update empty (place byte) (mask byte)

def insert (byte : UInt8) (words : Words) : Words :=
  Function.update words (place byte) (words (place byte) ||| mask byte)

def ofList (bytes : List UInt8) : Words :=
  bytes.foldl (fun words byte => words.insert byte) empty

def range (first last : UInt8) : Words :=
  ofList (allBytes.filter fun byte => first ≤ byte && byte ≤ last)

def isEmpty (words : Words) : Bool := words = empty

def isFull (words : Words) : Bool := words = full

/-- The members in ascending order. -/
def toList (words : Words) : List UInt8 := allBytes.filter words.contains

/-- How many bits are set. -/
def count (words : Words) : Nat :=
  ((List.finRange 4).map fun place => (words place).cpop.toNat).sum

theorem contains_eq (words : Words) (byte : UInt8) :
    words.contains byte = (words (place byte)).getLsbD (byte.toNat % 64) := by
  have inside : byte.toNat % 64 < 64 := Nat.mod_lt _ (by decide)
  have some : BitVec.twoPow 64 (byte.toNat % 64) ≠ 0#64 := by
    intro none
    have bit := congrArg (BitVec.getLsbD · (byte.toNat % 64)) none
    simp [inside] at bit
  rw [contains, mask, ← BitVec.twoPow_eq, BitVec.and_twoPow]
  cases (words (place byte)).getLsbD (byte.toNat % 64) <;> simp [some]

/-- The words of a set of bytes: its bits from the lowest on, 64 in each. -/
def ofSet (set : ByteSet) : Words :=
  fun place => set.bits.extractLsb' (64 * place) 64

theorem contains_ofSet : (ofSet set).contains byte ↔ byte ∈ set := by
  have inside : byte.toNat % 64 < 64 := Nat.mod_lt _ (by decide)
  have here : 64 * (byte.toNat / 64) + byte.toNat % 64 = byte.toNat := Nat.div_add_mod _ _
  simp [contains_eq, ofSet, place, inside, here, Membership.mem]

/-- Words with the same members are the same. -/
theorem eq_ofSet {words : Words} (same : ∀ byte, words.contains byte ↔ byte ∈ set) :
    words = ofSet set := by
  funext number
  apply BitVec.eq_of_getLsbD_eq
  intro bit inside
  have bound := number.isLt
  have isByte : (UInt8.ofNat (64 * number + bit)).toNat = 64 * number + bit := by
    rw [UInt8.toNat_ofNat', Nat.mod_eq_of_lt]
    omega
  have isPlace : place (UInt8.ofNat (64 * number + bit)) = number := by
    apply Fin.ext
    simp only [place, isByte]
    omega
  have isBit : (UInt8.ofNat (64 * number + bit)).toNat % 64 = bit := by omega
  have member := (same (UInt8.ofNat (64 * number + bit))).trans contains_ofSet.symm
  rwa [contains_eq, contains_eq, isPlace, isBit, ← Bool.eq_iff_iff] at member

theorem ofSet_inj {set other : ByteSet} : ofSet set = ofSet other ↔ set = other :=
  ⟨fun same => ext_mem fun _ => by rw [← contains_ofSet, same, contains_ofSet], congrArg ofSet⟩

theorem getLsbD_mask :
    (mask other).getLsbD (byte.toNat % 64) = decide (byte.toNat % 64 = other.toNat % 64) := by
  rw [mask, ← BitVec.twoPow_eq, BitVec.getLsbD_twoPow]
  simp [Nat.mod_lt, eq_comm]

theorem eq_iff_place :
    byte = other ↔ place byte = place other ∧ byte.toNat % 64 = other.toNat % 64 := by
  rw [← UInt8.toNat_inj, place, place, Fin.mk.injEq]
  omega

theorem contains_empty : empty.contains byte = false := by
  simp [contains_eq, empty]

theorem contains_full : full.contains byte := by
  rw [contains_eq, full, BitVec.getLsbD_not]
  simp [Nat.mod_lt]

theorem contains_insert :
    (left.insert other).contains byte ↔ byte = other ∨ left.contains byte := by
  rw [contains_eq, contains_eq, insert, Function.update_apply, eq_iff_place]
  split
  · rename_i here
    simp [here, getLsbD_mask, or_comm]
  · rename_i elsewhere
    simp [elsewhere]

theorem contains_singleton : (singleton other).contains byte ↔ byte = other := by
  rw [show singleton other = empty.insert
    other by simp [singleton, insert, empty], contains_insert, contains_empty]
  simp

theorem contains_ofList {bytes : List UInt8} : (ofList bytes).contains byte ↔ byte ∈ bytes := by
  have fold (words : Words) : (bytes.foldl (fun words byte => words.insert byte) words).contains
      byte ↔ words.contains byte ∨ byte ∈ bytes := by
    induction bytes generalizing words with
    | nil => simp
    | cons _ _ ih =>
      rw [List.foldl_cons, ih, contains_insert, List.mem_cons, or_assoc, or_left_comm]
  rw [ofList, fold, contains_empty]
  simp

end Words

/-- The operations on four words. -/
def SetOps.words : SetOps Words where
  empty := .empty
  full := .full
  singleton := .singleton
  range := .range
  collect := .ofList
  insert := .insert
  union left right place := left place ||| right place
  inter left right place := left place &&& right place
  sdiff left right place := left place &&& ~~~right place

theorem SetOps.lawful_words : words.Lawful fun byte words => words.contains byte where
  empty := by simp [words, Words.contains_empty]
  full := Words.contains_full
  singleton := Words.contains_singleton
  range := by simp [words, Words.range, Words.contains_ofList, mem_allBytes]
  collect := Words.contains_ofList
  insert := Words.contains_insert
  union := by simp [words, Words.contains_eq]
  inter := by simp [words, Words.contains_eq]
  sdiff := by simp [words, Words.contains_eq, Nat.mod_lt]

theorem SetOps.lawful_bytes : bytes.Lawful fun byte set => byte ∈ set where
  empty := not_mem_empty
  full := mem_full
  singleton := mem_singleton
  range := mem_range
  collect := mem_ofList
  insert := mem_insert
  union := mem_union
  inter := mem_inter
  sdiff := mem_sdiff

namespace Words

/-- Whether all members are members of the other set. -/
def isSubset (words other : Words) : Bool := (SetOps.words.sdiff words other).isEmpty

def meets (words other : Words) : Bool := !(SetOps.words.inter words other).isEmpty

variable {set other : ByteSet}

theorem isEmpty_ofSet : (ofSet set).isEmpty = set.isEmpty := by
  rw [isEmpty, show empty = ofSet ∅ from eq_ofSet (by simp [contains_empty])]
  exact decide_eq_decide.mpr ofSet_inj

theorem isFull_ofSet : (ofSet set).isFull = set.isFull := by
  rw [isFull, show full = ofSet .full from eq_ofSet (by simp [contains_full])]
  exact decide_eq_decide.mpr ofSet_inj

theorem toList_ofSet : (ofSet set).toList = set.toList :=
  List.filter_congr fun _ _ => Bool.eq_iff_iff.mpr (contains_ofSet.trans decide_eq_true_iff.symm)

theorem isSubset_ofSet : (ofSet set).isSubset (ofSet other) = decide (set ⊆ other) := by
  have isDifference : SetOps.words.sdiff (ofSet set) (ofSet other) = ofSet (set \ other) :=
    eq_ofSet fun _ => SetOps.lawful_words.sdiff.trans (by simp only [contains_ofSet, mem_sdiff])
  rw [isSubset, isDifference, isEmpty_ofSet]
  exact Bool.eq_iff_iff.mpr decide_eq_true_iff.symm

theorem meets_ofSet : (ofSet set).meets (ofSet other) = set.meets other := by
  have isIntersection : SetOps.words.inter (ofSet set) (ofSet other) = ofSet (set ∩ other) :=
    eq_ofSet fun _ => SetOps.lawful_words.inter.trans (by simp only [contains_ofSet, mem_inter])
  rw [meets, isIntersection, isEmpty_ofSet, ByteSet.meets]

end Words

namespace ByteSet

/-- All that is asked about the set is answered as for the mathematical set. -/
structure Agrees (set : ByteSet) (value : Set UInt8) : Prop where
  mem : ∀ byte, byte ∈ set ↔ byte ∈ value
  size : set.size = value.ncard
  isEmpty : set.isEmpty ↔ value = ∅
  isFull : set.isFull ↔ value = .univ
  toList : ∀ byte, byte ∈ set.toList ↔ byte ∈ value
  ascending : set.toList.Pairwise (· < ·)

variable {set : ByteSet}

theorem pairwise_toList (set : ByteSet) : set.toList.Pairwise (· < ·) := by
  refine List.Pairwise.filter _ (List.pairwise_map.mpr ?_)
  refine List.pairwise_lt_range.imp_of_mem fun {number other} isNumber isOther less => ?_
  rw [List.mem_range] at isNumber isOther
  simp only [UInt8.lt_iff_toNat_lt, UInt8.toNat_ofNat']
  omega

theorem agrees_of_mem {value : Set UInt8} (mem : ∀ byte, byte ∈ set ↔ byte ∈ value) :
    set.Agrees value := by
  refine ⟨mem, ?_, ?_, ?_, fun byte => mem_toList.trans (mem byte), set.pairwise_toList⟩
  · have isValue : value = {byte | byte ∈ set.toList} :=
      Set.ext fun byte => ((mem_toList.trans (mem byte))).symm
    have nodup : set.toList.Nodup := set.pairwise_toList.imp fun less same => by simp [same] at less
    classical
    rw [isValue, ← List.coe_toFinset, Set.ncard_coe_finset, List.toFinset_card_of_nodup nodup, size]
  · rw [isEmpty_iff, Set.eq_empty_iff_forall_notMem]
    exact forall_congr' fun byte => not_congr (mem byte)
  · rw [isFull, decide_eq_true_eq, Set.eq_univ_iff_forall]
    exact ⟨fun isFull byte => (mem byte).mp (isFull ▸ mem_full),
      fun all => ext_mem fun _ => by simp [mem, all]⟩

theorem cpop_eq_countP {width : Nat} (word : BitVec width) :
    word.cpop.toNat = (List.range width).countP word.getLsbD := by
  have upTo (bound : Nat) : word.cpopNatRec bound 0 = (List.range bound).countP word.getLsbD := by
    induction bound with
    | zero => simp [BitVec.cpopNatRec]
    | succ bound ih =>
      rw [BitVec.cpopNatRec_succ, BitVec.cpopNatRec_eq, ih, List.range_succ, List.countP_append]
      cases isSet : word.getLsbD bound <;> simp [isSet]
  rw [BitVec.toNat_cpop, upTo]

theorem size_eq_countP : set.size = (List.range 256).countP set.bits.getLsbD := by
  rw [size, toList, allBytes, ← List.countP_eq_length_filter, List.countP_map]
  refine List.countP_congr fun _ inside => ?_
  simp [Membership.mem, Nat.mod_eq_of_lt (List.mem_range.mp inside)]

theorem count_ofSet : (Words.ofSet set).count = set.size := by
  have split (first rest : Nat) (holds : Nat → Bool) : (List.range (first + rest)).countP holds =
      (List.range first).countP holds + (List.range rest).countP fun number =>
        holds (first + number) := by
    rw [List.range_add, List.countP_append, List.countP_map]
    rfl
  have word (place : Fin 4) : (Words.ofSet set place).cpop.toNat =
      (List.range 64).countP fun number => set.bits.getLsbD (64 * place + number) := by
    rw [cpop_eq_countP]
    refine List.countP_congr fun _ inside => ?_
    simp [Words.ofSet, List.mem_range.mp inside]
  rw [size_eq_countP, split 64 192, split 64 128, split 64 64, Words.count]
  simp [List.finRange, word, ← Nat.add_assoc]

/-- Whatever is done to any number of sets, the four words, the bits and the mathematical sets have
the same members, and all questions about sets are answered alike. -/
theorem run_agrees (steps : List (Nat × SetOp)) : let words := SetOps.words.run steps
    let sets := SetOps.bytes.run steps
    let values := SetOps.values.run steps
    ∀ name, (∀ byte, (words name).contains byte ↔ byte ∈ values name) ∧
      (words name).count = (values name).ncard ∧ (sets name).Agrees (values name) ∧
      (words name).isEmpty = (sets name).isEmpty ∧ (words name).isFull = (sets name).isFull ∧
      (words name).toList = (sets name).toList ∧
      ∀ other, (words name = words other ↔ values name = values other) ∧
        (sets name ⊆ sets other ↔ values name ⊆ values other) ∧
        ((sets name).meets (sets other) ↔ (values name ∩ values other).Nonempty) ∧
        (words name).isSubset (words other) = decide (sets name ⊆ sets other) ∧
        (words name).meets (words other) = (sets name).meets (sets other) := by
  intro words sets values name
  have contains (name : Nat) (byte : UInt8) : (words name).contains byte ↔ byte ∈ values name :=
    SetOps.lawful_words.mem_run steps name byte
  have mem (name : Nat) (byte : UInt8) : byte ∈ sets name ↔ byte ∈ values name :=
    SetOps.lawful_bytes.mem_run steps name byte
  have isWords (name : Nat) : words name = Words.ofSet (sets name) :=
    Words.eq_ofSet fun byte => (contains name byte).trans (mem name byte).symm
  have agrees := agrees_of_mem (mem name)
  refine ⟨contains name, by rw [isWords, count_ofSet, agrees.size], agrees,
    by rw [isWords, Words.isEmpty_ofSet], by rw [isWords, Words.isFull_ofSet],
    by
      rw [isWords, Words.toList_ofSet], fun other =>
        ⟨?_, ?_, ?_, by rw [isWords, isWords, Words.isSubset_ofSet],
      by rw [isWords, isWords, Words.meets_ofSet]⟩⟩
  · constructor
    · intro same
      ext byte
      rw [← contains, same, contains]
    · intro same
      rw [isWords other]
      exact Words.eq_ofSet fun byte => by rw [contains, same, mem]
  · rw [subset_iff]
    exact forall_congr' fun byte => imp_congr (mem name byte) (mem other byte)
  · rw [meets, Bool.not_eq_true', ← Bool.not_eq_true, isEmpty_iff, not_forall_not]
    simp [mem, Set.Nonempty]

end ByteSet

end Recast
