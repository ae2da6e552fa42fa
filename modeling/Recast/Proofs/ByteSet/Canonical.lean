import Recast.ByteSet.Runs
import Recast.Proofs.ByteSet.Words

/-!
# The runs of a byte set are its canonical form

Runs are canonical if they ascend with at least one byte missing between any two of them. The runs
of a set are the only canonical ones with its members (`ByteSet.eq_of_canonical`), and different
sets have different texts.
-/

namespace Recast

open List

variable {byte : UInt8} {run next : ByteRun} {rest others runs : List ByteRun} {set other : ByteSet}

namespace ByteRun

/-- Each run has a byte, and between a run and the next one a byte is missing. -/
def Canonical : List ByteRun → Prop
  | [] => True
  | run :: rest =>
    run.first ≤ run.last ∧ (∀ next ∈ rest.head?, run.last.toNat + 1 < next.first.toNat) ∧
    Canonical rest

end ByteRun

namespace ByteSet

open ByteRun

theorem mem_ofRuns_cons :
    byte ∈ ofRuns (run :: rest) ↔ (run.first ≤ byte ∧ byte ≤ run.last) ∨ byte ∈ ofRuns rest := by
  simp

section

variable (canonical : Canonical (run :: rest))
include canonical

theorem first_mem : run.first ∈ ofRuns (run :: rest) :=
  mem_ofRuns_cons.mpr (.inl ⟨UInt8.le_refl _, canonical.1⟩)

/-- All later runs lie beyond the byte that is missing behind the first one. -/
theorem lt_of_mem_rest (member : byte ∈ ofRuns rest) : run.last.toNat + 1 < byte.toNat := by
  induction rest generalizing run with
  | nil => simp at member
  | cons next rest ih =>
    have gap := canonical.2.1 next rfl
    rcases mem_ofRuns_cons.mp member with ⟨above, _⟩ | later
    · exact lt_of_lt_of_le gap above
    · have beyond := ih canonical.2.2 later
      have ordered : next.first.toNat ≤ next.last.toNat := canonical.2.2.1
      omega

theorem first_le (member : byte ∈ ofRuns (run :: rest)) : run.first ≤ byte := by
  rcases mem_ofRuns_cons.mp member with ⟨above, _⟩ | later
  · exact above
  · have beyond := lt_of_mem_rest canonical later
    have ordered : run.first.toNat ≤ run.last.toNat := canonical.1
    exact UInt8.le_iff_toNat_le.mpr (by omega)

theorem mem_rest : byte ∈ ofRuns rest ↔ byte ∈ ofRuns (run :: rest) ∧ run.last < byte := by
  constructor
  · intro member
    have beyond := lt_of_mem_rest canonical member
    exact ⟨mem_ofRuns_cons.mpr (.inr member), UInt8.lt_iff_toNat_lt.mpr (by omega)⟩
  · rintro ⟨member, behind⟩
    refine (mem_ofRuns_cons.mp member).resolve_left fun within => ?_
    exact UInt8.not_le.mpr behind within.2

end

theorem canonical_consRun (canonical : Canonical runs)
    (below : ∀ other ∈ ofRuns runs, byte < other) :
    Canonical (consRun byte runs) ∧ ∀ other, other ∈ ofRuns (consRun byte runs) ↔ other = byte ∨
    other ∈ ofRuns runs := by
  cases runs with
  | nil =>
    refine ⟨⟨UInt8.le_refl _, by simp, trivial⟩, fun _ => ?_⟩
    simp [consRun, UInt8.le_antisymm_iff, and_comm]
  | cons run rest =>
    have before : byte.toNat < run.first.toNat := below _ (first_mem canonical)
    have ordered : run.first.toNat ≤ run.last.toNat := canonical.1
    simp only [consRun]
    split
    · refine ⟨⟨UInt8.le_iff_toNat_le.mpr (by simp only; omega), canonical.2⟩, fun other => ?_⟩
      rw [mem_ofRuns_cons, mem_ofRuns_cons, ← or_assoc]
      refine or_congr_left ?_
      simp only [UInt8.le_iff_toNat_le, ← UInt8.toNat_inj]
      omega
    · refine ⟨⟨UInt8.le_refl _, ?_, canonical⟩, fun other => ?_⟩
      · rintro _ ⟨⟩
        simp only
        omega
      · rw [mem_ofRuns_cons, UInt8.le_antisymm_iff, and_comm]

theorem canonical_runs (set : ByteSet) : Canonical set.runs ∧ ofRuns set.runs = set := by
  have fold (bytes : List UInt8) (ascending : bytes.Pairwise (· < ·)) :
      Canonical (bytes.foldr consRun []) ∧ ∀ byte, byte ∈ ofRuns (bytes.foldr consRun []) ↔
      byte ∈ bytes := by
    induction bytes with
    | nil => exact ⟨trivial, by simp [ofRuns]⟩
    | cons _ _ ih =>
      rw [pairwise_cons] at ascending
      rcases ih ascending.2 with ⟨canonical, members⟩
      have cons := canonical_consRun canonical fun other member =>
        ascending.1 other ((members other).mp member)
      refine ⟨cons.1, fun _ => ?_⟩
      rw [foldr_cons, cons.2, members, mem_cons]
  rcases fold set.toList set.pairwise_toList with ⟨canonical, members⟩
  exact ⟨canonical, ext_mem fun byte => (members byte).trans mem_toList⟩

theorem last_le (canonicalToo : Canonical (next :: others))
    (same : ofRuns (run :: rest) = ofRuns (next :: others)) (first : run.first = next.first) :
    run.last ≤ next.last := by
  by_contra less
  have less := UInt8.lt_iff_toNat_lt.mp (UInt8.not_le.mp less)
  have bound := run.last.toNat_lt
  have isSuccessor : (next.last + 1).toNat = next.last.toNat + 1 := by
    rw [UInt8.toNat_add, UInt8.toNat_one, Nat.mod_eq_of_lt (by omega)]
  have ordered : next.first.toNat ≤ next.last.toNat := canonicalToo.1
  -- The byte behind the shorter run belongs to the longer one.
  have member : next.last + 1 ∈ ofRuns (run :: rest) := by
    refine mem_ofRuns_cons.mpr (.inl ⟨?_, ?_⟩)
    · rw [first, UInt8.le_iff_toNat_le]
      omega
    · rw [UInt8.le_iff_toNat_le]
      omega
  rw [same] at member
  have later := (mem_rest canonicalToo).mpr ⟨member, UInt8.lt_iff_toNat_lt.mpr (by omega)⟩
  have beyond := lt_of_mem_rest canonicalToo later
  omega

theorem eq_of_canonical (canonical : Canonical rest) (canonicalToo : Canonical others)
    (same : ofRuns rest = ofRuns others) : rest = others := by
  induction rest generalizing others with
  | nil =>
    cases others with
    | nil => rfl
    | cons =>
      have member := first_mem canonicalToo
      rw [← same] at member
      simp [ofRuns] at member
  | cons run _ ih =>
    cases others with
    | nil =>
      have member := first_mem canonical
      rw [same] at member
      simp [ofRuns] at member
    | cons next =>
      have first := UInt8.le_antisymm (first_le canonical (same ▸ first_mem canonicalToo))
        (first_le canonicalToo (same ▸ first_mem canonical))
      have last : run.last = next.last := UInt8.le_antisymm
        (last_le canonicalToo same first) (last_le canonical same.symm first.symm)
      have isRun : run = next := by
        rcases run with ⟨_, _⟩
        rcases next with ⟨_, _⟩
        exact congrArg₂ ByteRun.mk first last
      refine congrArg₂ cons isRun (ih canonical.2.2 canonicalToo.2.2 (ext_mem fun _ => ?_))
      rw [mem_rest canonical, mem_rest canonicalToo, same, last]

end ByteSet

theorem Text.toList_hexByte (byte : UInt8) : (Text.hexByte byte).toList =
    ['0', 'x', Nat.digitChar (byte.toNat / 16), Nat.digitChar (byte.toNat % 16)] := by
  simp [hexByte]

theorem Text.hexByte_inj {first second : UInt8} {tail tailToo : List Char}
    (same : (Text.hexByte first).toList ++ tail = (Text.hexByte second).toList ++ tailToo) :
    first = second ∧ tail = tailToo := by
  have digits : ∀ left < 16, ∀ right < 16, Nat.digitChar left = Nat.digitChar right →
      left = right := by decide
  simp only [toList_hexByte, cons_append, nil_append, cons.injEq, true_and] at same
  have bound := first.toNat_lt
  have boundToo := second.toNat_lt
  have high := digits _ (by omega) _ (by omega) same.1
  have low := digits _ (by omega) _ (by omega) same.2.1
  exact ⟨UInt8.toNat_inj.mp (by omega), same.2.2⟩

namespace ByteRun

def ending (run : ByteRun) : List Char :=
  if run.first = run.last then [] else "..=".toList ++ (Text.hexByte run.last).toList

theorem toList_text (run : ByteRun) :
    run.text.toList = (Text.hexByte run.first).toList ++ run.ending := by
  rw [text, ending]
  split <;> simp

/-- The text behind the first run: the other runs, each behind a comma, and the closing brace. -/
def closing : List ByteRun → List Char
  | [] => "\x7d".toList
  | run :: rest => ", ".toList ++ (run.text.toList ++ closing rest)

theorem toList_intercalate (run : ByteRun) (rest : List ByteRun) :
    (", ".intercalate ((run :: rest).map text)).toList ++ "\x7d".toList =
      run.text.toList ++ closing rest := by
  induction rest generalizing run with
  | nil => simp [closing]
  | cons next _ ih =>
    rw [closing, ← ih next]
    simp

/-- The text of a run is over where a comma or a brace follows. -/
theorem text_inj (same : run.text.toList ++ closing rest = next.text.toList ++ closing others) :
    run = next ∧ closing rest = closing others := by
  rw [toList_text, toList_text, append_assoc, append_assoc] at same
  rcases Text.hexByte_inj same with ⟨first, tails⟩
  have head (runs : List ByteRun) : (closing runs).head? ≠ some '.' := by
    cases runs <;> simp [closing]
  rcases run with ⟨start, stop⟩
  rcases next with ⟨startToo, stopToo⟩
  simp only at first
  subst first
  simp only [ending] at tails
  split at tails <;> split at tails
  · rename_i isOne isOneToo
    exact ⟨by rw [← isOne, ← isOneToo], tails⟩
  · exact absurd (congrArg head? tails) (by simpa using head rest)
  · exact absurd (congrArg head? tails.symm) (by simpa using head others)
  · rw [append_assoc, append_assoc, append_cancel_left_eq] at tails
    rcases Text.hexByte_inj tails with ⟨last, same⟩
    exact ⟨by rw [last], same⟩

theorem closing_inj (same : closing rest = closing others) : rest = others := by
  induction rest generalizing others with
  | nil =>
    cases others with
    | nil => rfl
    | cons => simp [closing] at same
  | cons _ _ ih =>
    cases others with
    | nil => simp [closing] at same
    | cons =>
      rw [closing, closing, append_cancel_left_eq] at same
      rcases text_inj same with ⟨isRun, tails⟩
      rw [isRun, ih tails]

end ByteRun

namespace ByteSet

open ByteRun

/-- Behind the opening brace there is the first digit of a run, or the closing brace. -/
theorem toList_text (notFull : set.isFull = false) : set.text.toList = '\x7b' :: match set.runs with
      | [] => closing []
      | run :: rest => run.text.toList ++ closing rest := by
  rw [text, notFull]
  cases set.runs with
  | nil => simp [closing]
  | cons =>
    simp only
    rw [← toList_intercalate]
    simp

theorem text_ne_of_isFull (isFull : set.isFull) (notFull : other.isFull = false) :
    set.text ≠ other.text := by
  intro same
  have chars := congrArg String.toList same
  rw [toList_text notFull, text, if_pos isFull] at chars
  cases isRuns : other.runs with
  | nil => simp [isRuns, closing] at chars
  | cons => simp [isRuns, ByteRun.toList_text, Text.toList_hexByte] at chars

theorem runs_eq_of_text_eq (notFull : set.isFull = false) (notFullToo : other.isFull = false)
    (same : set.text = other.text) : set.runs = other.runs := by
  have chars := congrArg String.toList same
  rw [toList_text notFull, toList_text notFullToo, cons.injEq] at chars
  have tails := chars.2
  cases isRuns : set.runs with
  | nil =>
    cases isRunsToo : other.runs with
    | nil => rfl
    | cons => simp [isRuns, isRunsToo, closing, ByteRun.toList_text, Text.toList_hexByte] at tails
  | cons =>
    cases isRunsToo : other.runs with
    | nil => simp [isRuns, isRunsToo, closing, ByteRun.toList_text, Text.toList_hexByte] at tails
    | cons =>
      rw [isRuns, isRunsToo] at tails
      rcases text_inj tails with ⟨isRun, closings⟩
      rw [isRun, closing_inj closings]

/-- The runs of a set are the only canonical ones with its members, so that the set can be had back
from them, and a set can be told from any other by its text. -/
theorem runs_unique (set : ByteSet) :
    Canonical set.runs ∧ ofRuns set.runs = set ∧
      (∀ runs, Canonical runs → ofRuns runs = set → runs = set.runs) ∧
      ∀ other : ByteSet, set.text = other.text ↔ set = other := by
  rcases set.canonical_runs with ⟨canonical, members⟩
  refine ⟨canonical, members, fun _ isCanonical same => ?_,
    fun other => ⟨fun same => ?_, congrArg text⟩⟩
  · exact eq_of_canonical isCanonical canonical (same.trans members.symm)
  · cases isFull : set.isFull <;> cases isFullToo : other.isFull
    · rw [← members, runs_eq_of_text_eq isFull isFullToo same, other.canonical_runs.2]
    · exact absurd same.symm (text_ne_of_isFull isFullToo isFull)
    · exact absurd same (text_ne_of_isFull isFull isFullToo)
    · rw [ByteSet.isFull, decide_eq_true_eq] at isFull isFullToo
      rw [isFull, isFullToo]

end ByteSet

end Recast
