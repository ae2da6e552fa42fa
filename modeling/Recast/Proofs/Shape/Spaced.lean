import Recast.Proofs.Shape.Denotes

/-!
# Pieces one behind the other

Pieces that do not overlap, given in the order of their offsets, compose one list of symbols only:
that in which they come one after the other, with bytes without a value in between (`composes_iff`).
This holds as long as every symbol of a piece takes a byte; one that takes none could lie anywhere.
-/

namespace Recast

open List

variable {front back : List Symbol}

namespace Symbol

variable {symbols whole part : List Symbol} {start stop offset : Nat}
  {pieces rest : List (Placed (List Symbol))} {piece : Placed (List Symbol)}

def Solid (symbols : List Symbol) : Prop :=
  ∀ symbol ∈ symbols, symbol.width ≠ 0

@[simp]
theorem extent_nil : extent [] = 0 := rfl

@[simp]
theorem extent_cons (symbol : Symbol) (rest : List Symbol) :
    extent (symbol :: rest) = symbol.width + extent rest := rfl

@[simp]
theorem extent_append (front back : List Symbol) :
    extent (front ++ back) = extent front + extent back := by
  induction front with
  | nil => simp
  | cons _ _ ih => simp [ih, Nat.add_assoc]

@[simp]
theorem extent_uninit (number : Nat) : extent (replicate number .uninit) = number := by
  induction number with
  | zero => rfl
  | succ _ ih => simp [replicate_succ, ih, width, Nat.add_comm]

theorem Solid.eq_nil (solid : Solid symbols) (empty : extent symbols = 0) : symbols = [] := by
  cases symbols with
  | nil => rfl
  | cons symbol rest =>
    have positive := solid symbol mem_cons_self
    rw [extent_cons] at empty
    omega

theorem Solid.append (frontSolid : Solid front) (backSolid : Solid back) :
    Solid (front ++ back) := by
  intro symbol member
  rcases mem_append.mp member with inFront | inBack
  · exact frontSolid symbol inFront
  · exact backSolid symbol inBack

theorem Solid.cut {before after : List Symbol} (solid : Solid front)
    (same : front ++ back = before ++ after) (shorter : extent front ≤ extent before) :
    ∃ between, before = front ++ between ∧ back = between ++ after := by
  rcases append_eq_append_iff.mp same with ⟨between, isBefore, isBack⟩ | ⟨extra, isFront, isAfter⟩
  · exact ⟨between, isBefore, isBack⟩
  · have extraSolid : Solid extra := fun symbol member =>
      solid symbol (isFront ▸ mem_append_right _ member)
    have empty : extent extra = 0 := by
      rw [isFront, extent_append] at shorter
      omega
    have noExtra := extraSolid.eq_nil empty
    subst noExtra
    exact ⟨[], by simpa using isFront.symm, by simpa using isAfter.symm⟩

theorem eq_uninit_of_forall (all : ∀ symbol ∈ symbols, symbol = .uninit) :
    symbols = replicate (extent symbols) .uninit := by
  have same := eq_replicate_of_mem all
  have length : extent symbols = symbols.length := by
    rw [same]
    simp
  rw [length]
  exact same

theorem lies_of_mem {symbol : Symbol} (member : symbol ∈ symbols) :
    ∃ offset, Lies symbols offset [symbol] ∧ offset + symbol.width ≤ extent symbols := by
  rcases append_of_mem member with ⟨before, after, rfl⟩
  refine ⟨extent before, ⟨before, after, by simp, rfl⟩, ?_⟩
  simp only [extent_append, extent_cons]
  omega

theorem Lies.end_le (lies : Lies whole offset part) : offset + extent part ≤ extent whole := by
  rcases lies with ⟨before, after, rfl, rfl⟩
  simp only [extent_append]
  omega

theorem Lies.extend (front back : List Symbol) (lies : Lies whole offset part) :
    Lies (front ++ whole ++ back) (extent front + offset) part := by
  rcases lies with ⟨before, after, rfl, rfl⟩
  exact ⟨front ++ before, after ++ back, by simp, extent_append front before⟩

theorem Lies.of_append {symbol : Symbol} (lies : Lies (front ++ back) offset [symbol]) :
    Lies front offset [symbol] ∨ ∃ inner, Lies back inner [symbol] ∧
    offset = extent front + inner := by
  rcases lies with ⟨before, after, same, rfl⟩
  rw [append_assoc] at same
  rcases append_eq_append_iff.mp same with ⟨between, isBefore, isBack⟩ | ⟨between, isFront, isTail⟩
  · exact .inr
      ⟨extent between, ⟨between, after, by simp [isBack], rfl⟩, by rw [isBefore, extent_append]⟩
  · cases between with
    | nil =>
      refine .inr ⟨0, ⟨[], after, by simpa using isTail.symm, rfl⟩, ?_⟩
      simp [isFront]
    | cons _ others =>
      simp only [cons_append, cons.injEq] at isTail
      rcases isTail with ⟨rfl, _⟩
      exact .inl ⟨before, others, by simp [isFront], rfl⟩

theorem composes_nil :
    Composes start stop [] whole ↔ start ≤ stop ∧ whole = replicate (stop - start) .uninit := by
  constructor
  · intro composes
    have fills := composes.fills
    refine ⟨by omega, ?_⟩
    have isExtent : stop - start = extent whole := by omega
    rw [isExtent]
    apply eq_uninit_of_forall
    intro symbol member
    rcases lies_of_mem member with ⟨offset, lies, _⟩
    rcases composes.rest offset symbol lies with isUninit | ⟨_, none, _⟩
    · exact isUninit
    · simp at none
  · rintro ⟨ordered, rfl⟩
    refine ⟨by simp; omega, by simp, ?_⟩
    rintro _ _ ⟨_, _, same, _⟩
    left
    apply eq_of_mem_replicate (n := stop - start)
    rw [same]
    simp

theorem Composes.solid (composes : Composes start stop pieces whole)
    (solid : ∀ piece ∈ pieces, Solid piece.content) : Solid whole := by
  intro symbol member
  rcases lies_of_mem member with ⟨offset, lies, _⟩
  rcases composes.rest offset symbol lies with rfl | ⟨piece, isPiece, _, ⟨_, _, isContent, _⟩, _⟩
  · exact Nat.one_ne_zero
  · apply solid piece isPiece
    rw [isContent]
    simp

theorem composes_cons (behindStart : start ≤ piece.offset)
    (apart : ∀ other ∈ rest, piece.offset + extent piece.content ≤ other.offset)
    (solid : ∀ other ∈ piece :: rest, Solid other.content) :
    Composes start stop (piece :: rest) whole ↔ ∃ later,
      whole = replicate (piece.offset - start) .uninit ++ piece.content ++ later ∧
        Composes (piece.offset + extent piece.content) stop rest later := by
  have behind (other : Placed (List Symbol)) (member : other ∈ piece :: rest) : piece.offset ≤
      other.offset := by
    rcases mem_cons.mp member with rfl | inRest
    · exact Nat.le_refl _
    · have := apart other inRest
      omega
  constructor
  · intro composes
    have wholeSolid := composes.solid solid
    rcases composes.placed piece mem_cons_self with ⟨_, ⟨before, after, isWhole, rfl⟩, isOffset⟩
    have fills := composes.fills
    rw [isWhole] at fills wholeSolid
    simp only [extent_append] at fills
    have frontSolid : Solid (before ++ piece.content) := fun symbol member =>
      wholeSolid symbol (mem_append_left _ member)
    -- No piece reaches in front of the first one.
    have isBefore : before = replicate (piece.offset - start) .uninit := by
      have isExtent : piece.offset - start = extent before := by omega
      rw [isExtent]
      apply eq_uninit_of_forall
      intro symbol member
      have positive := frontSolid symbol (mem_append_left _ member)
      rcases lies_of_mem member with ⟨offset, lies, inFront⟩
      have liesWhole : Lies whole offset [symbol] := by
        rw [isWhole, append_assoc]
        simpa using lies.extend [] (piece.content ++ after)
      rcases composes.rest offset symbol liesWhole with isUninit | ⟨other, member, inner, _, same⟩
      · exact isUninit
      · have := behind other member
        omega
    refine ⟨after, isBefore ▸ isWhole, by omega, ?_, ?_⟩
    · intro other member
      rcases composes.placed other (mem_cons_of_mem _ member) with
        ⟨_, ⟨front, back, same, rfl⟩, isOther⟩
      have later := apart other member
      rw [isWhole, append_assoc front] at same
      have shorter : extent (before ++ piece.content) ≤ extent front := by
        rw [extent_append]
        omega
      rcases frontSolid.cut same shorter with ⟨between, isFront, isAfter⟩
      rw [isFront, extent_append, extent_append] at isOther
      exact ⟨extent between, ⟨between, back, by simp [isAfter], rfl⟩, by omega⟩
    · intro offset symbol lies
      have liesWhole : Lies whole (extent (before ++ piece.content) + offset) [symbol] := by
        rw [isWhole]
        simpa using lies.extend (before ++ piece.content) []
      rw [extent_append] at liesWhole
      rcases composes.rest _ symbol liesWhole with isUninit | ⟨other, member, inner, inside, same⟩
      · exact .inl isUninit
      · rcases mem_cons.mp member with rfl | inRest
        · have ends := inside.end_le
          have positive : symbol.width ≠ 0 := by
            rcases lies with ⟨_, _, isAfter, _⟩
            apply wholeSolid
            simp [isAfter]
          simp only [extent_cons, extent_nil] at ends
          omega
        · exact .inr ⟨other, inRest, inner, inside, by omega⟩
  · rintro ⟨later, rfl, composes⟩
    have fills := composes.fills
    refine ⟨?_, ?_, ?_⟩
    · simp only [extent_append, extent_uninit]
      omega
    · intro other member
      rcases mem_cons.mp member with rfl | inRest
      · exact ⟨_, ⟨_, _, rfl, rfl⟩, by rw [extent_uninit]; omega⟩
      · rcases composes.placed other inRest with ⟨inner, lies, isOffset⟩
        have later := lies.extend (replicate (piece.offset - start) .uninit ++ piece.content) []
        rw [append_nil] at later
        refine ⟨_, later, ?_⟩
        simp only [extent_append, extent_uninit]
        omega
    · intro offset symbol lies
      rcases lies.of_append with inFront | ⟨inner, inLater, rfl⟩
      · rcases inFront.of_append with ⟨before, after, same, _⟩ | ⟨inner, inPiece, rfl⟩
        · left
          apply eq_of_mem_replicate (n := piece.offset - start)
          rw [same]
          simp
        · refine .inr ⟨piece, mem_cons_self, inner, inPiece, ?_⟩
          rw [extent_uninit]
          omega
      · rcases composes.rest inner symbol inLater with
          isUninit | ⟨other, member, deeper, inside, same⟩
        · exact .inl isUninit
        · refine .inr ⟨other, mem_cons_of_mem _ member, deeper, inside, ?_⟩
          simp only [extent_append, extent_uninit]
          omega

theorem Composes.congr {others : List (Placed (List Symbol))}
    (same : ∀ piece, piece ∈ others ↔ piece ∈ pieces)
    (composes : Composes start stop pieces whole) :
    Composes start stop others whole where
  fills := composes.fills
  placed piece member := composes.placed piece ((same piece).mp member)
  rest offset symbol lies := by
    rcases composes.rest offset symbol lies with isUninit | ⟨piece, member, inside⟩
    · exact .inl isUninit
    · exact .inr ⟨piece, (same piece).mpr member, inside⟩

/-- The pieces come in the order of their offsets, none before the last one has ended. -/
def Apart : (start : Nat) → List (Placed (List Symbol)) → Prop
  | _, [] => True
  | start, piece :: rest =>
    start ≤ piece.offset ∧ Apart (piece.offset + extent piece.content) rest

def behind : (start : Nat) → List (Placed (List Symbol)) → Nat
  | start, [] => start
  | _, piece :: rest => behind (piece.offset + extent piece.content) rest

def spaced : (start : Nat) → List (Placed (List Symbol)) → List Symbol
  | _, [] => []
  | start, piece :: rest =>
    List.replicate (piece.offset - start) .uninit ++ piece.content ++
      spaced (piece.offset + extent piece.content) rest

theorem Apart.le_offset (apart : Apart start pieces) : ∀ piece ∈ pieces, start ≤ piece.offset := by
  induction pieces generalizing start with
  | nil => simp
  | cons first rest ih =>
    rcases apart with ⟨behindStart, apartRest⟩
    intro piece member
    rcases mem_cons.mp member with rfl | inRest
    · exact behindStart
    · have := ih apartRest piece inRest
      omega

theorem composes_iff (apart : Apart start pieces) (solid : ∀ piece ∈ pieces, Solid piece.content) :
    Composes start stop pieces whole ↔ behind start pieces ≤ stop ∧
      whole = spaced start pieces ++ replicate (stop - behind start pieces) .uninit := by
  induction pieces generalizing start whole with
  | nil => simp [composes_nil, behind, spaced]
  | cons _ _ ih =>
    rcases apart with ⟨behindStart, apartRest⟩
    have restSolid := fun other member => solid other (mem_cons_of_mem _ member)
    rw [composes_cons behindStart apartRest.le_offset solid]
    simp only [ih apartRest restSolid, behind, spaced]
    constructor
    · rintro ⟨_, rfl, inside, rfl⟩
      exact ⟨inside, by simp⟩
    · rintro ⟨inside, rfl⟩
      exact ⟨_, by simp, inside, rfl⟩

end Symbol

end Recast
