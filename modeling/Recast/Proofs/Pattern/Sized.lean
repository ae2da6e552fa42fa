import Recast.Pattern

/-!
# Patterns of one size

`Pattern.size` holds sums at the cap and takes the largest of several options. Assembly only makes
patterns whose options all have the same number of bytes and whose sums stay below the cap.
`Pattern.Fits` says this of a pattern with a fixed size, and `Pattern.Open` of one that ends in a
tail. In both, a repeat has a body with bytes, and at least two rounds or an open number of them.
-/

namespace Recast

open Extent List

variable {width left right : Nat} {pattern body : Pattern} {back patterns : List Pattern}

namespace Extent

theorem satAdd_eq (inside : left + right ≤ cap) : satAdd left right = left + right := by
  simp only [satAdd]
  omega

theorem satMul_eq (inside : left * right ≤ cap) : satMul left right = left * right := by
  simp only [satMul]
  omega

end Extent

variable {plain : Prop} {layouts : Nat}

/-- The token can be read: its byte has a value to hold, and its referent is one of the layouts. -/
def Token.Proper (layouts : Nat) : Token → Prop
  | .cell (.init values) => ∃ byte, byte ∈ values
  | .cell .uninit => True
  | .reference target => target.referent.index < layouts
  | .marker _ => True

theorem Token.Proper.mono {more : Nat} (grown : layouts ≤ more) {token : Token}
    (isProper : token.Proper layouts) : token.Proper more := by
  rcases token with (_ | values) | target | name
  · trivial
  · exact isProper
  · exact Nat.lt_of_lt_of_le isProper grown
  · trivial

/-- The token can be read, and it is a cell wherever only cells are wanted. -/
def Token.Admitted (plain : Prop) (layouts : Nat) (token : Token) : Prop :=
  token.Proper layouts ∧ (plain → ∃ contents, token = .cell contents)

theorem Token.Admitted.mono {more : Nat} (grown : layouts ≤ more) {token : Token}
    (admitted : token.Admitted plain layouts) : token.Admitted plain more :=
  ⟨admitted.1.mono grown, admitted.2⟩

theorem Token.admitted_uninit : (Token.cell .uninit).Admitted plain layouts :=
  ⟨trivial, fun _ => ⟨_, rfl⟩⟩

namespace Pattern

mutual

/-- Every value has this number of bytes, by the way the pattern is built. -/
def Fits : Pattern → Nat → Prop
  | leaf token, width => width = token.width
  | seq parts, width => FitTogether parts width
  | alt options, width => (options = [] → width = 0) ∧ FitEach options width
  | rep body (.exact number), width =>
    ∃ unit, body.Fits unit ∧ unit ≠ 0 ∧ 2 ≤ number ∧ width = unit * number
  | rep _ (.atLeast _), _ => False

def FitTogether : List Pattern → Nat → Prop
  | [], width => width = 0
  | part :: rest, width =>
    ∃ first others, part.Fits first ∧ FitTogether rest others ∧ width = first + others

def FitEach : List Pattern → Nat → Prop
  | [], _ => True
  | option :: rest, width => option.Fits width ∧ FitEach rest width

end

mutual

def Open : Pattern → Prop
  | leaf _ => False
  | seq parts => OpenAtEnd parts
  | alt _ => False
  | rep _ (.exact _) => False
  | rep body (.atLeast _) => ∃ unit, body.Fits unit ∧ unit ≠ 0 ∧ unit ≤ cap

def OpenAtEnd : List Pattern → Prop
  | [] => False
  | part :: rest =>
    (rest = [] ∧ part.Open) ∨ ((∃ width, part.Fits width ∧ width ≤ cap) ∧ OpenAtEnd rest)

end

mutual

def Leaves (proper : Token → Prop) : Pattern → Prop
  | leaf token => proper token
  | seq parts => LeavesOfAll proper parts
  | alt options => LeavesOfAll proper options
  | rep body _ => body.Leaves proper

def LeavesOfAll (proper : Token → Prop) : List Pattern → Prop
  | [] => True
  | part :: rest => part.Leaves proper ∧ LeavesOfAll proper rest

end

def Shaped (pattern : Pattern) : Prop :=
  (∃ width, pattern.Fits width ∧ width ≤ cap) ∨ pattern.Open

mutual

theorem size_of_fits : {pattern : Pattern} → {width : Nat} → pattern.Fits width →
    width ≤ cap → pattern.size = some width
  | leaf _, _, fits, _ => by
    simp only [Fits] at fits
    simp only [size, fits]
  | seq _, _, fits, inside => by
    simp only [Fits] at fits
    simpa only [size] using sumOfSizes_of_fitTogether fits inside
  | alt _, _, fits, inside => by
    simp only [Fits] at fits
    simpa only [size] using largestSize_of_fitEach fits.1 fits.2 inside
  | rep body (.exact number), width, fits, inside => by
    simp only [Fits] at fits
    rcases fits with ⟨unit, bodyFits, _, rounds, rfl⟩
    have unitInside : unit ≤ cap := by
      calc
        unit = unit * 1 := (Nat.mul_one unit).symm
        _ ≤ unit * number := Nat.mul_le_mul_left unit (by omega)
        _ ≤ cap := inside
    simp only [size, size_of_fits bodyFits unitInside, Option.map_some, satMul_eq inside]
  | rep _ (.atLeast _), _, fits, _ => by simp only [Fits] at fits

theorem sumOfSizes_of_fitTogether : {parts : List Pattern} → {width : Nat} →
    FitTogether parts width → width ≤ cap → sumOfSizes parts = some width
  | [], _, fits, _ => by
    simp only [FitTogether] at fits
    simp only [sumOfSizes, fits]
  | part :: rest, _, fits, inside => by
    simp only [FitTogether] at fits
    rcases fits with ⟨first, others, partFits, restFit, rfl⟩
    have partSize := size_of_fits partFits (by omega)
    have restSize := sumOfSizes_of_fitTogether restFit (by omega)
    simp only [sumOfSizes, partSize, restSize, satAdd_eq inside]

theorem largestSize_of_fitEach : {options : List Pattern} → {width : Nat} →
    (options = [] → width = 0) → FitEach options width → width ≤ cap →
    largestSize options = some width
  | [], _, empty, _, _ => by simp [largestSize, empty rfl]
  | [option], width, _, fits, inside => by
    simp only [FitEach, and_true] at fits
    simp [largestSize, size_of_fits fits inside]
  | option :: next :: rest, width, _, fits, inside => by
    simp only [FitEach] at fits
    have optionSize := size_of_fits fits.1 inside
    have restSize : largestSize (next :: rest) = some width := by
      refine largestSize_of_fitEach (by simp) ?_ inside
      simpa only [FitEach] using fits.2
    rw [largestSize, optionSize, restSize]
    simp

end

mutual

theorem size_of_open : {pattern : Pattern} → pattern.Open → pattern.size = none
  | leaf _, isOpen => by simp only [Open] at isOpen
  | seq _, isOpen => by
    simp only [Open] at isOpen
    simpa only [size] using sumOfSizes_of_openAtEnd isOpen
  | alt _, isOpen => by simp only [Open] at isOpen
  | rep _ (.exact _), isOpen => by simp only [Open] at isOpen
  | rep _ (.atLeast _), _ => by simp only [size]

theorem sumOfSizes_of_openAtEnd : {parts : List Pattern} → OpenAtEnd parts → sumOfSizes parts = none
  | [], isOpen => by simp only [OpenAtEnd] at isOpen
  | part :: rest, isOpen => by
    simp only [OpenAtEnd] at isOpen
    rcases isOpen with ⟨rfl, partOpen⟩ | ⟨_, restOpen⟩
    · simp [sumOfSizes, size_of_open partOpen]
    · rw [sumOfSizes, sumOfSizes_of_openAtEnd restOpen]
      cases part.size <;> rfl

end

theorem Shaped.fits_of_size (shaped : pattern.Shaped) (sized : pattern.size = some width) :
    pattern.Fits width ∧ width ≤ cap := by
  rcases shaped with ⟨_, fits, inside⟩ | isOpen
  · rw [size_of_fits fits inside, Option.some.injEq] at sized
    exact sized ▸ ⟨fits, inside⟩
  · simp [size_of_open isOpen] at sized

theorem Shaped.open_of_size (shaped : pattern.Shaped) (unsized : pattern.size = none) :
    pattern.Open := by
  rcases shaped with ⟨_, fits, inside⟩ | isOpen
  · simp [size_of_fits fits inside] at unsized
  · exact isOpen

section Sequences

variable {front : List Pattern}

theorem fitTogether_append :
    FitTogether (front ++ back) width ↔
      ∃ first others, FitTogether front first ∧ FitTogether back others ∧
        width = first + others := by
  induction front generalizing width with
  | nil => simp [FitTogether]
  | cons part rest ih =>
    simp only [cons_append, FitTogether, ih]
    constructor
    · rintro ⟨first, _, partFits, ⟨second, others, restFit, backFit, rfl⟩, rfl⟩
      exact ⟨first + second, others, ⟨first, second, partFits, restFit, rfl⟩, backFit, by omega⟩
    · rintro ⟨_, others, ⟨first, second, partFits, restFit, rfl⟩, backFit, rfl⟩
      exact ⟨first, second + others, partFits, ⟨second, others, restFit, backFit, rfl⟩, by omega⟩

theorem openAtEnd_append (frontFit : FitTogether front width) (inside : width ≤ cap)
    (backOpen : OpenAtEnd back) : OpenAtEnd (front ++ back) := by
  induction front generalizing width with
  | nil => exact backOpen
  | cons part rest ih =>
    simp only [FitTogether] at frontFit
    rcases frontFit with ⟨first, others, partFits, restFit, rfl⟩
    simp only [cons_append, OpenAtEnd]
    exact .inr ⟨⟨first, partFits, by omega⟩, ih restFit (by omega)⟩

theorem fitTogether_parts : FitTogether pattern.parts width ↔ pattern.Fits width := by
  cases pattern with
  | seq => simp only [parts, Fits]
  | leaf | alt | rep => simp [parts, FitTogether]

theorem openAtEnd_parts (isOpen : pattern.Open) : OpenAtEnd pattern.parts := by
  cases pattern with
  | seq => simpa only [parts, Open] using isOpen
  | leaf | alt => simp only [Open] at isOpen
  | rep => exact .inl ⟨rfl, isOpen⟩

theorem fitTogether_flatMap_parts :
    FitTogether (patterns.flatMap parts) width ↔ FitTogether patterns width := by
  induction patterns generalizing width with
  | nil => simp [FitTogether]
  | cons _ _ ih =>
    simp only [flatMap_cons, fitTogether_append, FitTogether, fitTogether_parts, ih]

theorem fits_concat : (concat patterns).Fits width ↔ FitTogether patterns width := by
  simp only [concat, Fits, fitTogether_flatMap_parts]

theorem fits_andThen {first second : Pattern} (firstFits : first.Fits left)
    (secondFits : second.Fits right) :
    (first.andThen second).Fits (left + right) := by
  simp only [andThen, Fits, fitTogether_append, fitTogether_parts]
  exact ⟨left, right, firstFits, secondFits, rfl⟩

theorem open_concat {last : Pattern} (frontFit : FitTogether front width) (inside : width ≤ cap)
    (lastOpen : last.Open) :
    (concat (front ++ [last])).Open := by
  simp only [concat, Open, flatMap_append, flatMap_singleton]
  exact openAtEnd_append (fitTogether_flatMap_parts.mpr frontFit) inside (openAtEnd_parts lastOpen)

end Sequences

theorem fits_unit : unit.Fits 0 := by
  simp only [unit, Fits, FitTogether]

theorem fitEach_iff {options : List Pattern} :
    FitEach options width ↔ ∀ option ∈ options, option.Fits width := by
  induction options with
  | nil => simp [FitEach]
  | cons _ _ ih => rw [FitEach, forall_mem_cons, ih]

theorem fits_never : never.Fits 0 := by
  simp [never, Fits, FitEach]

theorem fits_replicate {number : Nat} (bodyFits : body.Fits width) (inside : width * number ≤ cap) :
    (body.replicate (.exact number)).Fits (width * number) := by
  unfold replicate
  by_cases none : number = 0
  · simp [none, fits_unit]
  by_cases empty : width = 0
  · subst empty
    have bodySize := size_of_fits bodyFits (Nat.zero_le _)
    simp only [Count.exact.injEq, none, if_false, bodySize, if_true, Nat.zero_mul]
    split
    · exact fits_unit
    · exact fits_never
  have bodyInside : width ≤ cap := by
    calc
      width = width * 1 := (Nat.mul_one width).symm
      _ ≤ width * number := Nat.mul_le_mul_left width (by omega)
      _ ≤ cap := inside
  have bodySize := size_of_fits bodyFits bodyInside
  have notEmpty : body.size ≠ some 0 := by
    simp [bodySize, empty]
  by_cases single : number = 1
  · simpa [single, notEmpty] using bodyFits
  · simp only [Count.exact.injEq, none, single, notEmpty, if_false, Fits]
    exact ⟨width, bodyFits, empty, by omega, rfl⟩

theorem shaped_replicate_atLeast (number : Nat) (bodyFits : body.Fits width)
    (inside : width ≤ cap) :
    (body.replicate (.atLeast number)).Shaped := by
  have bodySize := size_of_fits bodyFits inside
  unfold replicate
  by_cases empty : width = 0
  · subst empty
    simp only [reduceCtorEq, if_false, bodySize, if_true]
    left
    refine ⟨0, ?_, Nat.zero_le _⟩
    split
    · exact fits_unit
    · exact fits_never
  · have notEmpty : body.size ≠ some 0 := by
      simp [bodySize, empty]
    simp only [reduceCtorEq, if_false, notEmpty]
    right
    simp only [Open]
    exact ⟨width, bodyFits, empty, inside⟩

theorem fits_padding (inside : width ≤ cap) : (padding width).Fits width := by
  have cell : (byte .uninit).Fits 1 := by simp [byte, Fits, Token.width]
  simpa [padding] using fits_replicate cell (by simpa using inside)

theorem fits_data (inside : width ≤ cap) : (data width).Fits width := by
  have cell : (byte .any).Fits 1 := by simp [byte, Fits, Token.width]
  simpa [data] using fits_replicate cell (by simpa using inside)

section Tokens

variable {proper weaker : Token → Prop}

theorem leavesOfAll_iff :
    LeavesOfAll proper patterns ↔ ∀ pattern ∈ patterns, pattern.Leaves proper := by
  induction patterns with
  | nil => simp [LeavesOfAll]
  | cons _ _ ih => simp [LeavesOfAll, ih]

mutual

theorem Leaves.mono (imp : ∀ token, proper token → weaker token) :
    {pattern : Pattern} → pattern.Leaves proper → pattern.Leaves weaker
  | leaf _, leaves => by
    simp only [Leaves] at leaves ⊢
    exact imp _ leaves
  | seq _, leaves => by
    simp only [Leaves] at leaves ⊢
    exact LeavesOfAll.mono imp leaves
  | alt _, leaves => by
    simp only [Leaves] at leaves ⊢
    exact LeavesOfAll.mono imp leaves
  | rep _ _, leaves => by
    simp only [Leaves] at leaves ⊢
    exact Leaves.mono imp leaves

theorem LeavesOfAll.mono (imp : ∀ token, proper token → weaker token) :
    {patterns : List Pattern} → LeavesOfAll proper patterns → LeavesOfAll weaker patterns
  | [], _ => trivial
  | _ :: _, leaves => ⟨Leaves.mono imp leaves.1, LeavesOfAll.mono imp leaves.2⟩

end

theorem leavesOfAll_parts : LeavesOfAll proper pattern.parts ↔ pattern.Leaves proper := by
  cases pattern <;> simp [parts, LeavesOfAll, Leaves]

theorem leaves_concat : (concat patterns).Leaves proper ↔ LeavesOfAll proper patterns := by
  simp only [concat, Leaves, leavesOfAll_iff, mem_flatMap]
  constructor
  · intro all pattern member
    rw [← leavesOfAll_parts, leavesOfAll_iff]
    exact fun part inside => all part ⟨pattern, member, inside⟩
  · rintro all part ⟨pattern, member, inside⟩
    exact leavesOfAll_iff.mp (leavesOfAll_parts.mpr (all pattern member)) part inside

theorem leaves_andThen {first second : Pattern} (firstLeaves : first.Leaves proper)
    (secondLeaves : second.Leaves proper) : (first.andThen second).Leaves proper := by
  simp only [andThen, Leaves, leavesOfAll_iff, mem_append]
  rintro part (inside | inside)
  · exact leavesOfAll_iff.mp (leavesOfAll_parts.mpr firstLeaves) part inside
  · exact leavesOfAll_iff.mp (leavesOfAll_parts.mpr secondLeaves) part inside

theorem leaves_replicate {count : Count} (leaves : body.Leaves proper) :
    (body.replicate count).Leaves proper := by
  unfold replicate
  split
  · simp [unit, Leaves, LeavesOfAll]
  split
  · split <;> simp [unit, never, Leaves, LeavesOfAll]
  split
  · exact leaves
  · simpa only [Leaves] using leaves

theorem leaves_padding (width : Nat) (isProper : proper (.cell .uninit)) :
    (padding width).Leaves proper :=
  leaves_replicate (by simpa only [byte, Leaves] using isProper)

theorem leaves_data (width : Nat) (isProper : proper (.cell .any)) : (data width).Leaves proper :=
  leaves_replicate (by simpa only [byte, Leaves] using isProper)

end Tokens

end Pattern

end Recast
