import Recast.Proofs.Pattern.Sized
import Recast.Proofs.Shape.Spaced

/-!
# The values of a pattern

A pattern spells some lists of symbols: the tokens of its leaves with their markers left out. The
ways in which assembly puts patterns together keep what they spell, although they merge sequences
and drop what takes no bytes, since every token but a marker takes a byte (`Token.Solid`).
-/

namespace Recast

open List

theorem forall₂_append {α β : Type} {related : α → β → Prop} {front back : List α}
    {whole : List β} :
    Forall₂ related (front ++ back) whole ↔ ∃ first second,
      Forall₂ related front first ∧ Forall₂ related back second ∧ whole = first ++ second := by
  constructor
  · intro each
    induction front generalizing whole with
    | nil => exact ⟨[], whole, .nil, each, rfl⟩
    | cons _ _ ih =>
      rcases each with _ | ⟨here, later⟩
      rcases ih later with ⟨_, second, eachFirst, eachSecond, rfl⟩
      exact ⟨_, second, .cons here eachFirst, eachSecond, rfl⟩
  · rintro ⟨_, _, eachFirst, eachSecond, rfl⟩
    exact rel_append eachFirst eachSecond

/-- What the letter amounts to without the arena; a marker leaves no trace. -/
def Letter.symbols : Letter → List Symbol
  | .byte value => [.byte value]
  | .uninit => [.uninit]
  | .reference target => [.reference target.toGuarantee target.width]
  | .marker _ => []

namespace Token

variable {token : Token} {symbols : List Symbol}

/-- The symbols of a letter that the token stands for. -/
def Shows (token : Token) (symbols : List Symbol) : Prop :=
  ∃ letter, token.Holds letter ∧ letter.symbols = symbols

/-- There is a letter for the token, and it takes a byte unless it is a marker. -/
def Solid : Token → Prop
  | .cell (.init values) => ∃ byte, byte ∈ values
  | .cell .uninit => True
  | .reference target => target.width ≠ 0
  | .marker _ => True

theorem Solid.shows (solid : token.Solid) : ∃ symbols, token.Shows symbols := by
  rcases token with (_ | _) | target | name
  · exact ⟨_, _, .uninit, rfl⟩
  · rcases solid with ⟨_, member⟩
    exact ⟨_, _, .byte member, rfl⟩
  · exact ⟨_, _, .reference target, rfl⟩
  · exact ⟨_, _, .marker name, rfl⟩

theorem Shows.solid (isShown : token.Shows symbols) (solid : token.Solid) :
    Symbol.Solid symbols := by
  rcases isShown with ⟨_, holds, rfl⟩
  cases holds with
  | byte | uninit => simp [Letter.symbols, Symbol.Solid, Symbol.width]
  | reference =>
    simp only [Letter.symbols, Symbol.Solid, forall_mem_singleton]
    exact solid
  | marker => simp [Letter.symbols, Symbol.Solid]

theorem Shows.extent_eq (isShown : token.Shows symbols) : Symbol.extent symbols = token.width := by
  rcases isShown with ⟨_, holds, rfl⟩
  cases holds <;> simp [Letter.symbols, Symbol.width, Token.width]

end Token

/-- The whole consists of rounds, as many as the count admits. -/
def Count.Repeats {α : Type} (count : Count) (one : List α → Prop) (whole : List α) : Prop :=
  ∃ rounds : List (List α), count.Admits rounds.length ∧ (∀ round ∈ rounds, one round) ∧
    rounds.flatten = whole

theorem Count.Repeats.congr {α : Type} {count : Count} {one other : List α → Prop} {whole : List α}
    (same : ∀ round, one round ↔ other round) :
    count.Repeats one whole ↔ count.Repeats other whole := by
  simp only [Repeats, same]

namespace Pattern

mutual

/-- The lists of symbols that values of the pattern are made of. -/
def Spells : Pattern → List Symbol → Prop
  | leaf token, symbols => token.Shows symbols
  | seq parts, symbols => SpellsInTurn parts symbols
  | alt options, symbols => SpellsAny options symbols
  | rep body count, symbols => count.Repeats body.Spells symbols

def SpellsInTurn : List Pattern → List Symbol → Prop
  | [], symbols => symbols = []
  | part :: rest, symbols =>
    ∃ front back, part.Spells front ∧ SpellsInTurn rest back ∧ symbols = front ++ back

def SpellsAny : List Pattern → List Symbol → Prop
  | [], _ => False
  | option :: rest, symbols => option.Spells symbols ∨ SpellsAny rest symbols

end

variable {pattern body : Pattern} {parts patterns : List Pattern} {symbols : List Symbol}
  {count : Count} {width : Nat}

theorem spellsAny_iff {options : List Pattern} :
    SpellsAny options symbols ↔ ∃ option ∈ options, option.Spells symbols := by
  induction options with
  | nil => simp [SpellsAny]
  | cons _ _ ih => simp [SpellsAny, ih]

mutual

theorem solid_of_spells : {pattern : Pattern} → {symbols : List Symbol} →
    pattern.Leaves Token.Solid → pattern.Spells symbols → Symbol.Solid symbols
  | leaf _, _, leaves, spells => by
    simp only [Leaves] at leaves
    simp only [Spells] at spells
    exact spells.solid leaves
  | seq _, _, leaves, spells => by
    simp only [Leaves] at leaves
    simp only [Spells] at spells
    exact solid_of_spellsInTurn leaves spells
  | alt _, _, leaves, spells => by
    simp only [Leaves] at leaves
    simp only [Spells] at spells
    exact solid_of_spellsAny leaves spells
  | rep _ _, _, leaves, spells => by
    simp only [Leaves] at leaves
    simp only [Spells] at spells
    rcases spells with ⟨_, _, each, rfl⟩
    intro symbol member
    rcases mem_flatten.mp member with ⟨round, isRound, inRound⟩
    exact solid_of_spells leaves (each round isRound) symbol inRound

theorem solid_of_spellsInTurn : {parts : List Pattern} → {symbols : List Symbol} →
    LeavesOfAll Token.Solid parts → SpellsInTurn parts symbols → Symbol.Solid symbols
  | [], _, _, spells => by
    simp only [SpellsInTurn] at spells
    simp [spells, Symbol.Solid]
  | _ :: _, _, leaves, spells => by
    simp only [SpellsInTurn] at spells
    rcases spells with ⟨_, _, spellsFront, spellsBack, rfl⟩
    exact (solid_of_spells leaves.1 spellsFront).append (solid_of_spellsInTurn leaves.2 spellsBack)

theorem solid_of_spellsAny : {options : List Pattern} → {symbols : List Symbol} →
    LeavesOfAll Token.Solid options → SpellsAny options symbols → Symbol.Solid symbols
  | [], _, _, spells => by simp only [SpellsAny] at spells
  | _ :: _, _, leaves, spells => by
    simp only [SpellsAny] at spells
    rcases spells with here | later
    · exact solid_of_spells leaves.1 here
    · exact solid_of_spellsAny leaves.2 later

end

theorem extent_flatten {rounds : List (List Symbol)} {unit : Nat}
    (each : ∀ round ∈ rounds, Symbol.extent round = unit) :
    Symbol.extent rounds.flatten = unit * rounds.length := by
  induction rounds with
  | nil => simp
  | cons round rest ih =>
    have later := ih fun other member => each other (mem_cons_of_mem _ member)
    simp only [flatten_cons, Symbol.extent_append, each round mem_cons_self, later, length_cons,
      Nat.mul_succ]
    omega

mutual

theorem extent_of_spells : {pattern : Pattern} → {width : Nat} → {symbols : List Symbol} →
    pattern.Fits width → pattern.Spells symbols → Symbol.extent symbols = width
  | leaf _, _, _, fits, spells => by
    simp only [Fits] at fits
    simp only [Spells] at spells
    exact spells.extent_eq.trans fits.symm
  | seq _, _, _, fits, spells => by
    simp only [Fits] at fits
    simp only [Spells] at spells
    exact extent_of_spellsInTurn fits spells
  | alt _, _, _, fits, spells => by
    simp only [Fits] at fits
    simp only [Spells] at spells
    exact extent_of_spellsAny fits.2 spells
  | rep body (.exact number), _, _, fits, spells => by
    simp only [Fits] at fits
    simp only [Spells] at spells
    rcases fits with ⟨_, bodyFits, _, _, rfl⟩
    rcases spells with ⟨_, admitted, each, rfl⟩
    rw [extent_flatten fun round member => extent_of_spells bodyFits (each round member), admitted]
  | rep _ (.atLeast _), _, _, fits, _ => by simp only [Fits] at fits

theorem extent_of_spellsInTurn : {parts : List Pattern} → {width : Nat} → {symbols : List Symbol} →
    FitTogether parts width → SpellsInTurn parts symbols → Symbol.extent symbols = width
  | [], _, _, fits, spells => by
    simp only [FitTogether] at fits
    simp only [SpellsInTurn] at spells
    simp [spells, fits]
  | _ :: _, _, _, fits, spells => by
    simp only [FitTogether] at fits
    simp only [SpellsInTurn] at spells
    rcases fits with ⟨_, _, partFits, restFit, rfl⟩
    rcases spells with ⟨_, _, spellsFront, spellsBack, rfl⟩
    rw [Symbol.extent_append, extent_of_spells partFits spellsFront,
      extent_of_spellsInTurn restFit spellsBack]

theorem extent_of_spellsAny : {options : List Pattern} → {width : Nat} → {symbols : List Symbol} →
    FitEach options width → SpellsAny options symbols → Symbol.extent symbols = width
  | [], _, _, _, spells => by simp only [SpellsAny] at spells
  | _ :: _, _, _, fits, spells => by
    simp only [FitEach] at fits
    simp only [SpellsAny] at spells
    rcases spells with here | later
    · exact extent_of_spells fits.1 here
    · exact extent_of_spellsAny fits.2 later

end

theorem exists_repeats {one : List Symbol → Prop} :
    (∃ symbols, count.Repeats one symbols) ↔ count.mayStop ∨ ∃ symbols, one symbols := by
  constructor
  · rintro ⟨_, rounds, admitted, each, rfl⟩
    rcases rounds with _ | ⟨round, _⟩
    · left
      exact Count.admits_zero.mp admitted
    · exact .inr ⟨round, each round List.mem_cons_self⟩
  · rintro (stops | ⟨symbols, holds⟩)
    · exact ⟨[], [], Count.admits_zero.mpr stops, by simp, rfl⟩
    · refine ⟨_, List.replicate count.least symbols, ?_, ?_, rfl⟩
      · cases count <;> simp [Count.Admits, Count.least]
      · intro _ member
        rw [List.eq_of_mem_replicate member]
        exact holds

mutual

theorem hasValue_iff : {pattern : Pattern} → pattern.Leaves Token.Solid →
    (pattern.hasValue ↔ ∃ symbols, pattern.Spells symbols)
  | leaf _, leaves => by
    simp only [Leaves] at leaves
    simpa only [hasValue, Spells, true_iff] using leaves.shows
  | seq _, leaves => by
    simp only [Leaves] at leaves
    simpa only [hasValue, Spells] using allHaveValue_iff leaves
  | alt _, leaves => by
    simp only [Leaves] at leaves
    simpa only [hasValue, Spells] using anyHasValue_iff leaves
  | rep _ _, leaves => by
    simp only [Leaves] at leaves
    simp only [hasValue, Spells, Bool.or_eq_true, hasValue_iff leaves, exists_repeats]

theorem allHaveValue_iff : {parts : List Pattern} → LeavesOfAll Token.Solid parts →
    (allHaveValue parts ↔ ∃ symbols, SpellsInTurn parts symbols)
  | [], _ => by simp [allHaveValue, SpellsInTurn]
  | _ :: _, leaves => by
    simp only [allHaveValue, Bool.and_eq_true, hasValue_iff leaves.1, allHaveValue_iff leaves.2,
      SpellsInTurn]
    constructor
    · rintro ⟨⟨front, spellsFront⟩, back, spellsBack⟩
      exact ⟨_, front, back, spellsFront, spellsBack, rfl⟩
    · rintro ⟨_, front, back, spellsFront, spellsBack, rfl⟩
      exact ⟨⟨front, spellsFront⟩, back, spellsBack⟩

theorem anyHasValue_iff : {options : List Pattern} → LeavesOfAll Token.Solid options →
    (anyHasValue options ↔ ∃ symbols, SpellsAny options symbols)
  | [], _ => by simp [anyHasValue, SpellsAny]
  | _ :: _, leaves => by
    simp only [anyHasValue, Bool.or_eq_true, hasValue_iff leaves.1, anyHasValue_iff leaves.2,
      SpellsAny, exists_or]

end

theorem spells_iff_of_fits_zero (fits : pattern.Fits 0) (leaves : pattern.Leaves Token.Solid) :
    pattern.Spells symbols ↔ pattern.hasValue ∧ symbols = [] := by
  have empty {value : List Symbol} (spells : pattern.Spells value) : value = [] :=
    (solid_of_spells leaves spells).eq_nil (extent_of_spells fits spells)
  rw [hasValue_iff leaves]
  constructor
  · intro spells
    exact ⟨⟨symbols, spells⟩, empty spells⟩
  · rintro ⟨⟨_, spells⟩, rfl⟩
    exact empty spells ▸ spells

theorem spellsInTurn_append {front back : List Pattern} :
    SpellsInTurn (front ++ back) symbols ↔
      ∃ first second, SpellsInTurn front first ∧ SpellsInTurn back second ∧
        symbols = first ++ second := by
  induction front generalizing symbols with
  | nil => simp [SpellsInTurn]
  | cons _ _ ih =>
    simp only [cons_append, SpellsInTurn, ih]
    constructor
    · rintro ⟨first, _, spellsPart, ⟨second, third, spellsRest, spellsBack, rfl⟩, rfl⟩
      exact ⟨first ++ second, third, ⟨first, second, spellsPart, spellsRest, rfl⟩,
        spellsBack, by simp⟩
    · rintro ⟨_, third, ⟨first, second, spellsPart, spellsRest, rfl⟩, spellsBack, rfl⟩
      exact ⟨first, second ++ third, spellsPart,
        ⟨second, third, spellsRest, spellsBack, rfl⟩, by simp⟩

@[simp]
theorem spellsInTurn_singleton : SpellsInTurn [pattern] symbols ↔ pattern.Spells symbols := by
  simp [SpellsInTurn]

theorem spellsInTurn_parts : SpellsInTurn pattern.parts symbols ↔ pattern.Spells symbols := by
  cases pattern with
  | seq => simp only [Pattern.parts, Spells]
  | leaf | alt | rep => exact spellsInTurn_singleton

theorem spells_concat : (concat patterns).Spells symbols ↔ SpellsInTurn patterns symbols := by
  simp only [concat, Spells]
  induction patterns generalizing symbols with
  | nil => simp [SpellsInTurn]
  | cons _ _ ih =>
    simp only [flatMap_cons, spellsInTurn_append, spellsInTurn_parts, ih, SpellsInTurn]

theorem spells_andThen {first second : Pattern} :
    (first.andThen second).Spells symbols ↔
      ∃ front back, first.Spells front ∧ second.Spells back ∧ symbols = front ++ back := by
  simp only [andThen, Spells, spellsInTurn_append, spellsInTurn_parts]

theorem spells_unit : unit.Spells symbols ↔ symbols = [] := by
  simp only [unit, Spells, SpellsInTurn]

theorem not_spells_never : ¬ never.Spells symbols := by
  simp only [never, Spells, SpellsAny, not_false_eq_true]

theorem spells_replicate (fits : body.Fits width) (inside : width ≤ Extent.cap)
    (leaves : body.Leaves Token.Solid) :
    (body.replicate count).Spells symbols ↔ count.Repeats body.Spells symbols := by
  have size := size_of_fits fits inside
  unfold replicate
  split
  · rename_i none
    rw [spells_unit, none]
    constructor
    · rintro rfl
      exact ⟨[], rfl, by simp, rfl⟩
    · rintro ⟨_, admitted, _, rfl⟩
      simp [length_eq_zero_iff.mp admitted]
  split
  · rename_i noBytes
    rw [size, Option.some.injEq] at noBytes
    subst noBytes
    -- All rounds are empty, so it only matters whether there can be enough of them.
    have empty : count.Repeats body.Spells symbols → symbols = [] := by
      rintro ⟨_, _, each, rfl⟩
      refine flatten_eq_nil_iff.mpr fun round member => ?_
      exact ((spells_iff_of_fits_zero fits leaves).mp (each round member)).2
    have some : (∃ value, count.Repeats body.Spells value) ↔ (body.hasValue || count.mayStop) := by
      rw [exists_repeats, ← hasValue_iff leaves, Bool.or_eq_true, or_comm]
    split
    · rename_i possible
      rcases some.mpr possible with ⟨_, repeats⟩
      rw [spells_unit]
      constructor
      · rintro rfl
        rcases repeats with ⟨rounds, admitted, each, _⟩
        refine ⟨rounds, admitted, each, flatten_eq_nil_iff.mpr fun round member => ?_⟩
        exact ((spells_iff_of_fits_zero fits leaves).mp (each round member)).2
      · exact empty
    · rename_i impossible
      refine iff_of_false not_spells_never fun repeats => impossible ?_
      exact some.mp ⟨symbols, repeats⟩
  split
  · rename_i single
    rw [single]
    constructor
    · intro spells
      exact ⟨[symbols], rfl, by simpa using spells, by simp⟩
    · rintro ⟨_, admitted, each, rfl⟩
      rcases length_eq_one_iff.mp admitted with ⟨round, rfl⟩
      simpa using each round (by simp)
  · simp only [Spells]

theorem spells_padding :
    (padding width).Spells symbols ↔ symbols = List.replicate width .uninit := by
  have fits : (byte .uninit).Fits 1 := by simp [byte, Fits, Token.width]
  have leaves : (byte .uninit).Leaves Token.Solid := by simp [byte, Leaves, Token.Solid]
  have one (round : List Symbol) : (byte .uninit).Spells round ↔ round = [.uninit] := by
    simp only [byte, Spells]
    constructor
    · rintro ⟨_, ⟨⟩, rfl⟩
      rfl
    · rintro rfl
      exact ⟨_, .uninit, rfl⟩
  rw [padding, spells_replicate fits (by decide) leaves, Count.Repeats.congr one]
  constructor
  · rintro ⟨_, admitted, each, rfl⟩
    rw [List.eq_replicate_of_mem each, admitted]
    simp
  · rintro rfl
    exact ⟨List.replicate width [.uninit], by simp [Count.Admits],
      fun _ member => List.eq_of_mem_replicate member, by simp⟩

theorem spells_byte {values : ByteSet} :
    (byte (.init values)).Spells symbols ↔ ∃ value ∈ values, symbols = [.byte value] := by
  simp only [byte, Spells]
  constructor
  · rintro ⟨_, ⟨⟩, rfl⟩
    rename_i value member
    exact ⟨value, member, rfl⟩
  · rintro ⟨_, member, rfl⟩
    exact ⟨_, .byte member, rfl⟩

theorem spells_bytes {values : ByteSet} (some : ∃ value, value ∈ values) :
    ((byte (.init values)).replicate (.exact width)).Spells symbols ↔
      ∃ bytes : List UInt8, bytes.length = width ∧ (∀ value ∈ bytes, value ∈ values) ∧
        symbols = bytes.map .byte := by
  have fits : (byte (.init values)).Fits 1 := by simp [byte, Fits, Token.width]
  have leaves : (byte (.init values)).Leaves Token.Solid := by simpa [byte, Leaves, Token.Solid]
  rw [spells_replicate fits (by decide) leaves, Count.Repeats.congr fun _ => spells_byte]
  constructor
  · rintro ⟨rounds, rfl, each, rfl⟩
    induction rounds with
    | nil => exact ⟨[], rfl, by simp, rfl⟩
    | cons round _ ih =>
      rcases each round mem_cons_self with ⟨value, member, rfl⟩
      rcases ih fun other isOther => each other (mem_cons_of_mem _ isOther) with
        ⟨bytes, length, members, isFlat⟩
      exact ⟨value :: bytes, by simp [length], by simpa using ⟨member, members⟩, by simp [isFlat]⟩
  · rintro ⟨bytes, rfl, members, rfl⟩
    refine ⟨bytes.map fun value => [.byte value], by simp [Count.Admits], ?_, ?_⟩
    · intro _ member
      rcases mem_map.mp member with ⟨value, isValue, rfl⟩
      exact ⟨value, members value isValue, rfl⟩
    · induction bytes with
      | nil => rfl
      | cons _ _ ih =>
        have tail := ih fun other member => members other (mem_cons_of_mem _ member)
        simp [tail]

theorem spells_data :
    (data width).Spells symbols ↔
      ∃ bytes : List UInt8, bytes.length = width ∧ symbols = bytes.map .byte := by
  rw [data, Cell.any, spells_bytes ⟨0, ByteSet.mem_full⟩]
  simp [ByteSet.mem_full]

end Pattern

end Recast
