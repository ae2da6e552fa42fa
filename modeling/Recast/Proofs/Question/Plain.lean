import Recast.Proofs.Inclusion.Served
import Recast.Proofs.Question

/-!
# Plain data

For shapes without references and without invariants, of fixed sizes, where the second is no larger
and no way through the first comes to a dead end, the first is accepted as the second if and only if
each of its values is one of the second's, but for bytes that the second takes as padding.
-/

namespace Recast

open Position List

variable {arena : Arena} {plot : Plot} {proper : Token → Prop} {position : Position}
  {letters other value : List Letter} {rules : Rules} {inquiry : Inquiry} {letter : Letter}

/-- The first places of a value can be read as another one: each is padding there, or both have the
same byte. -/
def ReadableAs (size : Nat) (value other : List Letter) : Prop :=
  ∀ place < size, other[place]? = some .uninit ∨
    ∃ byte, other[place]? = some (.byte byte) ∧ value[place]? = some (.byte byte)

theorem readableAs_zero : ReadableAs 0 value other :=
  fun _ no => absurd no (Nat.not_lt_zero _)

theorem readableAs_cons {size : Nat} {image : Letter} :
    ReadableAs (size + 1) (letter :: value) (image :: other) ↔
      (image = .uninit ∨ ∃ byte, image = .byte byte ∧ letter = .byte byte) ∧
        ReadableAs size value other := by
  constructor
  · intro readable
    refine ⟨by simpa using readable 0 (by omega), fun place inside => ?_⟩
    simpa using readable (place + 1) (by omega)
  · rintro ⟨first, rest⟩ (_ | place) inside
    · simpa using first
    · simpa using rest place (by omega)

def Letter.IsCell : Letter → Prop
  | .byte _ => True
  | .uninit => True
  | .reference _ => False
  | .marker _ => False

theorem Letter.IsCell.width_eq (isCell : letter.IsCell) : letter.width = 1 := by
  cases letter with
  | byte | uninit => rfl
  | reference | marker => exact isCell.elim

theorem Token.Holds.isCell {token : Token} (holds : token.Holds letter)
    (isCell : ∃ contents, token = .cell contents) : letter.IsCell := by
  rcases isCell with ⟨contents, rfl⟩
  cases holds <;> trivial

theorem Rules.takes_iff {next : Position} (strict : .validity ∉ rules.assumed)
    (isCell : letter.IsCell) :
    rules.Takes arena letter position next ↔
    ∃ contents image, Reads arena position (.cell contents) next ∧
      Token.Holds (.cell contents) image ∧
      (image = .uninit ∨ ∃ byte, image = .byte byte ∧ letter = .byte byte) := by
  constructor
  · intro takes
    cases takes with
    | @byte value contents _ _ accepted reads =>
      cases contents with
      | uninit => exact ⟨_, _, reads, .uninit, .inl rfl⟩
      | init => exact ⟨_, _, reads, .byte accepted, .inr ⟨value, rfl, rfl⟩⟩
    | anyByte valid => exact absurd valid strict
    | uninit reads => exact ⟨_, _, reads, .uninit, .inl rfl⟩
    | reference | forgottenReference | marker => exact isCell.elim
  · rintro ⟨_, _, reads, holds, rfl | ⟨byte, rfl, rfl⟩⟩
    · cases holds
      cases letter with
      | byte => exact .byte ByteSet.mem_full reads
      | uninit => exact .uninit reads
      | reference | marker => exact isCell.elim
    · cases holds with
      | @byte values _ member =>
        have accepted : byte ∈ (Cell.init values).accepted := member
        exact .byte accepted reads

/-- Letters that are served can be read as a value, if padding is left out only where a value may
end. -/
theorem Rules.Serves.readable (stays : List Letter → Position → Prop)
    (strict : .validity ∉ rules.assumed)
    (onward : ∀ {letter letters position contents next}, stays (letter :: letters) position →
      Reads arena position (.cell contents) next → stays letters next)
    (ends : ∀ {position}, stays [] position → Pads arena position → Ends arena position)
    (isCell : ∀ letter ∈ letters, letter.IsCell) (here : stays letters position)
    (serves : rules.Serves arena letters position) :
    ∃ other, Speaks arena position other ∧ ReadableAs other.length letters other ∧
      (other.length = letters.length ∨ ∃ rest last, stays rest last ∧ Over arena last) := by
  induction serves with
  | finished isOver => exact ⟨[], .of_ends isOver.1, readableAs_zero, .inr ⟨_, _, here, isOver⟩⟩
  | stop stops => exact ⟨[], .of_ends (stops.elim id (ends here)), readableAs_zero, .inl rfl⟩
  | take takes _ ih =>
    rw [forall_mem_cons] at isCell
    rcases (takes_iff strict isCell.1).mp takes with ⟨_, image, reads, holds, isImage⟩
    rcases ih isCell.2 (onward here reads) with ⟨other, speaks, readable, whole⟩
    exact ⟨image :: other, speaks.read reads holds, readableAs_cons.mpr ⟨isImage, readable⟩,
      whole.imp_left (congrArg Nat.succ)⟩

section Plain

variable {root : LayoutId} (charts : arena.Charts plot proper)
  (cells : ∀ token, proper token → ∃ contents, token = .cell contents)
  (within : position.Within arena plot root)

include charts cells within

theorem Position.Speaks.isCell (speaks : Speaks arena position letters) :
    ∀ letter ∈ letters, letter.IsCell := by
  rcases speaks with ⟨_, trace, held⟩
  intro _ member
  rcases Token.exists_holds held member with ⟨token, isToken, holds⟩
  exact holds.isCell (cells token (trace.isProper charts within token isToken))

theorem Position.Speaks.length_eq (sized : arena.Sized root)
    (speaks : Speaks arena position letters) :
    letters.length = left arena root position := by
  have ones : letters.map Letter.width = replicate letters.length 1 := by
    refine eq_replicate_iff.mpr ⟨length_map _, ?_⟩
    rintro _ isWidth
    rcases mem_map.mp isWidth with ⟨letter, member, rfl⟩
    exact (speaks.isCell charts cells within letter member).width_eq
  rw [← speaks.width_eq charts sized within, ones, sum_replicate_nat, Nat.mul_one]

theorem Rules.serves_of_readable (strict : .validity ∉ rules.assumed)
    (isCell : ∀ letter ∈ letters, letter.IsCell) (enough : other.length ≤ letters.length)
    (isOver : other.length < letters.length → ∀ last : Position, last.Within arena plot root →
      Ends arena last → Over arena last) (speaks : Speaks arena position other)
    (readable : ReadableAs other.length letters other) :
    rules.Serves arena letters position := by
  rcases speaks with ⟨tokens, trace, held⟩
  induction trace generalizing letters other with
  | ends ends =>
    cases held
    cases letters with
    | nil => exact .stop (.inl ends)
    | cons => exact .finished (isOver (by simp) _ within ends) _
  | reads reads _ ih =>
    rcases cells _ (reads.isProper charts within) with ⟨_, rfl⟩
    cases held with
    | cons holds others =>
      cases letters with
      | nil => simp at enough
      | cons letter =>
        rw [forall_mem_cons] at isCell
        rw [length_cons, readableAs_cons] at readable
        rw [length_cons, length_cons] at enough isOver
        exact .take ((takes_iff strict isCell.1).mpr ⟨_, _, reads, holds, readable.1⟩)
          (ih (reads.within charts within) isCell.2 (by omega) (fun less => isOver (by omega))
          readable.2 others)

end Plain

theorem Rules.Serves.of_isCell {others : Rules} (isCell : ∀ letter ∈ letters, letter.IsCell)
    (serves : rules.Serves arena letters position) (same : rules.assumed = others.assumed) :
    others.Serves arena letters position := by
  induction serves with
  | finished isOver letters => exact .finished isOver letters
  | stop stops => exact .stop stops
  | take takes _ ih =>
    rw [forall_mem_cons] at isCell
    refine .take ?_ (ih isCell.2)
    cases takes with
    | byte accepted reads => exact .byte accepted reads
    | anyByte valid reads => exact .anyByte (same ▸ valid) reads
    | uninit reads => exact .uninit reads
    | reference | forgottenReference | marker => exact isCell.1.elim

section Layouts

variable {size : Nat} {id : LayoutId} (charts : arena.Charts plot proper)
  (cells : ∀ token, proper token → ∃ contents, token = .cell contents)
  (inside : id.index < arena.layouts.size)

include charts cells inside

theorem Arena.Value.isCell (isValue : arena.Value id value) : ∀ letter ∈ value, letter.IsCell :=
  ((value_iff_speaks charts inside).mp isValue).isCell charts cells (within_root charts inside)

theorem Arena.Value.length_eq (isSize : (arena.layout id).size = some size)
    (isValue : arena.Value id value) :
    value.length = size := by
  have isLength :=
    ((value_iff_speaks charts inside).mp isValue).length_eq charts cells (within_root charts inside)
      ⟨_, isSize⟩
  rw [isLength, left_root charts inside, Arena.bytes, isSize, Option.getD_some]

theorem Rules.serves_iff_readable (isSize : (arena.layout id).size = some size)
    (strict : .validity ∉ rules.assumed) (isCell : ∀ letter ∈ letters, letter.IsCell)
    (enough : size ≤ letters.length) :
    rules.Serves arena letters (.root arena id) ↔
      ∃ other, arena.Value id other ∧ ReadableAs size letters other := by
  have within := within_root charts inside
  have sized : arena.Sized id := ⟨_, isSize⟩
  constructor
  · intro serves
    let stays (letters : List Letter) (position : Position) : Prop :=
      position.Within arena plot id ∧ left arena id position ≤ letters.length
    have isLeft : left arena id (.root arena id) = size := by
      rw [left_root charts inside, Arena.bytes, isSize, Option.getD_some]
    have onward {letter : Letter} {letters : List Letter} {position next : Position}
        {contents : Cell} : stays (letter :: letters) position →
        Reads arena position (.cell contents) next → stays letters next := by
      rintro ⟨within, few⟩ reads
      have taken := reads.left_eq charts sized within
      rw [Token.width] at taken
      rw [length_cons] at few
      exact ⟨reads.within charts within, by omega⟩
    rcases serves.readable stays strict onward
      (fun here => Pads.ends charts sized here.1 (Nat.le_zero.mp here.2)) isCell
      ⟨within, isLeft ▸ enough⟩ with ⟨other, speaks, readable, _⟩
    have isValue := (value_iff_speaks charts inside).mpr speaks
    exact ⟨other, isValue, isValue.length_eq charts cells inside isSize ▸ readable⟩
  · rintro ⟨other, isValue, readable⟩
    have isLength := isValue.length_eq charts cells inside isSize
    refine serves_of_readable charts cells within strict isCell (isLength ▸ enough)
      (fun _ last lastWithin ends => ?_) ((value_iff_speaks charts inside).mp isValue)
      (isLength ▸ readable)
    exact ⟨ends, fun _ _ => not_reads_of_ends charts sized lastWithin ends⟩

end Layouts

theorem Terms.upheld_iff_serves {terms : Terms} (charts : arena.Charts plot proper)
    (cells : ∀ token, proper token → ∃ contents, token = .cell contents)
    (sourceInside : inquiry.1.index < arena.layouts.size)
    (destinationInside : inquiry.2.index < arena.layouts.size) (isArena : terms.arena = arena)
    (admits : ∀ token, proper token → token.Proper arena.layouts.size)
    (live : arena.Live inquiry.1) :
    terms.Upheld True (fun _ => False) inquiry ↔
      ∀ value, arena.Value inquiry.1 value →
        (terms.rules fun _ => False).Serves arena value (.root arena inquiry.2) := by
  subst isArena
  have bytes (token : Token) (isProper : proper token) : token.width ≠ 0 := by
    rcases cells token isProper with ⟨_, rfl⟩
    exact one_ne_zero
  constructor
  · intro upheld _ isValue
    have sustained := upheld.cases.resolve_left id
    have serves := sustained.serves charts bytes sourceInside destinationInside isValue
    exact serves.of_isCell (isValue.isCell charts cells sourceInside) rfl
  · intro each
    refine ⟨fun pair => pair = inquiry, rfl, ?_⟩
    rintro _ rfl
    right
    exact Rules.sustains_of_serves charts bytes sourceInside destinationInside admits live
      fun value isValue => (each value isValue).of_isCell (isValue.isCell charts cells sourceInside)
      rfl

namespace Setting

variable {setting : Setting} {source destination : Shape}

/-- The shapes are plain, and all their sizes fit in words. -/
structure Plain (setting : Setting) (source destination : Shape) : Prop where
  words : setting.FitsWords
  sourceWords : source.FitsWords
  destinationWords : destination.FitsWords
  sourcePlain : source.Plain setting.catalog
  destinationPlain : destination.Plain setting.catalog

theorem Plain.charted (plain : setting.Plain source destination)
    (assembles : setting.Assembles source destination inquiry arena) :
    (∃ plot, arena.Charts plot (Token.Admitted True arena.layouts.size)) ∧
      inquiry.1.index < arena.layouts.size ∧ inquiry.2.index < arena.layouts.size :=
  assembles.charted plain.words plain.sourceWords plain.destinationWords fun _ =>
    ⟨plain.sourcePlain, plain.destinationPlain⟩

/-- A question about plain shapes is answered with yes, if the budget allows, exactly when each
value of the first is served by the second. -/
theorem recast_iff_serves {assumed : Assumptions} (plain : setting.Plain source destination)
    (strict : .validity ∉ assumed) (assembles : setting.Assembles source destination inquiry arena)
    (live : arena.Live inquiry.1) :
    Budget.ForLarge fun budget =>
      (({ setting with budget }.recast source destination assumed).isOk ↔
        ∀ value, arena.Value inquiry.1 value →
          ((setting.terms arena assumed).rules fun _ => False).Serves arena value
            (.root arena inquiry.2)) := by
  rcases plain.charted assembles with ⟨⟨plot, charts⟩, sourceInside, destinationInside⟩
  have cells (token : Token) (admitted : token.Admitted True arena.layouts.size) :
      ∃ contents, token = .cell contents := admitted.2 trivial
  have admits (token : Token) (admitted : token.Admitted True arena.layouts.size) :
      token.Proper arena.layouts.size := admitted.1
  let terms := setting.terms arena assumed
  have accepts := Terms.isOk_checkBy_iff (Terms.steps_step Budget.growing (charts.mono admits))
    charts (show _ ∉ terms.assumed from strict) ⟨sourceInside, destinationInside⟩
    Terms.between_start
  rw [Budget.forLarge_iff]
  filter_upwards [accepts] with budget isOk_iff
  have assemblesToo : { setting with budget }.Assembles source destination inquiry arena :=
    assembles
  rw [assemblesToo.isOk_recast, ← terms.upheld_iff_serves charts cells sourceInside
    destinationInside rfl admits live, ← isOk_iff, ← Terms.check_eq_checkBy]
  rfl

/-- A question about plain shapes of fixed sizes is answered with yes, if the budget allows, exactly
when each value of the first can be read as a value of the second. -/
theorem recast_plain_iff (words : setting.FitsWords) (sourceWords : source.FitsWords)
    (destinationWords : destination.FitsWords) (sourcePlain : source.Plain setting.catalog)
    (destinationPlain : destination.Plain setting.catalog)
    (assembles : setting.Assembles source destination inquiry arena)
    {sourceSize destinationSize : Nat}
    (isSourceSize : (arena.layout inquiry.1).size = some sourceSize)
    (isDestinationSize : (arena.layout inquiry.2).size = some destinationSize)
    (fits : destinationSize ≤ sourceSize) (live : arena.Live inquiry.1) :
    Budget.ForLarge fun budget =>
      (({ setting with budget }.recast source destination ∅).isOk ↔
        ∀ value, arena.Value inquiry.1 value →
          ∃ other, arena.Value inquiry.2 other ∧ ReadableAs destinationSize value other) := by
  have plain : setting.Plain source destination :=
    ⟨words, sourceWords, destinationWords, sourcePlain, destinationPlain⟩
  rcases plain.charted assembles with ⟨⟨plot, charts⟩, sourceInside, destinationInside⟩
  have accepts := recast_iff_serves plain Assumptions.not_mem_empty assembles live
  rw [Budget.forLarge_iff] at accepts ⊢
  filter_upwards [accepts] with budget isOk_iff
  refine isOk_iff.trans (forall₂_congr fun value isValue => ?_)
  have cells (token : Token) (admitted : token.Admitted True arena.layouts.size) :=
    admitted.2 trivial
  exact Rules.serves_iff_readable charts cells destinationInside isDestinationSize
    Assumptions.not_mem_empty (isValue.isCell charts cells sourceInside)
    (isValue.length_eq charts cells sourceInside isSourceSize ▸ fits)

def threeBits : Shape := .array (.scalar .bool) (.exact 3)

def byteOrBits : Shape :=
  .union 2 1 [⟨0, .struct 2 1 [⟨0, .scalar (.int 1)⟩]⟩, ⟨0, .array (.scalar .bool) (.exact 2)⟩]

theorem plain_byteOrBits (catalog : Catalog) : byteOrBits.Plain catalog := by
  refine .union ?_
  rw [forall_mem_cons, forall_mem_singleton]
  refine ⟨.struct ?_, .array (.scalar _)⟩
  rw [forall_mem_singleton]
  exact .scalar _

theorem assembled_bits :
    ∃ found, assembled? {} threeBits byteOrBits = some found ∧ found.2.Live found.1.1 ∧
    (found.2.layout found.1.1).size = some 3 ∧ (found.2.layout found.1.2).size = some 2 := by
  have facts : ∀ found ∈ assembled? {} threeBits byteOrBits, found.2.Tabled ∧
      found.1.1.index < found.2.layouts.size ∧ (found.2.layout found.1.1).size = some 3 ∧
        (found.2.layout found.1.2).size = some 2 := by decide +kernel
  have builds : (assembled? {} threeBits byteOrBits).isSome := by decide +kernel
  rcases Option.isSome_iff_exists.mp builds with ⟨found, isFound⟩
  rcases facts found isFound with ⟨tabled, inside, sizes⟩
  exact ⟨found, isFound, tabled.live inside, sizes⟩

/-- Each row of three booleans starts like a value of the union. -/
theorem recast_plain_iff_bits :
    ∃ found, assembled? {} threeBits byteOrBits = some found ∧ found.2.Live found.1.1 ∧
      Budget.ForLarge fun budget =>
        ((Setting.recast { budget } threeBits byteOrBits ∅).isOk ↔
          ∀ value, found.2.Value found.1.1 value →
            ∃ other, found.2.Value found.1.2 other ∧ ReadableAs 2 value other) := by
  rcases assembled_bits with ⟨found, isFound, live, isSourceSize, isDestinationSize⟩
  refine ⟨found, isFound, live, ?_⟩
  exact recast_plain_iff fitsWords_default (.of_fits rfl) (.of_fits rfl)
    (.array (.scalar _)) (plain_byteOrBits _) (assembles_of_assembled? isFound) isSourceSize
    isDestinationSize (by decide) live

end Setting

end Recast
