import Recast.Assembly.Shape
import Recast.Proofs.Pattern.Ranges
import Recast.Proofs.Pattern.Spaced

/-!
# Patterns of parts

What the checks of assembly establish, before any layout is made: the pattern of a scalar has the
scalar's size, fields fill the struct that they are put in, and so on. Sizes that a shape states are
expected to be numbers of a machine word.
-/

namespace Recast

open Extent Placed TagSlot

variable {draft : Draft} {size width number : Nat} {parts : List (Placed VariantPart)}
  {values declared : List Nat}

structure Draft.Sound (plain : Prop) (layouts : Nat) (draft : Draft) : Prop where
  shaped : draft.pattern.Shaped
  leaves : draft.pattern.Leaves (Token.Admitted plain layouts)

variable {plain : Prop} {layouts more : Nat}

theorem Draft.Sound.mono (grown : layouts ≤ more) (sound : draft.Sound plain layouts) :
    draft.Sound plain more :=
  ⟨sound.shaped, sound.leaves.mono fun _ admitted => admitted.mono grown⟩

theorem Draft.fixedSize_eq_some (fixed : draft.fixedSize = some width) :
    draft.hasTail = false ∧ draft.pattern.size = some width := by
  simp only [fixedSize] at fixed
  split at fixed
  · simp at fixed
  · rename_i noTail
    exact ⟨by simpa using noTail, fixed⟩

namespace Scalar

theorem largest_lt (small : size ≤ 16) : largest size < numbers size := by
  have positive := numbers_pos size
  simp only [largest, Nat.min_eq_left small]
  omega

theorem draft_eq_ok {machine : Machine} {scalar : Scalar}
    (isDraft : scalar.draft machine = .ok draft) :
    (scalar.contents = .anything ∧
      draft = { pattern := .padding scalar.size, align := scalar.align }) ∨
    ∃ ranges, scalar.contents = .ranges ranges ∧
      (∀ range ∈ ranges, range.first ≤ range.last ∧ range.last < numbers scalar.size) ∧
      draft = {
        pattern := if scalar.size ≠ 0 then .ofRanges machine.byteOrder scalar.size ranges
          else if ranges.isEmpty then .never else .unit
        align := scalar.align } := by
  simp only [Scalar.draft, bind, Except.bind] at isDraft
  split at isDraft
  · simp at isDraft
  split at isDraft
  · rename_i isAnything
    simp only [pure, Except.pure, Except.ok.injEq] at isDraft
    exact .inl ⟨isAnything, isDraft.symm⟩
  · rename_i ranges isRanges
    split at isDraft
    · cases isDraft
    rename_i narrow
    split at isDraft
    · cases isDraft
    rename_i valid
    simp only [pure, Except.pure, Except.ok.injEq] at isDraft
    refine .inr ⟨ranges, isRanges, ?_, isDraft.symm⟩
    intro range member
    have accepted := List.find?_eq_none.mp valid range member
    simp only [rejects, Bool.or_eq_true, decide_eq_true_eq, not_or, Nat.not_lt] at accepted
    exact ⟨accepted.1, lt_of_le_of_lt accepted.2 (largest_lt (by omega))⟩

theorem fits_draft {machine : Machine} {scalar : Scalar} (inside : scalar.size ≤ cap)
    (isDraft : scalar.draft machine = .ok draft) :
    draft.hasTail = false ∧ ∃ width ≤ cap, draft.pattern.Fits width ∧
      (width ≠ 0 ↔ scalar.size ≠ 0 ∧ scalar.contents ≠ .ranges []) := by
  rcases draft_eq_ok isDraft with ⟨contents, rfl⟩ | ⟨ranges, contents, written, rfl⟩
  · exact ⟨rfl, _, inside, Pattern.fits_padding inside, by simp [contents]⟩
  refine ⟨rfl, ?_⟩
  by_cases empty : scalar.size = 0
  · simp only [empty, ne_eq, not_true_eq_false, if_false]
    refine ⟨0, Nat.zero_le _, ?_, by simp⟩
    split
    · exact Pattern.fits_never
    · exact Pattern.fits_unit
  · simp only [ne_eq, empty, not_false_eq_true, if_true]
    rcases ranges with _ | ⟨_, _⟩
    · exact ⟨0, Nat.zero_le _, Pattern.fits_never, by simp [contents]⟩
    · exact ⟨_, inside, Pattern.fits_ofRanges (by simp) inside written, by simp [contents, empty]⟩

theorem leaves_draft {machine : Machine} {scalar : Scalar} {proper : Token → Prop}
    (uninit : proper (.cell .uninit))
    (cells : ∀ values : ByteSet, (∃ byte, byte ∈ values) → proper (.cell (.init values)))
    (isDraft : scalar.draft machine = .ok draft) : draft.pattern.Leaves proper := by
  rcases draft_eq_ok isDraft with ⟨_, rfl⟩ | ⟨_, _, written, rfl⟩
  · exact Pattern.leaves_padding _ uninit
  · dsimp only
    split
    · exact Pattern.leaves_ofRanges cells written
    · split <;> simp [Pattern.never, Pattern.unit, Pattern.Leaves, Pattern.LeavesOfAll]

end Scalar

section Fields

open Pattern

variable {body extended : StructBody} {isLast : Bool} {field : Placed Draft}

/-- The fields of a struct so far. They fill it up to where the last one ends, unless that one has a
tail; then it was the last. -/
structure StructBody.Sound (size : Nat) (isLast : Bool) (body : StructBody) : Prop where
  filled : body.hasTail = false → FitTogether body.parts body.stop ∧ body.stop ≤ size
  tail : body.hasTail → isLast ∧ (concat body.parts).Shaped

theorem StructBody.sound_empty : StructBody.Sound size isLast {} :=
  ⟨fun _ => ⟨rfl, Nat.zero_le _⟩, by simp⟩

structure StructBody.Extends (size : Nat) (isLast : Bool) (field : Placed Draft)
    (body extended : StructBody) : Prop where
  parts : extended.parts = body.parts ++ [padding (field.offset - body.stop), field.content.pattern]
  stop : extended.stop = field.offset + field.content.pattern.size.getD 0
  inside : extended.stop ≤ cap
  hasTail : extended.hasTail = (field.content.hasTail || field.content.pattern.size.isNone)
  last : extended.hasTail → isLast
  room : extended.hasTail = false → extended.stop ≤ size

theorem StructBody.addField_eq_ok (added : body.addField size isLast field = .ok extended) :
    body.Extends size isLast field extended := by
  simp only [addField, bind, Except.bind, pure, Except.pure] at added
  split at added
  · simp at added
  split at added
  · cases added
  rename_i placed
  split at added
  · cases added
  rename_i stop isStop
  split at added
  · cases added
  rename_i room
  rw [Except.ok.injEq] at added
  subst added
  rw [add?_eq_some_iff] at isStop
  refine ⟨rfl, isStop.1.symm, isStop.2, rfl, fun hasTail => ?_, fun noTail => ?_⟩
  · cases isLast with
    | true => rfl
    | false => exact absurd (by simpa using hasTail) placed
  · rw [show (_ || _) = false from noTail] at room
    simpa using room

theorem StructBody.Sound.fits_front {offset : Nat} (sound : body.Sound size false)
    (behind : body.stop ≤ offset) (inside : offset ≤ cap) :
    FitTogether (body.parts ++ [padding (offset - body.stop)]) offset := by
  have noTail : body.hasTail = false :=
    Bool.eq_false_iff.mpr fun hasTail => Bool.false_ne_true (sound.tail hasTail).1
  rw [fitTogether_append]
  refine ⟨body.stop, offset - body.stop, (sound.filled noTail).1, ?_, by omega⟩
  simpa [FitTogether] using fits_padding (Nat.le_trans (Nat.sub_le _ _) inside)

section

variable (grown : body.Extends size isLast field extended) (filled : body.Sound size false)
  (behind : body.stop ≤ field.offset) (shaped : field.content.pattern.Shaped)
include grown filled behind shaped

theorem StructBody.Extends.fits (isWidth : field.content.pattern.size = some width) :
    FitTogether extended.parts extended.stop := by
  have start := grown.stop ▸ Nat.le_add_right _ _
  have front := filled.fits_front behind (le_trans start grown.inside)
  rw [grown.parts, grown.stop, isWidth, Option.getD_some, List.append_cons, fitTogether_append]
  refine ⟨field.offset, width, front, ?_, rfl⟩
  simpa [FitTogether] using (shaped.fits_of_size isWidth).1

theorem StructBody.Extends.size_concat :
    (concat extended.parts).Shaped ∧
      (concat extended.parts).size = field.content.pattern.size.map (field.offset + ·) := by
  rcases isWidth : field.content.pattern.size with _ | _
  · have start := grown.stop ▸ Nat.le_add_right _ _
    have inside := le_trans start grown.inside
    have isOpen : (concat extended.parts).Open := by
      rw [grown.parts, List.append_cons]
      exact open_concat (filled.fits_front behind inside) inside (shaped.open_of_size isWidth)
    exact ⟨.inr isOpen, size_of_open isOpen⟩
  · have fits := fits_concat.mpr (grown.fits filled behind shaped isWidth)
    refine ⟨.inl ⟨_, fits, grown.inside⟩, ?_⟩
    rw [size_of_fits fits grown.inside, grown.stop, isWidth]
    rfl

theorem StructBody.Extends.sound : extended.Sound size isLast := by
  refine ⟨fun isPlain => ⟨?_, grown.room isPlain⟩,
    fun hasTail => ⟨grown.last hasTail, (grown.size_concat filled behind shaped).1⟩⟩
  rw [grown.hasTail, Bool.or_eq_false_iff, Option.isNone_eq_false_iff] at isPlain
  rcases Option.isSome_iff_exists.mp isPlain.2 with ⟨_, isWidth⟩
  exact grown.fits filled behind shaped isWidth

end

theorem StructBody.Sound.fits_pattern (inside : size ≤ cap)
    (sound : body.Sound size isLast) (noTail : body.hasTail = false) :
    (body.pattern size).Fits size := by
  rcases sound.filled noTail with ⟨filled, room⟩
  simp only [StructBody.pattern, noTail, Bool.false_eq_true, if_false]
  rw [fits_concat, fitTogether_append]
  refine ⟨body.stop, size - body.stop, filled, ?_, by omega⟩
  simpa [FitTogether] using fits_padding (by omega)

theorem StructBody.Sound.shaped_pattern (inside : size ≤ cap) (sound : body.Sound size isLast) :
    (body.pattern size).Shaped := by
  by_cases hasTail : body.hasTail
  · simp only [StructBody.pattern, hasTail, if_true]
    exact (sound.tail hasTail).2
  · exact .inl ⟨size, sound.fits_pattern inside (by simpa using hasTail), inside⟩

/-- The patterns are put at their offsets, with padding in between and up to the size. -/
structure Pattern.Fills (size : Nat) (parts : List (Placed Pattern)) (pattern : Pattern) : Prop
    where
  shaped : ∀ part ∈ parts, part.content.Shaped
  sized : ∀ part ∈ parts, part.content.size ≠ none
  apart : Apart 0 parts
  room : behind 0 parts ≤ size
  pattern_eq : pattern = concat (spaced 0 parts ++ [padding (size - behind 0 parts)])

theorem Pattern.Fills.fits {parts : List (Placed Pattern)} {pattern : Pattern}
    (fills : Fills size parts pattern) (inside : size ≤ cap) : pattern.Fits size := by
  rw [fills.pattern_eq, fits_concat]
  exact fits_filled fills.shaped fills.sized fills.apart fills.room inside

theorem fits_sealed {name : String} (inside : size ≤ cap) :
    (andThen (leaf (.marker name)) (data size)).Fits size := by
  have marker : (leaf (.marker name)).Fits 0 := rfl
  simpa using fits_andThen marker (fits_data inside)

theorem unionMember_eq_ok {member : Pattern} (isMember : unionMember size field = .ok member) :
    ∃ width, field.content.fixedSize = some width ∧ field.offset + width ≤ size ∧
      member = .concat [.padding field.offset, field.content.pattern,
        .padding (size - (field.offset + width))] := by
  simp only [unionMember, bind, Except.bind, pure, Except.pure] at isMember
  split at isMember
  · simp at isMember
  split at isMember
  · cases isMember
  rename_i width fixedSize
  split at isMember
  · cases isMember
  rename_i stop isStop
  split at isMember
  · cases isMember
  rename_i room
  rw [Except.ok.injEq] at isMember
  rw [add?_eq_some_iff] at isStop
  rcases isStop with ⟨rfl, _⟩
  exact ⟨width, fixedSize, not_lt.mp room, isMember.symm⟩

theorem fills_unionMember {member : Pattern} (shaped : field.content.pattern.Shaped)
    (isMember : unionMember size field = .ok member) :
    Fills size [field.map Draft.pattern] member := by
  rcases unionMember_eq_ok isMember with ⟨_, fixed, room, rfl⟩
  have isWidth := (field.content.fixedSize_eq_some fixed).2
  refine ⟨?_, ?_, ?_, ?_, ?_⟩
  · exact List.forall_mem_singleton.mpr shaped
  · simp [map, isWidth]
  · simp [Apart, map]
  · simpa [behind, map, isWidth] using room
  · simp [spaced, behind, map, isWidth]

end Fields

section Variants

open Pattern

variable {stop : Nat} {tag : Int} {patterns : List Pattern} {slot : TagSlot}

theorem packVariant_cons_eq_ok {part : Placed VariantPart} {rest : List (Placed VariantPart)}
    (packed : packVariant size tag stop (part :: rest) = .ok patterns) :
    stop ≤ part.offset ∧ part.offset + part.content.size ≤ size ∧
      ∃ others, packVariant size tag (part.offset + part.content.size) rest = .ok others ∧
        patterns = .padding (part.offset - stop) :: part.content.pattern :: others := by
  simp only [packVariant, bind, Except.bind, pure, Except.pure] at packed
  split at packed
  · cases packed
  rename_i ordered
  split at packed
  · cases packed
  rename_i next isNext
  split at packed
  · cases packed
  rename_i room
  split at packed
  · simp at packed
  rename_i others isOthers
  rw [Except.ok.injEq] at packed
  rw [add?_eq_some_iff] at isNext
  rcases isNext with ⟨rfl, _⟩
  exact ⟨not_lt.mp ordered, not_lt.mp room, others, isOthers, packed.symm⟩

structure VariantPart.Measured (part : VariantPart) : Prop where
  sized : part.pattern.size = some part.size
  shaped : part.pattern.Shaped

theorem fills_packVariant (measured : ∀ part ∈ parts, part.content.Measured)
    (isPacked : packVariant size tag 0 parts = .ok patterns) :
    Fills size (parts.map (map VariantPart.pattern)) (concat patterns) := by
  have packedFrom {stop : Nat} {parts : List (Placed VariantPart)} {packed : List Pattern}
      (measured : ∀ part ∈ parts, part.content.Measured) (room : stop ≤ size)
      (isPacked : packVariant size tag stop parts = .ok packed) :
      Apart stop (parts.map (map VariantPart.pattern)) ∧
        behind stop (parts.map (map VariantPart.pattern)) ≤ size ∧
        packed = spaced stop (parts.map (map VariantPart.pattern)) ++
          [padding (size - behind stop (parts.map (map VariantPart.pattern)))] := by
    induction parts generalizing stop packed with
    | nil =>
      simp only [packVariant, Except.ok.injEq] at isPacked
      exact ⟨trivial, room, isPacked.symm⟩
    | cons _ _ ih =>
      rcases packVariant_cons_eq_ok isPacked with ⟨ordered, fitsInside, _, isOthers, rfl⟩
      rw [List.forall_mem_cons] at measured
      rcases ih measured.2 fitsInside isOthers with ⟨apart, ends, rfl⟩
      simp only [List.map_cons, Apart, behind, spaced, map, measured.1.sized, Option.getD_some]
      exact ⟨⟨ordered, by simp, apart⟩, ends, rfl⟩
  rcases packedFrom measured (Nat.zero_le _) isPacked with ⟨apart, room, rfl⟩
  refine ⟨?_, ?_, apart, room, rfl⟩
  · exact List.forall_mem_map.mpr fun part isPart => (measured part isPart).shaped
  · refine List.forall_mem_map.mpr fun part isPart => ?_
    rw [map, (measured part isPart).sized]
    exact Option.some_ne_none _

theorem leaves_packVariant {proper : Token → Prop} (uninit : proper (.cell .uninit))
    (each : ∀ part ∈ parts, part.content.pattern.Leaves proper)
    (packed : packVariant size tag stop parts = .ok patterns) : LeavesOfAll proper patterns := by
  induction parts generalizing stop patterns with
  | nil =>
    simp only [packVariant, Except.ok.injEq] at packed
    subst packed
    exact ⟨leaves_padding _ uninit, trivial⟩
  | cons _ _ ih =>
    rw [List.forall_mem_cons] at each
    rcases packVariant_cons_eq_ok packed with ⟨_, _, _, isOthers, rfl⟩
    exact ⟨leaves_padding _ uninit, each.1, ih each.2 isOthers⟩

theorem TagSlot.check_eq_ok (checked : slot.check size = .ok ()) :
    slot.size ≠ 0 ∧ slot.size ≤ 16 ∧ slot.offset + slot.size ≤ size := by
  simp only [check, bind, Except.bind] at checked
  split at checked
  · cases checked
  rename_i width
  split at checked
  · cases checked
  rename_i stop isStop
  split at checked
  · cases checked
  rename_i room
  rw [add?_eq_some_iff] at isStop
  omega

theorem TagSlot.largest_add_one (small : slot.size ≤ 16) :
    Scalar.largest slot.size + 1 = numbers slot.size := by
  have positive := numbers_pos slot.size
  simp only [Scalar.largest, Nat.min_eq_left small]
  omega

theorem TagSlot.mem_insertAscending {value other : Nat} :
    other ∈ insertAscending value values ↔ other = value ∨ other ∈ values := by
  induction values with
  | nil => simp [insertAscending]
  | cons head tail ih =>
    simp only [insertAscending]
    split
    · simp
    · simp only [List.mem_cons, ih]
      tauto

theorem TagSlot.mem_gaps {largest next : Nat} {range : Range}
    (small : ∀ value ∈ values, value ≤ largest) (member : range ∈ gaps largest next values) :
    range.first ≤ range.last ∧ range.last ≤ largest := by
  induction values generalizing next with
  | nil =>
    simp only [gaps, List.mem_ite_nil_right, List.mem_singleton] at member
    rcases member with ⟨inside, rfl⟩
    exact ⟨inside, le_rfl⟩
  | cons value rest ih =>
    have here := small value List.mem_cons_self
    have later := fun other isOther => small other (List.mem_cons_of_mem value isOther)
    simp only [gaps] at member
    split at member
    · rcases List.mem_cons.mp member with rfl | inRest
      · simp only
        omega
      · exact ih later inRest
    · exact ih later member

theorem TagSlot.pairwise_insertAscending {value : Nat} (ascending : values.Pairwise (· ≤ ·)) :
    (insertAscending value values).Pairwise (· ≤ ·) := by
  induction values with
  | nil => exact List.pairwise_singleton _ _
  | cons head tail ih =>
    rw [List.pairwise_cons] at ascending
    simp only [insertAscending]
    split
    · rename_i lower
      refine .cons ?_ (.cons ascending.1 ascending.2)
      intro other member
      rcases List.mem_cons.mp member with rfl | inTail
      · exact lower
      · exact le_trans lower (ascending.1 other inTail)
    · rename_i higher
      refine .cons ?_ (ih ascending.2)
      intro other member
      rcases mem_insertAscending.mp member with rfl | inTail
      · omega
      · exact ascending.1 other inTail

theorem TagSlot.exists_gap {next largest : Nat} (ascending : values.Pairwise (· ≤ ·))
    (small : ∀ value ∈ values, value ≤ largest) (start : ∀ value ∈ values, next ≤ value + 1) :
    (∃ range ∈ gaps largest next values, range.first ≤ number ∧ number ≤ range.last) ↔
      next ≤ number ∧ number ≤ largest ∧ number ∉ values := by
  induction values generalizing next with
  | nil =>
    simp only [gaps, List.not_mem_nil, not_false_eq_true, and_true]
    split
    · simp
    · simp only [List.not_mem_nil, false_and, exists_false, false_iff]
      omega
  | cons value rest ih =>
    rw [List.pairwise_cons] at ascending
    rw [List.forall_mem_cons] at small start
    have later := ih ascending.2 small.2 fun other member =>
      Nat.succ_le_succ (ascending.1 other member)
    have below (inRest : number ∈ rest) : value ≤ number := ascending.1 number inRest
    simp only [gaps, List.mem_cons, not_or]
    split
    · rw [List.exists_mem_cons_iff, later]
      constructor
      · rintro (⟨low, high⟩ | ⟨low, high, unlisted⟩)
        · simp only at low high
          refine ⟨low, by omega, by omega, fun inRest => ?_⟩
          have := below inRest
          omega
        · exact ⟨by omega, high, by omega, unlisted⟩
      · rintro ⟨low, high, other, unlisted⟩
        by_cases front : number < value
        · left
          simp only
          omega
        · exact .inr ⟨by omega, high, unlisted⟩
    · rw [later]
      constructor
      · rintro ⟨low, high, unlisted⟩
        exact ⟨by omega, high, by omega, unlisted⟩
      · rintro ⟨low, high, other, unlisted⟩
        exact ⟨by omega, high, unlisted⟩

theorem TagSlot.mem_sorted : number ∈ declared.foldr insertAscending [] ↔ number ∈ declared := by
  induction declared with
  | nil => simp
  | cons _ _ ih => rw [List.foldr_cons, mem_insertAscending, ih, List.mem_cons]

theorem TagSlot.ascending_sorted (declared : List Nat) :
    (declared.foldr insertAscending []).Pairwise (· ≤ ·) := by
  induction declared with
  | nil => exact .nil
  | cons _ _ ih => exact pairwise_insertAscending ih

section

variable (small : slot.size ≤ 16) (lower : ∀ bits ∈ declared, bits < numbers slot.size)
include small lower

theorem TagSlot.le_largest (value : Nat) (member : value ∈ declared.foldr insertAscending []) :
    value ≤ Scalar.largest slot.size := by
  have large := largest_add_one small
  have := lower value (mem_sorted.mp member)
  omega

theorem TagSlot.mem_undeclared {range : Range} (member : range ∈ slot.undeclared declared) :
    range.first ≤ range.last ∧ range.last < numbers slot.size := by
  have large := largest_add_one small
  have bounds := mem_gaps (le_largest small lower) member
  omega

theorem TagSlot.exists_undeclared :
    (∃ range ∈ slot.undeclared declared, range.first ≤ number ∧ number ≤ range.last) ↔
      number < numbers slot.size ∧ number ∉ declared := by
  rw [undeclared, exists_gap (ascending_sorted declared) (le_largest small lower) (by simp),
    mem_sorted, ← largest_add_one small, Nat.lt_succ_iff]
  simp

end

/-- The ranges of a tag are not empty, and their numbers fit into it. -/
structure TagSlot.Writes (slot : TagSlot) (ranges : List Range) : Prop where
  small : slot.size ≤ 16
  some : ranges ≠ []
  written : ∀ range ∈ ranges, range.first ≤ range.last ∧ range.last < numbers slot.size

theorem TagSlot.Writes.measured {ranges : List Range} (writes : slot.Writes ranges)
    (order : ByteOrder) :
    VariantPart.Measured ⟨slot.size, .ofRanges order slot.size ranges⟩ :=
  have inside := le_trans writes.small (by decide)
  have fits := fits_ofRanges writes.some inside writes.written
  ⟨size_of_fits fits inside, .inl ⟨_, fits, inside⟩⟩

theorem TagSlot.writes_undeclared (small : slot.size ≤ 16) (some : slot.undeclared declared ≠ [])
    (lower : ∀ bits ∈ declared, bits < numbers slot.size) :
    slot.Writes (slot.undeclared declared) :=
  ⟨small, some, fun _ => mem_undeclared small lower⟩

end Variants

section Arrays

open Pattern

variable {offset : Nat} {count settled : Count} {totalLength : Option Nat}

/-- The number of elements stays as it is, or the length of the whole has room for the number that
it settles. -/
theorem Plan.arrayCount_eq_ok (isCount : arrayCount offset size count totalLength = .ok settled) :
    (settled = count ∧ ∀ number, count = .exact number → size * number ≤ cap) ∨
      ∃ least number length, count = .atLeast least ∧ settled = .exact number ∧ least ≤ number ∧
        totalLength = some length ∧ size * number ≤ length := by
  simp only [arrayCount] at isCount
  split at isCount
  · split at isCount <;> cases isCount
    rename_i small
    refine .inl ⟨rfl, ?_⟩
    rintro _ ⟨⟩
    rcases Option.isSome_iff_exists.mp small with ⟨total, isTotal⟩
    rw [mul?_eq_some_iff] at isTotal
    omega
  · rename_i least length
    split at isCount
    · cases isCount
      exact .inl ⟨rfl, by simp⟩
    · split at isCount <;> cases isCount
      refine .inr ⟨least, _, length, rfl, rfl, by omega, rfl, ?_⟩
      exact Nat.le_trans (Nat.mul_div_le _ _) (Nat.sub_le _ _)
  · cases isCount
    exact .inl ⟨rfl, by simp⟩

variable (known : ∀ length, totalLength = some length → length ≤ cap)
include known

theorem Plan.arrayCount_small {number : Nat}
    (isCount : arrayCount offset size count totalLength = .ok (.exact number)) :
    size * number ≤ cap := by
  rcases arrayCount_eq_ok isCount with ⟨same, small⟩ | ⟨_, _, length, _, ⟨⟩, _, isLength, small⟩
  · exact small number same.symm
  · exact small.trans (known length isLength)

theorem shaped_array {element : Pattern} (fits : element.Fits size) (inside : size ≤ cap)
    (isCount : Plan.arrayCount offset size count totalLength = .ok settled) :
    (element.replicate settled).Shaped := by
  cases settled with
  | exact =>
    have small := Plan.arrayCount_small known isCount
    exact .inl ⟨_, fits_replicate fits small, small⟩
  | atLeast number => exact shaped_replicate_atLeast number fits inside

end Arrays

end Recast
