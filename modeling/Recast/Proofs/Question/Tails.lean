import Recast.Proofs.Question.Drafted

/-!
# Tails of plain elements

The values of a tail are rows of values of its element. Where a tail is read into, its rounds can go
on for ever, so nothing may be left out, unless the element is padding
(`Arena.Lays.serves_tail_iff`). Hence one tail is accepted as another if and only if its element is
accepted as the other's, and at least as many of them must come (`Setting.recast_tail_iff`).
-/

namespace Recast

open Position List Pattern Assumptions

variable {arena : Arena} {id body : LayoutId} {position next : Position} {plot : Plot}
  {layouts least size : Nat} {pattern : Pattern} {value : List Letter} {byte : UInt8}

section Rounds

/-- More than padding can be met in the layout. -/
def Arena.Substantial (arena : Arena) (id : LayoutId) : Prop :=
  ∃ token, arena.Sees token (arena.start id) ∧ token ≠ .cell .uninit

/-- The position is in a round of a tail, and others may follow. -/
def InRound (arena : Arena) (id : LayoutId) (position : Position) : Prop :=
  ∃ inner body toCome, position.loops = inner ++ [⟨body, arena.stop id, .atLeast toCome⟩] ∧
    arena.Substantial body

variable {proper : Token → Prop} (charts : arena.Charts plot proper)

theorem Position.Trace.meets {token : Token} {tokens : List Token}
    (trace : Trace arena position tokens) (member : token ∈ tokens) :
    Meets arena position token := by
  induction trace with
  | ends => cases member
  | reads reads _ ih =>
    rcases mem_cons.mp member with rfl | later
    · exact meets_iff_reads.mpr ⟨_, _, reads, .inl rfl⟩
    · exact meets_iff_reads.mpr ⟨_, _, reads, .inr (ih later)⟩

include charts

theorem Arena.Value.substantial (inside : body.index < arena.layouts.size)
    (isValue : arena.Value body value) (member : .byte byte ∈ value) : arena.Substantial body := by
  rcases (value_iff_speaks charts inside).mp isValue with ⟨_, trace, held⟩
  rcases Token.exists_holds held member with ⟨token, isToken, holds⟩
  refine ⟨token, meets_iff_seesFrom.mp (trace.meets isToken), ?_⟩
  rintro rfl
  cases holds

theorem InRound.meets (within : position.Within arena plot id) (inRound : InRound arena id position)
    (finishes : Finishes arena position) :
    ∃ token, Meets arena position token ∧ token ≠ .cell .uninit := by
  rcases inRound with ⟨inner, body, toCome, isLoops, token, sees, notPadding⟩
  refine ⟨token, ?_, notPadding⟩
  rw [finishes_iff_passes charts within, isLoops] at finishes
  rw [meets_iff_seesFrom, isLoops]
  clear isLoops
  generalize position.state = state at finishes
  -- The inner loops are left one by one, and then another round begins.
  induction inner generalizing state with
  | nil => exact .inr ⟨finishes.1, .inl ⟨rfl, sees⟩⟩
  | cons loop _ ih => exact .inr ⟨finishes.1, .inr ⟨finishes.2.1, ih loop.exit finishes.2.2⟩⟩

omit charts

variable (noEdges : arena.edges (arena.stop id) = [])
  (only : ∀ edge ∈ arena.edges (arena.start id), ∃ body,
  edge = ⟨.rep body (.atLeast least), arena.stop id⟩ ∧
    arena.Substantial body)

include noEdges only

theorem InRound.move (move : Move arena position next)
    (onTail : position = .root arena id ∨ InRound arena id position ∨
      position = ⟨arena.stop id, []⟩) :
    next = .root arena id ∨ InRound arena id next ∨ next = ⟨arena.stop id, []⟩ := by
  rcases onTail with isRoot | ⟨inner, body, toCome, isLoops, bytes⟩ | isOver
  · cases move with
    | again | leave => simp [Position.root] at isRoot
    | first edge =>
      cases isRoot
      rcases only _ edge with ⟨_, ⟨⟩, bytes⟩
      exact .inr (.inl ⟨[], _, _, rfl, bytes⟩)
    | skip edge =>
      cases isRoot
      rcases only _ edge with ⟨_, ⟨⟩, _⟩
      exact .inr (.inr rfl)
  · cases move with
    | again =>
      rcases inner with _ | ⟨_, inner⟩ <;> cases isLoops
      · exact .inr (.inl ⟨[], body, _, rfl, bytes⟩)
      · exact .inr (.inl ⟨_ :: inner, body, toCome, rfl, bytes⟩)
    | leave =>
      rcases inner with _ | ⟨_, inner⟩ <;> cases isLoops
      · exact .inr (.inr rfl)
      · exact .inr (.inl ⟨inner, body, toCome, rfl, bytes⟩)
    | first => exact .inr (.inl ⟨_ :: inner, body, toCome, congrArg _ isLoops, bytes⟩)
    | skip => exact .inr (.inl ⟨inner, body, toCome, isLoops, bytes⟩)
  · cases move with
    | again | leave => simp at isOver
    | first edge | skip edge =>
      cases isOver
      simp [noEdges] at edge

theorem InRound.reads {token : Token} (reads : Reads arena position token next)
    (onTail : position = .root arena id ∨ InRound arena id position) : InRound arena id next := by
  rcases reads with ⟨middle, moves, own⟩
  have arrives : middle = .root arena id ∨ InRound arena id middle ∨
      middle = ⟨arena.stop id, []⟩ := by
    clear own
    induction moves with
    | refl => exact onTail.imp_right .inl
    | tail _ move ih => exact InRound.move noEdges only move ih
  cases own with
  | intro edge =>
    rcases arrives with isRoot | inRound | isOver
    · cases isRoot
      rcases only _ edge with ⟨_, ⟨⟩, _⟩
    · exact inRound
    · cases isOver
      simp [noEdges] at edge

end Rounds

section Rows

variable {values others : List Letter → Prop} {front back image images : List Letter}
  {otherLeast : Nat}

theorem readableAs_append (same : front.length = image.length) :
    ReadableAs (front.length + back.length) (front ++ back) (image ++ images) ↔
      ReadableAs front.length front image ∧ ReadableAs back.length back images := by
  induction front generalizing image with
  | nil =>
    cases length_eq_zero_iff.mp same.symm
    simp [readableAs_zero]
  | cons letter front ih =>
    cases image with
    | nil => cases same
    | cons other image =>
      rw [length_cons, length_cons, Nat.add_right_cancel_iff] at same
      rw [length_cons, Nat.add_right_comm, cons_append, cons_append, readableAs_cons,
        readableAs_cons, ih same, and_assoc]

theorem length_rows {rounds : List (List Letter)} (each : ∀ round ∈ rounds, round.length = size) :
    rounds.flatten.length = rounds.length * size := by
  rw [length_flatten, map_congr_left each, map_const', sum_replicate_nat]

/-- Rows of values can be read as rows of others if the values can, and if at least as many must
come. -/
theorem rows_readable_iff (positive : size ≠ 0)
    (isSize : ∀ value, values value → value.length = size)
    (isSizeToo : ∀ value, others value → value.length = size) (inhabited : ∃ value, values value) :
    (∀ row, (Count.atLeast least).Repeats values row →
      ∃ other, (Count.atLeast otherLeast).Repeats others other ∧
        other.length = row.length ∧ ReadableAs row.length row other) ↔
      otherLeast ≤ least ∧ ∀ value, values value → ∃ other, others other ∧
      ReadableAs size value other := by
  constructor
  · intro readable
    have rows {value : List Letter} (isValue : values value) (number : Nat)
        (enough : least ≤ number) : ∃ rounds : List (List Letter), rounds.length = number ∧
        otherLeast ≤ number ∧ (∀ round ∈ rounds, others round) ∧
          ReadableAs (replicate number value).flatten.length (replicate number value).flatten
            rounds.flatten := by
      have each : ∀ round ∈ replicate number value, values round :=
        fun round member => eq_of_mem_replicate member ▸ isValue
      rcases readable _
        ⟨replicate number value, by simpa [Count.Admits] using enough, each, rfl⟩ with
        ⟨_, ⟨rounds, admitted, eachToo, rfl⟩, sameLength, isReadable⟩
      rw [length_rows fun round member => isSizeToo round (eachToo round member),
        length_rows fun round member => isSize round (each round member), length_replicate,
        Nat.mul_left_inj positive] at sameLength
      exact ⟨rounds, sameLength, sameLength ▸ admitted, eachToo, isReadable⟩
    constructor
    · rcases inhabited with ⟨_, isValue⟩
      rcases rows isValue least le_rfl with ⟨_, _, enough, _⟩
      exact enough
    · intro value isValue
      rcases rows isValue (least + 1) (Nat.le_succ _) with
        ⟨_ | ⟨round, rounds⟩, isNumber, _, each, isReadable⟩
      · cases isNumber
      · rw [replicate_succ, flatten_cons, flatten_cons, length_append,
          readableAs_append ((isSize value isValue).trans
            (isSizeToo round (each round (.head _))).symm)] at isReadable
        exact ⟨round, each round (.head _), isSize value isValue ▸ isReadable.1⟩
  · rintro ⟨fewer, readable⟩ _ ⟨rounds, admitted, each, rfl⟩
    have enough : otherLeast ≤ rounds.length := le_trans fewer admitted
    suffices found : ∃ images : List (List Letter), images.length = rounds.length ∧
        (∀ image ∈ images, others image) ∧ images.flatten.length = rounds.flatten.length ∧
          ReadableAs rounds.flatten.length rounds.flatten images.flatten by
      rcases found with ⟨images, sameNumber, eachToo, sameLength, isReadable⟩
      exact ⟨_, ⟨images, sameNumber ▸ enough, eachToo, rfl⟩, sameLength, isReadable⟩
    clear admitted enough
    induction rounds with
    | nil => exact ⟨[], rfl, forall_mem_nil _, rfl, readableAs_zero⟩
    | cons round rounds ih =>
      rw [forall_mem_cons] at each
      rcases ih each.2 with ⟨images, sameNumber, eachToo, sameLength, isReadable⟩
      rcases readable round each.1 with ⟨image, isOther, first⟩
      have same := (isSize round each.1).trans (isSizeToo image isOther).symm
      rw [← isSize round each.1] at first
      refine ⟨image :: images, congrArg Nat.succ sameNumber, forall_mem_cons.mpr ⟨isOther, eachToo⟩,
        ?_, ?_⟩
      · rw [flatten_cons, flatten_cons, length_append, length_append, same, sameLength]
      · rw [flatten_cons, flatten_cons, length_append, readableAs_append same]
        exact ⟨first, isReadable⟩

end Rows

namespace Arena.Lays

variable {rules : Rules} {letters : List Letter}
  (charts : arena.Charts plot (Token.Admitted True layouts))
  (lays : arena.Lays id (.rep pattern (.atLeast least)))
include charts lays

theorem edge_tail {edge : Edge} (member : edge ∈ arena.edges (arena.start id)) :
    ∃ body, edge = ⟨.rep body (.atLeast least), arena.stop id⟩ ∧ arena.Lays body pattern := by
  rcases lays.unfolds.opens.forth edge member with ⟨_, _, begins, labels, onward⟩
  rcases begins_rep.mp begins with ⟨rfl, rfl⟩
  rcases edge with ⟨label, target⟩
  cases onward.done.mpr .nil
  cases labels with
  | rep isBody isSize =>
    exact ⟨_, rfl, (charts.repeats (charts.owns_start lays.inside) member).inside, isBody, isSize⟩

/-- A tail of what is more than padding serves letters if a value of it is as long as they are, and
they can be read as this value. -/
theorem serves_tail_iff (firm : pattern.Firm) (strict : .validity ∉ rules.assumed)
    (isCell : ∀ letter ∈ letters, letter.IsCell) (isValue : pattern.Value value)
    (member : .byte byte ∈ value) :
    rules.Serves arena letters (.root arena id) ↔
      ∃ other, arena.Value id other ∧ other.length = letters.length ∧
        ReadableAs letters.length letters other := by
  have cells (token : Token) (admitted : token.Admitted True layouts) := admitted.2 trivial
  have within := within_root charts lays.inside
  have only (edge : Edge) (isEdge : edge ∈ arena.edges (arena.start id)) :
      ∃ body, edge = ⟨.rep body (.atLeast least), arena.stop id⟩ ∧ arena.Substantial body := by
    rcases lays.edge_tail charts isEdge with ⟨body, isRep, bodyLays⟩
    exact ⟨body, isRep, ((bodyLays.value_iff charts firm).mpr isValue).substantial charts
      bodyLays.inside member⟩
  let stays (position : Position) : Prop :=
    position.Within arena plot id ∧ (position = .root arena id ∨ InRound arena id position)
  have goesOn {position : Position} (here : stays position)
      (finishes : Finishes arena position) : ∃ token, Meets arena position token ∧
      token ≠ .cell .uninit := by
    rcases here with ⟨positionWithin, rfl | inRound⟩
    · rcases lays.unfolds.opens.back _ _ (begins_rep.mpr ⟨rfl, rfl⟩) with ⟨edge, isEdge, _⟩
      rcases only edge isEdge with ⟨_, rfl, token, sees, notPadding⟩
      exact ⟨token, .of_sees (.within isEdge rfl sees) [], notPadding⟩
    · exact inRound.meets charts positionWithin finishes
  constructor
  · intro serves
    have notPads {position : Position} (here : stays position) (pads : Pads arena position) : Ends
        arena position := by
      rcases goesOn here pads.finishes with ⟨token, meets, notPadding⟩
      exact absurd (pads.padding token meets) notPadding
    rcases serves.readable (fun _ => stays) strict
      (fun ⟨positionWithin, onTail⟩ reads =>
      ⟨reads.within charts positionWithin, .inr
        (.reads (charts.edges_stop lays.inside) only reads onTail)⟩) notPads isCell
        ⟨within, .inl rfl⟩ with
      ⟨other, speaks, readable, whole⟩
    have isWhole : other.length = letters.length := by
      refine whole.resolve_right fun ⟨_, last, here, isOver⟩ => ?_
      rcases goesOn here ⟨[], .ends isOver.1⟩ with ⟨_, meets, _⟩
      rcases meets_iff_reads.mp meets with ⟨token, next, reads, _⟩
      exact isOver.2 token next reads
    exact ⟨other, (value_iff_speaks charts lays.inside).mpr speaks, isWhole, isWhole ▸ readable⟩
  · rintro ⟨other, isOther, sameLength, readable⟩
    exact Rules.serves_of_readable charts cells within strict isCell (Nat.le_of_eq sameLength)
      (fun less => absurd sameLength (Nat.ne_of_lt less))
      ((value_iff_speaks charts lays.inside).mp isOther) (sameLength ▸ readable)

end Arena.Lays

namespace Shape

variable {shape : Shape} {catalog : Catalog} {machine : Machine} {draft : Draft}

theorem DraftsTo.tail (drafts : shape.DraftsTo catalog machine draft)
    (isSize : draft.pattern.size = some size) (positive : size ≠ 0) (noTail : draft.hasTail = false)
    (least : Nat) :
    ∃ align, (Shape.array shape (.atLeast least)).DraftsTo catalog machine
      ⟨.rep draft.pattern (.atLeast least), align, true⟩ := by
  refine ⟨draft.align, ?_⟩
  have replicated : draft.pattern.replicate (.atLeast least) =
      .rep draft.pattern (.atLeast least) := by
    simp [Pattern.replicate, isSize, positive]
  have isFixed : draft.fixedSize = some size := by simp [Draft.fixedSize, noTail, isSize]
  rw [DraftsTo] at drafts ⊢
  change shape.planIn catalog machine {} 0 >>= _ = _
  rw [drafts]
  simp only [Assembly.ofExcept, pure_bind, isFixed, Plan.arrayCount, replicated, Count.isExact,
    Bool.not_false]

end Shape

namespace Setting

variable {setting : Setting} {inquiry : Inquiry}

section Tails

variable {element other : Shape} (words : setting.FitsWords) (elementWords : element.FitsWords)
  (otherWords : other.FitsWords) (elementPlain : element.Plain setting.catalog)
  (otherPlain : other.Plain setting.catalog) (elementSized : ¬ element.HasTail setting.catalog)
  (otherSized : ¬ other.HasTail setting.catalog) (noSourceLength : setting.sourceLength = none)
  (noDestinationLength : setting.destinationLength = none)
  (assembles : setting.Assembles element other inquiry arena)
  (isSize : (arena.layout inquiry.1).size = some size)
  (isSizeToo : (arena.layout inquiry.2).size = some size) (positive : size ≠ 0)
  {least otherLeast : Nat} {tails : Inquiry} {larger : Arena} (tailsAssemble :
    setting.Assembles (.array element (.atLeast least)) (.array other (.atLeast otherLeast)) tails
    larger)

include words elementWords otherWords elementPlain otherPlain elementSized otherSized noSourceLength
  noDestinationLength assembles isSize isSizeToo positive tailsAssemble

/-- Of plain elements of one size, where no way through the first comes to a dead end and the second
is more than padding, a tail of the first is accepted as one of the second, if the budget allows,
exactly when at least as many elements must come and the first is accepted as the second. -/
theorem recast_tail_iff (live : arena.Live inquiry.1)
    (initialized : ∃ value byte, arena.Value inquiry.2 value ∧ .byte byte ∈ value) :
    Budget.ForLarge fun budget =>
      (({ setting with budget }.recast (.array element (.atLeast least))
        (.array other (.atLeast otherLeast)) ∅).isOk ↔
        otherLeast ≤ least ∧ ({ setting with budget }.recast element other ∅).isOk) := by
  have plain : setting.Plain element other :=
    ⟨words, elementWords, otherWords, elementPlain, otherPlain⟩
  rcases plain.exists_drafts noSourceLength noDestinationLength assembles with
    ⟨draft, draftToo, drafted⟩
  have measures := drafted.drafts.measures words.machine words.catalog elementWords
  have measuresToo := drafted.draftsToo.measures words.machine words.catalog otherWords
  rcases drafted.lays assembles with ⟨⟨_, charts⟩, lays, laysToo⟩
  rcases drafted.firm with ⟨firm, firmToo⟩
  rcases drafted.drafts.tail (lays.size ▸ isSize) positive
    (by simpa using measures.tail.not.mpr elementSized) least with ⟨_, tailDrafts⟩
  rcases drafted.draftsToo.tail (laysToo.size ▸ isSizeToo) positive
    (by simpa using measuresToo.tail.not.mpr otherSized) otherLeast with ⟨_, tailDraftsToo⟩
  have tailsDrafted : setting.Drafts (.array element (.atLeast least))
      (.array other (.atLeast otherLeast)) _ _ :=
    ⟨⟨words, .array _ elementWords, .array _ otherWords, .array elementPlain, .array otherPlain⟩,
      noSourceLength, noDestinationLength, tailDrafts, tailDraftsToo⟩
  rcases tailsDrafted.lays tailsAssemble with ⟨⟨_, chartsToo⟩, tailLays, tailLaysToo⟩
  rcases tailsDrafted.firm with ⟨tailFirm, tailFirmToo⟩
  have cells (token : Token) (admitted : token.Admitted True arena.layouts.size) :=
    admitted.2 trivial
  have isLength (value : List Letter) (isValue : draft.pattern.Value value) : value.length = size :=
    ((lays.value_iff charts firm).mpr isValue).length_eq charts cells lays.inside isSize
  have isLengthToo (value : List Letter) (isValue : draftToo.pattern.Value value) : value.length =
      size :=
    ((laysToo.value_iff charts firmToo).mpr isValue).length_eq charts cells laysToo.inside isSizeToo
  have inhabited : ∃ value, draft.pattern.Value value := by
    rcases (alive_root live).exists_speaks charts (fun _ admitted => admitted.1)
      (within_root charts lays.inside) with ⟨value, speaks⟩
    exact ⟨value, (lays.value_iff charts firm).mp
      ((value_iff_speaks charts lays.inside).mpr speaks)⟩
  rcases initialized with ⟨_, _, isValue, member⟩
  rw [laysToo.value_iff charts firmToo] at isValue
  have ofElements := drafted.recast_iff_readable not_mem_empty assembles (lays.live_iff.mp live)
    (laysToo.size ▸ isSizeToo) fun value isValue => (isLength value isValue).ge
  have ofTails := recast_iff_serves tailsDrafted.toPlain not_mem_empty tailsAssemble
    (tailLays.live_iff.mpr ((lays.live_iff.mp live).rep _))
  rw [Budget.forLarge_iff] at ofTails ⊢
  filter_upwards [ofElements, ofTails] with budget elements rows
  rw [rows, elements, ← rows_readable_iff positive isLength isLengthToo inhabited]
  refine forall_congr' fun row => ?_
  rw [tailLays.value_iff chartsToo tailFirm, value_rep]
  refine imp_congr_right fun isRow => ?_
  rw [tailLaysToo.serves_tail_iff chartsToo firmToo not_mem_empty (value_rep.mpr isRow).1 isValue
    member]
  simp only [tailLaysToo.value_iff chartsToo tailFirmToo, value_rep]

end Tails

/-- A row of at least three booleans is accepted as a row of at least two bytes, if a boolean is
accepted as a byte. -/
theorem recast_tail_iff_bits :
    ∃ found, assembled? {} (.scalar .bool) (.scalar (.int 1)) = some found ∧
      found.2.Live found.1.1 ∧ Budget.ForLarge fun budget =>
        ((Setting.recast { budget } (.array (.scalar .bool) (.atLeast 3))
          (.array (.scalar (.int 1)) (.atLeast 2)) ∅).isOk ↔
          2 ≤ 3 ∧ (Setting.recast { budget } (.scalar .bool) (.scalar (.int 1)) ∅).isOk) := by
  have facts : ∀ found ∈ assembled? {} (.scalar .bool) (.scalar (.int 1)), found.2.Tabled ∧
      found.1.1.index < found.2.layouts.size ∧ (found.2.layout found.1.1).size = some 1 ∧
        (found.2.layout found.1.2).size = some 1 ∧
          ⟨.token (.cell (.init .full)), found.2.stop found.1.2⟩ ∈ found.2.edges
            (found.2.start found.1.2) := by
    decide +kernel
  have builds : (assembled? {} (.scalar .bool) (.scalar (.int 1))).isSome := by decide +kernel
  have tailsBuild : (assembled? {} (.array (.scalar .bool) (.atLeast 3))
      (.array (.scalar (.int 1)) (.atLeast 2))).isSome := by decide +kernel
  rcases Option.isSome_iff_exists.mp builds with ⟨found, isFound⟩
  rcases Option.isSome_iff_exists.mp tailsBuild with ⟨_, tailsFound⟩
  rcases facts found isFound with ⟨tabled, inside, isSize, isSizeToo, edge⟩
  have live := tabled.live inside
  have value : found.2.Value found.1.2 [.byte 0] :=
    ⟨_, .token edge (.nil _), .cons (.byte ByteSet.mem_full) .nil⟩
  refine ⟨found, isFound, live, ?_⟩
  exact recast_tail_iff fitsWords_default (.of_fits rfl) (.of_fits rfl) (.scalar _) (.scalar _)
    (by rintro ⟨⟩) (by rintro ⟨⟩) rfl rfl (assembles_of_assembled? isFound) isSize isSizeToo
    one_ne_zero (assembles_of_assembled? tailsFound) live ⟨_, 0, value, .head _⟩

end Setting

end Recast
