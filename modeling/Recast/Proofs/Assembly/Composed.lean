import Recast.Proofs.Assembly.Renders

/-!
# Drafts of placed fields

The fields of a struct and of a union are put into sequences of patterns in the order of their
offsets. The draft that is made of them renders the shape.
-/

namespace Recast

open Pattern List Shape Draft Placed

variable {fields : List (Placed Shape)} {catalog : Catalog} {machine : Machine} {settled : Prop}
  {size align : Nat} {whole : List Symbol} {members : List Pattern}

section Filled

variable {parts : List (Placed Pattern)} {pattern : Pattern}

theorem Pattern.Fills.spells_iff (fills : Fills size parts pattern)
    (leaves : ∀ part ∈ parts, part.content.Leaves Token.Solid) : pattern.Spells whole ↔
      ∃ pieces, Forall₂ SpellsAt parts pieces ∧ Symbol.Composes 0 size pieces whole := by
  rw [fills.pattern_eq, spells_concat]
  exact spells_filled fills.shaped leaves fills.sized fills.apart fills.room

end Filled

section Structs

variable {drafts : List (Placed Draft)} {body : StructBody}

theorem forall₂_and_ends {related : Placed Draft → Placed (List Symbol) → Prop}
    {pieces : List (Placed (List Symbol))} {stop : Nat} (start : Nat)
    (last : drafts.Pairwise fun before _ => before.content.hasTail = false) :
    Forall₂ (fun draft piece => related draft piece ∧
      (draft.content.hasTail → stop = piece.offset + Symbol.extent piece.content)) drafts pieces ↔
    Forall₂ related drafts pieces ∧
      ((∃ draft ∈ drafts, draft.content.hasTail) → stop = Symbol.behind start pieces) := by
  induction drafts generalizing start pieces with
  | nil => simp
  | cons _ rest ih =>
    rw [pairwise_cons] at last
    cases pieces with
    | nil => simp
    | cons piece others =>
      rw [forall₂_cons, forall₂_cons, ih (piece.offset + Symbol.extent piece.content) last.2,
        Symbol.behind]
      cases rest with
      | nil =>
        cases others with
        | nil => simp [Symbol.behind]
        | cons => simp
      | cons next =>
        have noTail := last.1 next mem_cons_self
        simp [noTail, and_assoc]

theorem Shape.denotes_struct :
    (struct size align fields).Denotes catalog machine whole ↔
      ∃ stop, ((∀ field ∈ fields, ¬ field.content.HasTail catalog) → stop = size) ∧
        ∃ pieces, Forall₂ (fun (field : Placed Shape) piece => piece.offset = field.offset ∧
          field.content.Denotes catalog machine piece.content ∧
            (field.content.HasTail catalog → stop = field.offset + Symbol.extent piece.content))
          fields pieces ∧ Symbol.Composes 0 stop pieces whole := by
  have joined {stop : Nat} {values : List (List Symbol)} :
      Forall₂ (fun (field : Placed Shape) value => field.content.Denotes catalog machine value ∧
        (field.content.HasTail catalog → stop = field.offset + Symbol.extent value)) fields values ↔
      Forall₂ (fun (field : Placed Shape) value => field.content.Denotes catalog machine value)
        fields values ∧
      ∀ place ∈ fields.zip values, place.1.content.HasTail catalog →
        stop = place.1.offset + Symbol.extent place.2 := by
    rw [forall₂_iff_zip, forall₂_iff_zip]
    constructor
    · rintro ⟨length, each⟩
      exact ⟨⟨length, fun member => (each member).1⟩, fun _ member => (each member).2⟩
    · rintro ⟨⟨length, each⟩, tails⟩
      exact ⟨length, fun member => ⟨each member, tails _ member⟩⟩
  have refilled (stop : Nat) :=
    exists_refill fields (fun field value => field.content.Denotes catalog machine value ∧
      (field.content.HasTail catalog → stop = field.offset + Symbol.extent value))
    (Symbol.Composes 0 stop · whole)
  constructor
  · intro denotes
    cases denotes with
    | struct each sized tail composes =>
      exact ⟨_, sized, (refilled _).mp ⟨_, joined.mpr ⟨each, tail⟩, composes⟩⟩
  · rintro ⟨stop, sized, composed⟩
    rcases (refilled stop).mpr composed with ⟨_, each, composes⟩
    rw [joined] at each
    exact .struct each.1 sized each.2 composes

theorem Shape.denotes_struct_iff (isSettled : settled)
    (each : Forall₂ (HoldsAt (Renders catalog machine settled)) (sortByOffset fields) drafts)
    (last : drafts.Pairwise fun before _ => before.content.hasTail = false) :
    (struct size align fields).Denotes catalog machine whole ↔
      ∃ stop, ((∀ draft ∈ drafts, draft.content.hasTail = false) → stop = size) ∧
        ∃ pieces, (Forall₂ SpellsAt (drafts.map (map pattern)) pieces ∧
          ((∃ draft ∈ drafts, draft.content.hasTail) → stop = Symbol.behind 0 pieces)) ∧
            Symbol.Composes 0 stop pieces whole := by
  have perm := perm_sortByOffset fields
  have noTail : (∀ field ∈ fields, ¬ field.content.HasTail catalog) ↔
      ∀ draft ∈ drafts, draft.content.hasTail = false := by
    have some := exists_mem_iff_of_forall₂ (fun _ _ renders => renders.2.measures.tail.symm) each
    simp only [perm.mem_iff] at some
    rw [← not_iff_not]
    simpa using some
  rw [denotes_struct, noTail]
  refine exists_congr fun stop => and_congr_right fun _ => ?_
  rw [show (∃ pieces, Forall₂ _ fields pieces ∧ Symbol.Composes 0 stop pieces whole) ↔
    ∃ pieces, Forall₂ _ (sortByOffset fields) pieces ∧ Symbol.Composes 0 stop pieces whole from
    ⟨exists_composes_of_perm perm.symm, exists_composes_of_perm perm⟩]
  refine exists_congr fun _ => and_congr_left fun _ => ?_
  rw [forall₂_map_left_iff, ← forall₂_and_ends 0 last]
  refine forall₂_congr_of_forall₂ (fun _ _ renders _ => ?_) each
  rw [SpellsAt, Placed.map, renders.1, renders.2.spells isSettled, renders.2.measures.tail]
  constructor
  · rintro ⟨offset, denotes, ends⟩
    exact ⟨⟨offset, denotes⟩, offset ▸ ends⟩
  · rintro ⟨⟨offset, denotes⟩, ends⟩
    exact ⟨offset, denotes, offset ▸ ends⟩

theorem Draft.spells_struct (each : Forall₂ (HoldsAt (Renders catalog machine settled))
      (sortByOffset fields) drafts) (grows : StructBody.Grows size drafts {} body)
    (isSettled : settled) :
    (body.pattern size).Spells whole ↔ (struct size align fields).Denotes catalog machine
      whole := by
  have measured : Forall₂ (HoldsAt (Measures catalog machine)) (sortByOffset fields) drafts :=
    each.imp fun _ _ renders => ⟨renders.1, renders.2.measures⟩
  have lays := grows.lays_fields measured
  have partsShaped : ∀ part ∈ drafts.map (Placed.map pattern), part.content.Shaped :=
    forall_mem_map.mpr (forall_of_forall₂ each fun _ _ renders => renders.2.measures.shaped)
  have partsLeaves : ∀ part ∈ drafts.map (Placed.map pattern), part.content.Leaves Token.Solid :=
    forall_mem_map.mpr (forall_of_forall₂ each fun _ _ renders => renders.2.leaves)
  have hasTail : body.hasTail ↔ ∃ draft ∈ drafts, draft.content.hasTail := by
    simpa using lays.tail
  rw [denotes_struct_iff isSettled each lays.last]
  cases isTail : body.hasTail with
  | true =>
    have some := hasTail.mp isTail
    simp only [lays.pattern_eq, isTail, if_true]
    rw [spells_concat, spells_unfilled partsShaped partsLeaves lays.apart]
    constructor
    · rintro ⟨pieces, isValue, composes⟩
      refine ⟨_, fun none => ?_, pieces, ⟨isValue, fun _ => rfl⟩, composes⟩
      rcases some with ⟨draft, member, tail⟩
      simp [none draft member] at tail
    · rintro ⟨_, _, pieces, ⟨isValue, ends⟩, composes⟩
      exact ⟨pieces, isValue, ends some ▸ composes⟩
  | false =>
    have none : ∀ draft ∈ drafts, draft.content.hasTail = false := by
      simpa [isTail] using hasTail
    rw [(lays.fills measured isTail).spells_iff partsLeaves]
    constructor
    · rintro ⟨pieces, isValue, composes⟩
      refine ⟨size, fun _ => rfl, pieces, ⟨isValue, ?_⟩, composes⟩
      rintro ⟨draft, member, tail⟩
      simp [none draft member] at tail
    · rintro ⟨_, ends, pieces, ⟨isValue, _⟩, composes⟩
      exact ⟨pieces, isValue, ends none ▸ composes⟩

end Structs

theorem Shape.denotes_union :
    (union size align fields).Denotes catalog machine whole ↔
      ∃ field ∈ fields, ∃ value, field.content.Denotes catalog machine value ∧
        Symbol.Composes 0 size [⟨field.offset, value⟩] whole := by
  constructor
  · intro denotes
    cases denotes with
    | union member isValue composes => exact ⟨_, member, _, isValue, composes⟩
  · rintro ⟨_, member, _, isValue, composes⟩
    exact .union member isValue composes

theorem Draft.spells_union (each : Forall₂ (fun field member => ∃ draft,
      HoldsAt (Renders catalog machine settled) field draft ∧
        unionMember size draft = .ok member) fields members) (isSettled : settled) :
    (Pattern.alt members).Spells whole ↔ (union size align fields).Denotes catalog machine
      whole := by
  rw [Spells, spellsAny_iff, denotes_union]
  refine (exists_mem_iff_of_forall₂ ?_ each).symm
  rintro field member ⟨draft, renders, isMember⟩
  rw [(fills_unionMember renders.2.measures.shaped isMember).spells_iff
    (forall_mem_singleton.mpr renders.2.leaves)]
  constructor
  · rintro ⟨value, isValue, composes⟩
    have spells : SpellsAt (draft.map pattern) ⟨field.offset, value⟩ :=
      ⟨renders.1.symm, (renders.2.spells isSettled value).mpr isValue⟩
    exact ⟨_, .cons spells .nil, composes⟩
  · rintro ⟨_, _ | ⟨spells, _ | _⟩, composes⟩
    rename_i piece
    refine ⟨_, (renders.2.spells isSettled _).mp spells.2, ?_⟩
    rw [← renders.1, ← (show piece.offset = draft.offset from spells.1)]
    exact composes

end Recast
