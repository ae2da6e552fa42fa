import Recast.Proofs.Arena.Lays
import Recast.Proofs.Assembly.Written
import Recast.Proofs.Question.Plain
import Recast.Proofs.Question.Reliance

/-!
# What a reference reaches

A check follows two references to their referents, so the values of the first referent are read as
values of the second. Where the first value ends before the second does, only padding is left there,
and regions without bytes if they may be entered (`Rules.Covers.stays`). So the second referent may
be the larger one, but no value of the first is ever taken for one that holds anything beyond its
own end.
-/

namespace Recast

open List Letter

variable {letters : List Letter} {tokens : List Token} {arena : Arena} {id : LayoutId} {plot : Plot}
  {inquiry : Inquiry} {exercised : Assumptions}

namespace Rules

variable {rules : Rules}

/-- The token stands for padding, or for the start of a region that may be entered. -/
def Vacant (rules : Rules) (token : Token) : Prop :=
  token = .cell .uninit ∨ .safety ∈ rules.assumed ∧ ∃ name, token = .marker name

theorem Covers.vacant (covers : rules.Covers [] tokens) : ∀ token ∈ tokens, rules.Vacant token := by
  generalize isNone : ([] : List Letter) = letters at covers
  induction covers with
  | finished => simp
  | padding _ ih => exact forall_mem_cons.mpr ⟨.inl rfl, ih isNone⟩
  | entered safe _ ih => exact forall_mem_cons.mpr ⟨.inr ⟨safe, _, rfl⟩, ih isNone⟩
  | _ => cases isNone

/-- The tokens take no more bytes than the letters, or as many of them do and the others are vacant.
-/
def Stays (rules : Rules) (letters : List Letter) (tokens : List Token) : Prop :=
  (tokens.map Token.width).sum ≤ (letters.map width).sum ∨
    ∃ front back, tokens = front ++ back ∧
      (front.map Token.width).sum = (letters.map width).sum ∧
      ∀ token ∈ back, rules.Vacant token

theorem Stays.read (here : List Token) (gone : List Letter)
    (same : (here.map Token.width).sum = (gone.map width).sum)
    (stays : rules.Stays letters tokens) : rules.Stays (gone ++ letters) (here ++ tokens) := by
  simp only [Stays, map_append, sum_append, same]
  rcases stays with within | ⟨front, back, rfl, width, vacant⟩
  · exact .inl (Nat.add_le_add_left within _)
  · refine .inr ⟨here ++ front, back, (append_assoc ..).symm, ?_, vacant⟩
    rw [map_append, sum_append, same, width]

theorem Covers.stays (covers : rules.Covers letters tokens) : rules.Stays letters tokens := by
  induction covers with
  | finished => exact .inl (Nat.zero_le _)
  | padding rest => exact .inr ⟨[], _, rfl, rfl, (Covers.padding rest).vacant⟩
  | @byte value values _ _ _ _ ih => exact ih.read [.cell (.init values)] [.byte value] rfl
  | @forgottenByte value _ _ _ ih => exact ih.read [.cell .uninit] [.byte value] rfl
  | uninit _ ih => exact ih.read [.cell .uninit] [.uninit] rfl
  | @reference source destination _ _ replaces _ ih =>
    refine ih.read [.reference destination] [.reference source] ?_
    simp [Token.width, width, replaces.width]
  | @forgottenReference source _ _ _ ih =>
    refine ih.read (replicate source.width (.cell .uninit)) [.reference source] ?_
    simp [Token.width, width]
  | @marker name _ _ _ ih => exact ih.read [.marker name] [.marker name] rfl
  | @bare name _ _ _ ih => exact ih.read [] [.marker name] rfl
  | @entered name _ _ _ _ ih => exact ih.read [.marker name] [] rfl

theorem Covers.replaces {source destination : Reference}
    (covers : rules.Covers [.reference source] [.reference destination]) :
    rules.Replaces source destination := by
  generalize isTokens : [Token.reference destination] = tokens at covers
  cases covers with
  | finished => cases isTokens
  | reference replaces =>
    cases isTokens
    exact replaces
  | @forgottenReference _ _ _ rest =>
    -- A reference without bytes would be forgotten where the other one still has to be read.
    cases width : source.width with
    | zero =>
      rw [width, replicate_zero, nil_append] at isTokens
      subst isTokens
      rcases rest.vacant _ mem_cons_self with no | ⟨_, _, no⟩ <;> cases no
    | succ =>
      rw [width, replicate_succ, cons_append] at isTokens
      cases isTokens
  | entered => cases isTokens

end Rules

namespace Arena

variable {later : Arena} {target : Reference}

/-- The values of the layout consist of one reference each, which is the same for all. -/
def PointsTo (arena : Arena) (id : LayoutId) (target : Reference) : Prop :=
  arena.edges (arena.start id) = [⟨.token (.reference target), arena.stop id⟩] ∧
    arena.edges (arena.stop id) = []

instance (arena : Arena) (id : LayoutId) (target : Reference) :
    Decidable (arena.PointsTo id target) :=
  inferInstanceAs (Decidable (_ ∧ _))

theorem PointsTo.walk_iff (points : arena.PointsTo id target) :
    arena.Walk id tokens ↔ tokens = [.reference target] := by
  have differ : arena.start id ≠ arena.stop id := by
    intro same
    have isStart := points.1
    rw [same, points.2] at isStart
    cases isStart
  constructor
  · intro walk
    generalize isStart : arena.start id = start at walk differ
    generalize isStop : arena.stop id = stop at walk differ
    rw [Walk, isStart, isStop] at walk
    cases walk with
    | nil => exact absurd rfl differ
    | token edge onward =>
      rw [← isStart, points.1, mem_singleton] at edge
      cases edge
      generalize isHere : arena.stop id = here at onward
      cases onward with
      | nil => rfl
      | token edge | rep edge => rw [← isHere, points.2] at edge; cases edge
    | rep edge =>
      rw [← isStart, points.1, mem_singleton] at edge
      cases edge
  · rintro rfl
    refine .token ?_ (.nil _)
    rw [points.1]
    exact mem_singleton_self _

section Sizes

variable {proper : Token → Prop} {size : Nat} (charts : arena.Charts plot proper)
  (inside : id.index < arena.layouts.size) (isSize : (arena.layout id).size = some size)
include charts inside isSize

theorem Walk.width_eq (walk : arena.Walk id tokens) : (tokens.map Token.width).sum = size := by
  rw [Position.width_walk charts ⟨size, isSize⟩ inside walk, bytes, isSize, Option.getD_some]

theorem Value.width_eq (value : arena.Value id letters) : (letters.map width).sum = size := by
  rcases value with ⟨tokens, walk, holds⟩
  have same : letters.map width = tokens.map Token.width := by
    clear walk
    induction holds with
    | nil => rfl
    | cons held _ ih => rw [map_cons, map_cons, held.width_eq, ih]
  rw [same, walk.width_eq charts inside isSize]

end Sizes

theorem pointsTo_define (inside : id.index < arena.layouts.size)
    (defined : arena.define id (.leaf (.reference target)) = .ok later) :
    later.PointsTo id target := by
  rcases edges_define inside defined with ⟨_, compiled, stop, start, atStop⟩
  simp only [Pattern.compile, Except.ok.injEq] at compiled
  subst compiled
  refine ⟨start.trans (by rw [stop]; rfl), atStop (Fragment.fresh_ne_start ready_newSite)⟩

theorem PointsTo.kept (keeps : arena.Keeps later) (indexed : arena.WellIndexed)
    (inside : id.index < arena.layouts.size) (points : arena.PointsTo id target) :
    later.PointsTo id target := by
  rw [PointsTo, keeps.edges_start indexed inside, keeps.edges_stop indexed inside, Arena.stop,
    keeps.layout inside]
  exact points

end Arena

theorem Shape.pointsTo_assemble {shape : Shape} {guarantee : Guarantee} {catalog : Catalog}
    {machine : Machine} {totalLength : Option Nat} {shop later : Workshop}
    (assembled : (Shape.reference shape guarantee).assemble catalog machine totalLength shop = .ok
      id later) :
    ∃ target, later.arena.PointsTo id target := by
  rcases assemble_eq_ok assembled with ⟨_, _, isDraft, rfl, defined⟩
  rw [planIn, plan_reference_eq] at isDraft
  rcases Plan.reference_eq_ok isDraft with ⟨_, _, isPattern⟩
  rw [isPattern] at defined
  refine ⟨_, Arena.pointsTo_define ?_ defined⟩
  simp [Arena.reserve, Workshop.size]

namespace Setting

variable {setting : Setting} {source destination : Shape} {held wanted : Guarantee}
  {assumed : Assumptions}

theorem Assembles.pointsTo (words : setting.FitsWords) (sourceWords : source.FitsWords)
    (destinationWords : destination.FitsWords)
    (assembles : setting.Assembles (.reference source held) (.reference destination wanted) inquiry
      arena) :
    ∃ first second, arena.PointsTo inquiry.1 first ∧ arena.PointsTo inquiry.2 second := by
  rcases assembles with ⟨middle, firstDone, secondDone⟩
  have firstSound :=
    sound_assemble words (.reference held sourceWords) words.source False.elim Workshop.sound_empty
      firstDone
  have keeps :=
    (sound_assemble words (.reference wanted destinationWords) words.destination False.elim
      firstSound.1 secondDone).2.2.2
  rcases assemble_eq_ok firstDone with ⟨_, isMade, _, rfl⟩
  rcases assemble_eq_ok secondDone with ⟨_, isLater, _, rfl⟩
  rcases Shape.pointsTo_assemble isMade with ⟨first, pointsFirst⟩
  rcases Shape.pointsTo_assemble isLater with ⟨second, pointsSecond⟩
  exact ⟨first, second, pointsFirst.kept keeps firstSound.1.indexed firstSound.2.1, pointsSecond⟩

/-- Each value of the first layout is read by a walk of the second. If the second layout is larger,
the first tokens of this walk take as many bytes as the first layout has, and the others are vacant.
-/
def ReadsWithin (rules : Rules) (arena : Arena) (pair : Inquiry) : Prop :=
  ∀ letters, arena.Value pair.1 letters → ∃ tokens, arena.Walk pair.2 tokens ∧
    rules.Covers letters tokens ∧ ∀ small large, (arena.layout pair.1).size = some small →
      (arena.layout pair.2).size = some large → large ≤ small ∨
        ∃ front back, tokens = front ++ back ∧ (front.map Token.width).sum = small ∧
          (back.map Token.width).sum = large - small ∧ ∀ token ∈ back, rules.Vacant token

/-- If a reference is accepted as another one, their referents are related, and of related layouts,
a value of the first is taken for one of the second that has nothing beyond the end of the first but
padding, and regions without bytes if safety is assumed. -/
theorem recast_reference_stays (words : setting.FitsWords) (sourceWords : source.FitsWords)
    (destinationWords : destination.FitsWords)
    (accepted : setting.recast (.reference source held) (.reference destination wanted)
      assumed = .ok exercised) :
    ∃ inquiry arena first second, ∃ related : Inquiry → Prop,
      setting.Assembles (.reference source held) (.reference destination wanted) inquiry arena ∧
      arena.PointsTo inquiry.1 first ∧ arena.PointsTo inquiry.2 second ∧
      related (first.referent, second.referent) ∧
      ∀ pair, related pair → ReadsWithin ((setting.terms arena assumed).rules related) arena
        pair := by
  rcases assembles_of_recast accepted with ⟨inquiry, arena, assembles⟩
  rcases assembles.pointsTo words sourceWords destinationWords with
    ⟨first, second, pointsFirst, pointsSecond⟩
  rcases assembles.plotted words (.reference held sourceWords)
    (.reference wanted destinationWords) with
    ⟨⟨plot, charts⟩, inside⟩
  have isInside : (setting.terms arena assumed).Inside inquiry := inside
  rcases Terms.covers_of_check charts (forall_mem_nil _) isInside
    (assembles.recast_eq_ok_iff.mp accepted) with
    ⟨related, isRelated, each⟩
  have referents : related (first.referent, second.referent) := by
    rcases (each inquiry isRelated).2 _ ⟨_, pointsFirst.walk_iff.mpr rfl,
      .cons (.reference first) .nil⟩ with
      ⟨tokens, walk, covers⟩
    rw [pointsSecond.walk_iff.mp walk] at covers
    exact covers.replaces.forth
  refine ⟨inquiry, arena, first, second, related, assembles, pointsFirst, pointsSecond, referents,
    ?_⟩
  intro pair isPair letters value
  rcases each pair isPair with ⟨pairInside, reads⟩
  rcases reads letters value with ⟨tokens, walk, covers⟩
  refine ⟨tokens, walk, covers, fun small large smallSize largeSize => ?_⟩
  have lettersWidth := value.width_eq charts pairInside.1 smallSize
  have tokensWidth := walk.width_eq charts pairInside.2 largeSize
  rcases covers.stays with within | ⟨front, back, rfl, frontWidth, vacant⟩
  · rw [tokensWidth, lettersWidth] at within
    exact .inl within
  · rw [lettersWidth] at frontWidth
    rw [map_append, sum_append, frontWidth] at tokensWidth
    exact .inr ⟨front, back, rfl, frontWidth, by omega, vacant⟩

def toByte (access : Access) : Shape := .reference (.scalar (.int 1)) ⟨1, access, .static⟩

def toPadded (access : Access) : Shape := .reference paddedByte ⟨1, access, .static⟩

/-- A byte is taken for one with padding behind it. -/
theorem recast_reference_stays_padded :
    (Setting.recast {} (toByte .shared) (toPadded .shared) ∅).toOption = some ∅ ∧
      ∃ inquiry arena first second, ∃ related : Inquiry → Prop,
        Setting.Assembles {} (toByte .shared) (toPadded .shared) inquiry arena ∧
        arena.PointsTo inquiry.1 first ∧ arena.PointsTo inquiry.2 second ∧
        related (first.referent, second.referent) ∧
        ∀ pair, related pair → ReadsWithin ((terms {} arena ∅).rules related) arena pair := by
  have accepted : (Setting.recast {} (toByte .shared) (toPadded .shared) ∅).toOption = some ∅ := by
    decide +kernel
  exact ⟨accepted, recast_reference_stays fitsWords_default (.of_fits rfl) (.of_fits rfl)
    (eq_ok_of_toOption accepted)⟩

/-- So a reference to one byte is accepted as a reference to two bytes, be it an exclusive one. -/
theorem recast_beyond_referent :
    (Setting.recast {} (toByte .exclusive) (toPadded .exclusive) ∅).toOption = some ∅ ∧
      ∃ inquiry arena first second, Setting.Assembles {} (toByte .exclusive) (toPadded .exclusive)
        inquiry arena ∧ arena.PointsTo inquiry.1 first ∧ arena.PointsTo inquiry.2 second ∧
        (arena.layout first.referent).size = some 1 ∧
        (arena.layout second.referent).size = some 2 := by
  let target (referent : LayoutId) : Reference :=
    { align := 1, access := .exclusive, lifetime := .static, referent, width := 8 }
  have facts : ∀ found ∈ assembled? {} (toByte .exclusive) (toPadded .exclusive),
      found.2.PointsTo found.1.1 (target ⟨0⟩) ∧ found.2.PointsTo found.1.2 (target ⟨2⟩) ∧
        (found.2.layout ⟨0⟩).size = some 1 ∧ (found.2.layout ⟨2⟩).size = some 2 := by
    decide +kernel
  have builds : (assembled? {} (toByte .exclusive) (toPadded .exclusive)).isSome := by
    decide +kernel
  rcases Option.isSome_iff_exists.mp builds with ⟨found, isFound⟩
  refine ⟨by decide +kernel, found.1, found.2, target ⟨0⟩, target ⟨2⟩, ?_⟩
  exact ⟨assembles_of_assembled? isFound, facts found isFound⟩

end Setting

end Recast
