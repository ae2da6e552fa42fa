import Recast.Proofs.Arena.Charted

/-!
# Charted arenas stay charted

An arena grows by reservations and definitions. A layout that is only reserved has no bytes, so no
edge can repeat it: its record may still change. Once it is defined, the states of its reservation
belong to no layout any more.
-/

namespace Recast

namespace Arena

variable {arena larger : Arena} {plot largerPlot : Plot} {proper : Token → Prop} {id : LayoutId}
  {state : StateId} {pattern : Pattern} {gone : LayoutId → Prop}

/-- The larger arena has all that was there before, except that some layouts without bytes lost
their states. -/
structure Outgrows (larger : Arena) (largerPlot : Plot) (arena : Arena) (plot : Plot)
    (gone : LayoutId → Prop) :
    Prop where
  grown : arena.states.size ≤ larger.states.size ∧ arena.layouts.size ≤ larger.layouts.size
  state : ∀ state, state.index < arena.states.size → larger.state state = arena.state state
  layout : ∀ id, id.index < arena.layouts.size → ¬ gone id → larger.layout id = arena.layout id
  owner : ∀ state, state.index < arena.states.size → ∀ id, largerPlot state = some id ↔
    plot state = some id ∧ ¬ gone id
  blank : ∀ id, gone id → (arena.layout id).size = some 0

section Outgrows

variable (outgrows : larger.Outgrows largerPlot arena plot gone) (charts : arena.Charts plot proper)
include outgrows

theorem Outgrows.owns (owns : arena.Owns plot id state) (kept : ¬ gone id) :
    larger.Owns largerPlot id state :=
  ⟨Nat.lt_of_lt_of_le owns.inside outgrows.grown.1,
    (outgrows.owner state owns.inside id).mpr ⟨owns.owner, kept⟩⟩

theorem Outgrows.offset_eq (inside : state.index < arena.states.size) :
    larger.offset state = arena.offset state :=
  congrArg State.offset (outgrows.state state inside)

include charts

theorem Outgrows.advances {offset width : Nat} (owns : arena.Owns plot id state) (kept : ¬ gone id)
    (advances : arena.Advances id offset width state) : larger.Advances id offset width state := by
  rcases advances with ⟨reached, exact⟩
  rw [← outgrows.offset_eq owns.inside] at reached exact
  rw [← outgrows.layout id (charts.owner owns) kept] at exact
  exact ⟨reached, exact⟩

theorem Outgrows.allows {offset : Nat} {edge : Edge} (inside : id.index < arena.layouts.size)
    (kept : ¬ gone id) (allowed : arena.Allows plot proper id offset edge) :
    larger.Allows largerPlot proper id offset edge := by
  have same := outgrows.layout id inside kept
  cases allowed with
  | token isProper pads owns notStart advances =>
    refine .token isProper (same ▸ pads) (outgrows.owns owns kept) ?_
      (outgrows.advances charts owns kept advances)
    rw [start, same]
    exact notStart
  | @rep body count _ repeats rounds advances =>
    -- A layout that changes had no bytes, so it is not the body of a repeat.
    have bodyKept : ¬ gone body := by
      intro isGone
      rcases repeats.sized with ⟨_, size, positive⟩
      rw [outgrows.blank body isGone, Option.some.injEq] at size
      exact positive size.symm
    have sameBody := outgrows.layout body repeats.inside bodyKept
    refine .rep ⟨Nat.lt_of_lt_of_le repeats.inside outgrows.grown.2, repeats.deeper,
      outgrows.owns repeats.owns kept, ?_, sameBody ▸ repeats.sized, same ▸ sameBody ▸ repeats.pads⟩
        ?_ ?_
    · rw [start, same]
      exact repeats.notStart
    · cases count with
      | exact => exact rounds
      | atLeast =>
        rw [Rounds, stop, same]
        exact rounds
    · refine outgrows.advances charts repeats.owns kept ?_
      rw [advance, bytes, sameBody]
      exact advances

theorem Outgrows.describes (owns : arena.Owns plot id state) (kept : ¬ gone id) :
    larger.Describes largerPlot proper id state := by
  have described := charts.state owns
  have same := outgrows.layout id (charts.owner owns) kept
  have sameState := outgrows.state state owns.inside
  constructor
  · rw [edges, sameState, outgrows.offset_eq owns.inside]
    exact fun edge member => outgrows.allows charts (charts.owner owns) kept
      (described.edges edge member)
  · rw [sameState, stop, same]
    exact described.accepting
  · rw [edges, sameState, stop, same]
    exact described.stop
  · rw [edges, sameState, stop, same]
    exact described.onward

theorem Outgrows.settles (inside : id.index < arena.layouts.size) (kept : ¬ gone id) :
    larger.Settles largerPlot id := by
  have settled := charts.layout inside
  have same := outgrows.layout id inside kept
  have sameStart : larger.start id = arena.start id := congrArg Layout.start same
  have sameStop : larger.stop id = arena.stop id := congrArg Layout.stop same
  refine ⟨sameStart ▸ outgrows.owns settled.start kept, sameStop ▸ outgrows.owns settled.stop kept,
    ?_, ?_⟩
  · rw [sameStart, outgrows.offset_eq settled.start.inside]
    exact settled.zero
  · rw [same, sameStop, outgrows.offset_eq settled.stop.inside]
    exact settled.size

theorem Outgrows.remain_charted
    (owner : ∀ id state, larger.Owns largerPlot id state → arena.states.size ≤ state.index →
      id.index < larger.layouts.size ∧ larger.Describes largerPlot proper id state)
    (layout : ∀ id, id.index < larger.layouts.size → arena.layouts.size ≤ id.index ∨ gone id →
      larger.Settles largerPlot id) : larger.Charts largerPlot proper where
  owner {id state} owns := by
    by_cases old : state.index < arena.states.size
    · have owned := ((outgrows.owner state old id).mp owns.owner).1
      exact Nat.lt_of_lt_of_le (charts.owner ⟨old, owned⟩) outgrows.grown.2
    · exact (owner id state owns (Nat.le_of_not_lt old)).1
  state {id state} owns := by
    by_cases old : state.index < arena.states.size
    · rcases (outgrows.owner state old id).mp owns.owner with ⟨owned, kept⟩
      exact outgrows.describes charts ⟨old, owned⟩ kept
    · exact (owner id state owns (Nat.le_of_not_lt old)).2
  layout {id} inside := by
    by_cases new : arena.layouts.size ≤ id.index ∨ gone id
    · exact layout id inside new
    · rw [not_or, Nat.not_le] at new
      exact outgrows.settles charts new.1 new.2

end Outgrows

theorem Charts.reserve (charts : arena.Charts plot proper) :
    ∃ largerPlot, arena.reserve.2.Charts largerPlot proper := by
  let id : LayoutId := ⟨arena.layouts.size⟩
  let largerPlot : Plot :=
    fun state => if state.index < arena.states.size then plot state else some id
  have sizes : arena.reserve.2.states.size = arena.states.size + 2 ∧
      arena.reserve.2.layouts.size = arena.layouts.size + 1 := by
    simp [Arena.reserve, Layout.reservedStates]
  rcases state_append (rfl : arena.reserve.2.states = _) with ⟨old, new⟩
  have outgrows : arena.reserve.2.Outgrows largerPlot arena plot fun _ => False := {
    grown := by omega
    state := old
    layout := fun id inside _ => layout_reserve_of_lt inside
    owner := fun _ inside _ => by simp [largerPlot, inside]
    blank := by simp }
  have isLayout : arena.reserve.2.layout id = .reserved arena.states.size := layout_reserve_self
  have isStart : arena.reserve.2.start id = ⟨arena.states.size⟩ := congrArg Layout.start isLayout
  have isStop : arena.reserve.2.stop id = ⟨arena.states.size + 1⟩ := congrArg Layout.stop isLayout
  have startState : arena.reserve.2.state ⟨arena.states.size⟩ = { offset := 0 } := new 0 _ rfl
  have stopState : arena.reserve.2.state ⟨arena.states.size + 1⟩ =
      { offset := 0, accepting := true } := new 1 _ rfl
  have owned {index : Nat} (behind : arena.states.size ≤ index)
      (inside : index < arena.states.size + 2) : arena.reserve.2.Owns largerPlot id ⟨index⟩ :=
    ⟨sizes.1 ▸ inside, if_neg (Nat.not_lt.mpr behind)⟩
  refine ⟨largerPlot, outgrows.remain_charted charts ?_ ?_⟩
  · rintro other ⟨index⟩ owns behind
    have inside := owns.inside
    simp only [sizes.1] at inside behind
    have isOwner : some id = some other := (if_neg (Nat.not_lt.mpr behind)).symm.trans owns.owner
    cases isOwner
    refine ⟨sizes.2 ▸ Nat.lt_succ_self _, ?_⟩
    rcases (by omega : index = arena.states.size ∨ index = arena.states.size + 1) with rfl | rfl
    · constructor <;> simp [edges, startState, isStop, isLayout, Layout.reserved]
    · constructor <;> simp [edges, stopState, isStop]
  · intro other inside behind
    obtain rfl : other = id := by
      rcases other with ⟨number⟩
      simp only [or_false, sizes.2] at behind inside
      simp only [id, LayoutId.mk.injEq]
      omega
    refine ⟨isStart ▸ owned (Nat.le_refl _) (by omega), isStop ▸ owned (by omega) (by omega), ?_,
      ?_⟩
    · rw [isStart, offset, startState]
    · simp [isStop, isLayout, offset, stopState, Layout.reserved]

theorem Charts.define (charts : arena.Charts plot proper) (inside : id.index < arena.layouts.size)
    (blank : (arena.layout id).size = some 0) (shaped : pattern.Shaped)
    (leaves : pattern.Leaves proper) (defined : arena.define id pattern = .ok larger) :
    ∃ largerPlot, larger.Charts largerPlot proper := by
  rcases define_eq_ok defined with ⟨fragment, compiled, isStates, isLayouts⟩
  rcases shaped.exists_spans with ⟨extent, spans⟩
  rcases Pattern.charted_compile pattern id ready_newSite (Nat.zero_le _) spans leaves compiled with
    ⟨reach, owners, lasts, charted⟩
  rcases layout_define isLayouts inside with ⟨isRecord, others, _⟩
  have states := size_states_define isStates
  have layouts := size_layouts_define isLayouts
  simp only [newSite] at states layouts
  let largerPlot : Plot := fun state =>
    if state.index < arena.states.size then if plot state = some id then none else plot state
    else fragment.ownersOf arena.newSite id owners (state.index - arena.states.size)
  have outgrows : larger.Outgrows largerPlot arena plot (· = id) := {
    grown := by omega
    state := (state_append isStates).1
    layout := others
    owner := fun state below _ => by
      by_cases mine : plot state = some id
      · simp only [largerPlot, below, if_true, mine, reduceCtorEq, Option.some.injEq, false_iff,
          not_and]
        exact fun same elsewhere => elsewhere same.symm
      · simp only [largerPlot, below, if_true, mine, if_false, iff_self_and]
        rintro isOther rfl
        exact mine isOther
    blank := fun _ same => same ▸ blank }
  have marked (index : Nat) (_ : index ≤ fragment.states.size) :
      largerPlot ⟨arena.newSite.start.index + index⟩ =
      fragment.ownersOf arena.newSite id owners index := by
    simp only [largerPlot, newSite]
    rw [if_neg (by omega), Nat.add_sub_cancel_left]
  rcases charted.layout rfl rfl spans (Pattern.tidy_compile pattern ready_newSite compiled) lasts
    (madeIn_define compiled isStates isLayouts inside) isRecord inside marked with
    ⟨describes, settles, nested⟩
  refine ⟨largerPlot, outgrows.remain_charted charts ?_ ?_⟩
  · rintro other ⟨index⟩ owns behind
    obtain ⟨rest, rfl⟩ := Nat.exists_eq_add_of_le behind
    have small := owns.inside
    simp only at small
    refine ⟨?_, describes rest other (by omega) owns.owner⟩
    have isOwner := marked rest (by omega) ▸ owns.owner
    rcases Fragment.range_ownersOf charted isOwner with rfl | range
    · omega
    · simp only [newSite] at range
      omega
  · rintro ⟨index⟩ below new
    by_cases same : (⟨index⟩ : LayoutId) = id
    · exact same ▸ settles
    · have behind := new.resolve_right same
      obtain ⟨rest, rfl⟩ := Nat.exists_eq_add_of_le behind
      simp only at below
      exact nested rest (by omega)

end Arena

end Recast
