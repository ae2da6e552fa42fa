import Recast.Proofs.Arena.Chart
import Recast.Proofs.Arena.Hosted

/-!
# Compiled patterns can be charted

If the end of a fragment is where its pattern says, then its states are as a chart has them,
wherever the fragment is hosted (`Fragment.Charted`). By recursion on the pattern, in step with its
compilation, this is so for every pattern in shape (`Pattern.charted_compile`).
-/

namespace Recast

open Extent List Arena

variable {extent : Option Nat} {pattern body : Pattern} {count : Count} {offset width : Nat}

namespace Extent

theorem satAdd_satAdd (offset front back : Nat) :
    satAdd (satAdd offset front) back = satAdd offset (front + back) := by
  simp only [satAdd]
  omega

theorem satAdd_satMul (offset unit number : Nat) :
    satAdd offset (satMul unit number) = satAdd offset (unit * number) := by
  simp only [satAdd, satMul]
  omega

theorem satAdd_zero (inside : offset ≤ cap) : satAdd offset 0 = offset :=
  Nat.min_eq_left inside

end Extent

namespace Pattern

/-- The pattern has a fixed size below the cap, or none at all if it ends in a tail. -/
def Spans (extent : Option Nat) (pattern : Pattern) : Prop :=
  match extent with
  | some width => pattern.Fits width ∧ width ≤ cap
  | none => pattern.Open

def SpanTogether (extent : Option Nat) (parts : List Pattern) : Prop :=
  match extent with
  | some width => FitTogether parts width ∧ width ≤ cap
  | none => OpenAtEnd parts

variable {part : Pattern} {parts rest options : List Pattern}

theorem Shaped.exists_spans (shaped : pattern.Shaped) : ∃ extent, pattern.Spans extent := by
  rcases shaped with ⟨width, fits⟩ | isOpen
  · exact ⟨some width, fits⟩
  · exact ⟨none, isOpen⟩

theorem Spans.size_eq (spans : pattern.Spans extent) : pattern.size = extent := by
  cases extent with
  | some => exact size_of_fits spans.1 spans.2
  | none => exact size_of_open spans

theorem spans_seq (spans : (seq parts).Spans extent) : SpanTogether extent parts := by
  cases extent with
  | some => simpa only [Spans, Fits, SpanTogether] using spans
  | none => simpa only [Spans, Open, SpanTogether] using spans

theorem spanTogether_nil (spans : SpanTogether extent []) : extent = some 0 := by
  cases extent with
  | some =>
    simp only [SpanTogether, FitTogether] at spans
    rw [spans.1]
  | none => simp only [SpanTogether, OpenAtEnd] at spans

theorem spanTogether_cons (spans : SpanTogether extent (part :: rest)) :
    ∃ first others, part.Spans first ∧ SpanTogether others rest ∧
      (extent = first.bind fun front => others.map (front + ·)) ∧ (first = none → rest = []) := by
  cases extent with
  | some width =>
    simp only [SpanTogether, FitTogether] at spans
    rcases spans with ⟨⟨front, back, fits, fitsToo, rfl⟩, inside⟩
    exact ⟨some front, some back, ⟨fits, by omega⟩, ⟨fitsToo, by omega⟩, rfl, by simp⟩
  | none =>
    simp only [SpanTogether, OpenAtEnd] at spans
    rcases spans with ⟨rfl, isOpen⟩ | ⟨⟨width, fits, inside⟩, isOpen⟩
    · exact ⟨none, some 0, isOpen, ⟨by simp only [FitTogether], Nat.zero_le _⟩, rfl, fun _ => rfl⟩
    · exact ⟨some width, none, ⟨fits, inside⟩, isOpen, rfl, by simp⟩

theorem spans_alt (spans : (alt options).Spans extent) :
    ∃ width, extent = some width ∧ width ≤ cap ∧ FitEach options width := by
  cases extent with
  | some width =>
    simp only [Spans, Fits] at spans
    exact ⟨width, rfl, spans.2, spans.1.2⟩
  | none => simp only [Spans, Open] at spans

/-- What rounds of so many bytes come to: there are several of them, or an open number. -/
def RoundsSpan (unit : Nat) (extent : Option Nat) : Count → Prop
  | .exact number => 2 ≤ number ∧ extent = some (unit * number)
  | .atLeast _ => extent = none

theorem RoundsSpan.least {unit : Nat} (rounds : RoundsSpan unit (some width) count) :
    unit * count.least = width := by
  cases count with
  | exact => exact (Option.some.inj rounds.2).symm
  | atLeast => cases (show some width = none from rounds)

theorem spans_rep (spans : (rep body count).Spans extent) :
    ∃ unit, body.Spans (some unit) ∧ unit ≠ 0 ∧ RoundsSpan unit extent count := by
  cases extent with
  | some width =>
    cases count with
    | exact number =>
      simp only [Spans, Fits] at spans
      rcases spans with ⟨⟨unit, fits, positive, several, rfl⟩, inside⟩
      have unitInside : unit ≤ cap := Nat.le_trans (Nat.le_mul_of_pos_right unit (by omega)) inside
      exact ⟨unit, ⟨fits, unitInside⟩, positive, several, rfl⟩
    | atLeast => simp only [Spans, Fits, false_and] at spans
  | none =>
    cases count with
    | exact => simp only [Spans, Open] at spans
    | atLeast =>
      simp only [Spans, Open] at spans
      rcases spans with ⟨unit, fits, positive, inside⟩
      exact ⟨unit, ⟨fits, inside⟩, positive, rfl⟩

mutual

theorem hasValue_of_isPadding : (pattern : Pattern) → pattern.isPadding → pattern.hasValue
  | leaf _, _ => by simp only [hasValue]
  | seq parts, pads => by
    simp only [isPadding] at pads
    simpa only [hasValue] using allHaveValue_of_allPadding parts pads
  | alt [], pads => by simp only [isPadding, Bool.false_eq_true] at pads
  | alt (option :: rest), pads => by
    simp only [isPadding, Bool.and_eq_true] at pads
    simp only [hasValue, anyHasValue, hasValue_of_isPadding option pads.1, Bool.true_or]
  | rep body _, pads => by
    simp only [isPadding] at pads
    simp only [hasValue, hasValue_of_isPadding body pads, Bool.or_true]

theorem allHaveValue_of_allPadding : (parts : List Pattern) → allPadding parts → allHaveValue parts
  | [], _ => by simp only [allHaveValue]
  | part :: rest, pads => by
    simp only [allPadding, Bool.and_eq_true] at pads
    simp only [allHaveValue, hasValue_of_isPadding part pads.1,
      allHaveValue_of_allPadding rest pads.2, Bool.true_and]

end

theorem allPadding_of_alt (pads : (alt options).isPadding) : options ≠ [] ∧ allPadding options := by
  rcases options with _ | ⟨_, _⟩
  · simp [isPadding] at pads
  · simpa [isPadding, allPadding] using pads

end Pattern

namespace Fragment

variable {fragment first second : Fragment} {site : Site} {me : LayoutId}
  {pads padsFirst padsSecond : Prop} {proper : Token → Prop} {extentFirst extentSecond : Option Nat}
  {reach front back : Nat} {owners ownersToo : Nat → Option LayoutId} {arena : Arena} {plot : Plot}
  {stop : StateId}

/-- The fragment ends so many bytes behind its start, at a state of its own unless it is empty; if
it is of padding, it does not end before. -/
structure Lasts (fragment : Fragment) (site : Site) (pads : Prop) (extent : Option Nat)
    (reach : Nat) : Prop where
  exact : ∀ width, extent = some width → reach = width
  still : fragment.stop = site.start → extent = some 0
  place : ∀ index state, fragment.stop = ⟨site.nextState + index⟩ →
    fragment.states[index]? = some state → state.offset = satAdd site.offset reach
  leaves : pads → fragment.stop ≠ site.start → fragment.leaving ≠ []

/-- What is known where the fragment is looked at as part of the layout `me`. -/
structure PartOf (fragment : Fragment) (site : Site) (me : LayoutId) (pads : Prop)
    (extent : Option Nat) (reach : Nat) (owners : Nat → Option LayoutId) (arena : Arena)
      (plot : Plot) (stop : StateId) : Prop where
  hosted : fragment.HostedBy site arena stop
  marked : ∀ index, index < fragment.states.size → fragment.stop ≠ ⟨site.nextState + index⟩ →
    plot ⟨site.nextState + index⟩ = owners index
  start : (arena.start me).index < site.nextState
  known : me.index < site.nextLayout
  outside : fragment.Owns site (arena.stop me) → arena.stop me = stop
  owns : arena.Owns plot me stop
  notStart : stop ≠ arena.start me
  pads : (arena.layout me).padding → pads
  reached : arena.offset stop = satAdd site.offset reach
  sized : ∀ size, (arena.layout me).size = some size → size ≤ cap ∧ site.offset + reach ≤ size
  unsized : extent = none → (arena.layout me).size = none ∧ stop = arena.stop me

/-- The states of the fragment but its end are as a chart has them. -/
structure Conforms (fragment : Fragment) (site : Site) (me : LayoutId) (proper : Token → Prop)
    (arena : Arena) (plot : Plot) (stop : StateId) : Prop where
  leaving : ∀ edge ∈ retargetEdges fragment.stop stop fragment.leaving,
    arena.Allows plot proper me site.offset edge
  states : ∀ index owner, index < fragment.states.size → fragment.stop ≠ ⟨site.nextState + index⟩ →
    plot ⟨site.nextState + index⟩ = some owner →
    arena.Describes plot proper owner ⟨site.nextState + index⟩
  layouts : ∀ index, index < fragment.layouts.size → arena.Settles plot ⟨site.nextLayout + index⟩

/-- As part of the layout, the fragment is as a chart has it. Its states belong to the layout or to
nested ones. -/
structure Charted (fragment : Fragment) (site : Site) (me : LayoutId) (pads : Prop)
    (proper : Token → Prop) (extent : Option Nat) (reach : Nat) (owners : Nat → Option LayoutId) :
      Prop where
  range : ∀ index owner, owners index = some owner →
    owner = me ∨ site.nextLayout ≤ owner.index ∧
      owner.index < site.nextLayout + fragment.layouts.size
  conforms : ∀ {arena plot stop}, fragment.PartOf site me pads extent reach owners arena plot stop →
    fragment.Conforms site me proper arena plot stop

theorem Lasts.zero (lasts : fragment.Lasts site pads extent reach)
    (still : fragment.stop = site.start) : reach = 0 :=
  lasts.exact 0 (lasts.still still)

theorem PartOf.advances (part : fragment.PartOf site me pads extent reach owners arena plot stop) :
    arena.Advances me site.offset reach stop := by
  refine ⟨part.reached, fun size sized => ?_⟩
  rcases part.sized size sized with ⟨small, enough⟩
  exact ⟨part.reached.trans (satAdd_eq (by omega)), enough⟩

theorem lasts_nothing : (nothing site).Lasts site pads (some 0) 0 :=
  ⟨fun _ => Option.some.inj, fun _ => rfl, by simp [nothing], fun _ moves => absurd rfl moves⟩

theorem charted_nothing : (nothing site).Charted site me pads proper extent reach fun _ => none :=
  ⟨by simp, fun _ => ⟨by simp [nothing], by simp [nothing], by simp [nothing]⟩⟩

theorem charted_single {leaving : List Edge} {state : State} (allowed : ∀ {arena plot stop},
      PartOf ⟨leaving, #[state], #[], site.fresh⟩ site me pads extent reach (fun _ => none) arena
        plot stop →
      ∀ edge ∈ retargetEdges site.fresh stop leaving,
        arena.Allows plot proper me site.offset edge) :
    Charted ⟨leaving, #[state], #[], site.fresh⟩ site me pads proper extent reach fun _ =>
      none := by
  refine ⟨by simp, fun part => ⟨allowed part, ?_, by simp⟩⟩
  intro index _ inside notStop
  have first : index = 0 := by simpa using inside
  subst first
  exact absurd rfl notStop

theorem lasts_token {token : Token} (ready : site.start.index < site.nextState) :
    (edge site (.token token) (satAdd site.offset token.width)).Lasts site pads (some token.width)
      token.width where
  exact _ := Option.some.inj
  still same := absurd same (fresh_ne_start ready)
  place _ _ _ found := by rw [(found_singleton found).2]
  leaves _ _ := by simp [edge]

theorem charted_token {token : Token} (isProper : proper token)
    (isPadding : pads → token = .cell .uninit) :
    (edge site (.token token) offset).Charted site me pads proper (some token.width) token.width
      fun _ => none := by
  refine charted_single fun {_ _ stop} part edge member => ?_
  have isEdge : edge = ⟨.token token, stop⟩ := by simpa [retargetEdges] using member
  rw [isEdge]
  exact .token isProper (fun padding => isPadding (part.pads padding)) part.owns part.notStart
    part.advances

theorem lasts_deadEnd (ready : site.start.index < site.nextState) (inside : site.offset ≤ cap)
    (noPadding : ¬ pads) : (deadEnd site).Lasts site pads (some 0) 0 where
  exact _ := Option.some.inj
  still same := absurd same (fresh_ne_start ready)
  place _ _ _ found := by rw [(found_singleton found).2, satAdd_zero inside]
  leaves isPadding := absurd isPadding noPadding

section Sequence

def ownersInRow (first : Fragment) (site : Site) (me : LayoutId)
    (owners ownersToo : Nat → Option LayoutId) (index : Nat) : Option LayoutId :=
  if index < first.states.size then
    if first.stop = ⟨site.nextState + index⟩ then some me else owners index
  else ownersToo (index - first.states.size)

theorem total_after (isOffset : offset = satAdd site.offset front) :
    satAdd site.offset (front + back) = satAdd (site.after first offset).offset back := by
  rw [← satAdd_satAdd, ← isOffset]
  rfl

section Parts

variable (tidy : first.Tidy site) (next : second.Tidy (site.after first offset))
  (still : first.stop ≠ site.start) (stays : second.stop ≠ first.stop)
  (lasts : first.Lasts site padsFirst (some width) front)
  (isOffset : offset = satAdd site.offset front) (joined : extent = extentSecond.map (width + ·))
  (isPadding : pads → padsFirst ∧ padsSecond)
  (part : (first.followedBy site second).PartOf site me pads extent (front + back)
    (ownersInRow first site me owners ownersToo) arena plot stop)
include tidy next still stays part

omit tidy still in
theorem PartOf.outside_first : ¬ first.Owns site (arena.stop me) := by
  intro owns
  rcases next.stop_owned stays with ⟨_, _, isStop, _⟩
  have atStop := part.outside owns.inFirst
  rw [atStop] at owns
  rcases part.hosted.stop with same | below
  · simp only [Owns, same.trans (rfl : _ = second.stop), isStop, Site.after] at owns
    omega
  · simp only [Owns] at owns
    omega

omit tidy still in
theorem PartOf.marked_first {index : Nat} (small : index < first.states.size) :
    plot ⟨site.nextState + index⟩ = if first.stop =
      ⟨site.nextState + index⟩ then some me else owners index := by
  rcases next.stop_owned stays with ⟨_, _, isStop, _⟩
  have marked := part.marked index (by simp only [size_followedBy]; omega) (by
    change second.stop ≠ _
    simp only [isStop, Site.after, ne_eq, StateId.mk.injEq]
    omega)
  simpa only [ownersInRow, if_pos small] using marked

include lasts

theorem PartOf.reached_first : arena.offset first.stop = satAdd site.offset front := by
  rcases tidy.stop_owned still with ⟨place, old, isPlace, isOld, _⟩
  rw [Arena.offset, (part.hosted.of_followedBy tidy next still stays).2.2 place old isPlace isOld]
  exact lasts.place place old isPlace isOld

include isPadding

theorem PartOf.inFirst :
    first.PartOf site me padsFirst (some width) front owners arena plot first.stop := by
  rcases tidy.stop_owned still with ⟨place, old, isPlace, isOld, _⟩
  have stopOwned := isPlace ▸ owns_of_found isOld
  have inside := part.hosted.inside
  have start := part.start
  simp only [size_followedBy] at inside
  exact {
    hosted := (part.hosted.of_followedBy tidy next still stays).1
    marked := fun index small notStop => by rw [part.marked_first next stays small, if_neg notStop]
    start := start
    known := part.known
    outside := fun owns => absurd owns (part.outside_first next stays)
    owns := ⟨Nat.lt_of_lt_of_le stopOwned.2 (by omega), by
      rw [isPlace, part.marked_first next stays (Array.getElem?_eq_some_iff.mp isOld).1,
        if_pos isPlace]⟩
    notStart := fun same => by
      rw [← same] at start
      exact absurd stopOwned.1 (Nat.not_le_of_lt start)
    pads := fun padding => (isPadding (part.pads padding)).1
    reached := part.reached_first tidy next still stays lasts
    sized := fun size sized => (part.sized size sized).imp_right fun enough => by omega
    unsized := by simp }

include isOffset joined

omit lasts in
theorem PartOf.inSecond :
    second.PartOf (site.after first offset) me padsSecond extentSecond back ownersToo arena plot
      stop where
  hosted := (part.hosted.of_followedBy tidy next still stays).2.1
  marked index small notStop := by
    have marked :=
      part.marked (first.states.size + index) (by simp only [size_followedBy]; omega) (by
      rw [← Nat.add_assoc]
      exact notStop)
    rw [ownersInRow, if_neg (by omega), Nat.add_sub_cancel_left, ← Nat.add_assoc] at marked
    exact marked
  start := Nat.lt_add_right _ part.start
  known := Nat.lt_add_right _ part.known
  outside owns := part.outside owns.inSecond
  owns := part.owns
  notStart := part.notStart
  pads padding := (isPadding (part.pads padding)).2
  reached := part.reached.trans (total_after isOffset)
  sized size sized := by
    rcases part.sized size sized with ⟨small, enough⟩
    rw [Site.after, isOffset, satAdd_eq (by omega)]
    exact ⟨small, by simp only; omega⟩
  unsized none := part.unsized (by simp [joined, none])

end Parts

variable (ready : site.start.index < site.nextState) (inside : site.offset ≤ cap)
  (tidy : first.Tidy site) (next : second.Tidy (site.after first offset))
  (lasts : first.Lasts site padsFirst extentFirst front)
  (lastsToo : second.Lasts (site.after first offset) padsSecond extentSecond back)
  (isOffset : second.stop ≠ first.stop → offset = satAdd site.offset front)
  (joined : extent = extentFirst.bind fun width => extentSecond.map (width + ·))
include ready inside tidy next lasts lastsToo isOffset joined

/-- Either one of the two fragments is all there is, or both move on. -/
theorem followedBy_cases :
    (first.followedBy site second = first ∧ extent = extentFirst ∧ front + back = front) ∨
    (first.followedBy site second = second ∧ site.after first offset = site ∧
      extent = extentSecond ∧ front + back = back) ∨
    (second.stop ≠ first.stop ∧ first.stop ≠ site.start ∧ offset = satAdd site.offset front) := by
  by_cases stays : second.stop = first.stop
  · have none := lastsToo.still stays
    have zero := lastsToo.zero stays
    obtain rfl := next.eq_nothing (tidy.stop_lt ready) stays
    subst none zero
    exact .inl ⟨followedBy_nothing ready tidy, by simpa using joined, rfl⟩
  replace isOffset := isOffset stays
  by_cases still : first.stop = site.start
  · have none := lasts.still still
    have zero := lasts.zero still
    obtain rfl := tidy.eq_nothing ready still
    subst none zero
    rw [satAdd_zero inside] at isOffset
    exact .inr
      (.inl ⟨nothing_followedBy, by rw [isOffset]; rfl, by simpa using joined, Nat.zero_add _⟩)
  · exact .inr (.inr ⟨stays, still, isOffset⟩)

variable (isPadding : pads → padsFirst ∧ padsSecond)
include isPadding

theorem Lasts.followedBy :
    (first.followedBy site second).Lasts site pads extent (front + back) := by
  rcases followedBy_cases ready inside tidy next lasts lastsToo isOffset joined with
    ⟨same, sameExtent, total⟩ | ⟨same, sameSite, sameExtent, total⟩ | ⟨stays, still, isOffset⟩
  · rw [same, sameExtent, total]
    exact { lasts with leaves := fun isPad => lasts.leaves (isPadding isPad).1 }
  · rw [sameSite] at lastsToo
    rw [same, sameExtent, total]
    exact { lastsToo with leaves := fun isPad => lastsToo.leaves (isPadding isPad).2 }
  rcases next.stop_owned stays with ⟨last, lastState, isStop, isLast, _⟩
  have stopAt : (first.followedBy site second).stop = second.stop := rfl
  refine ⟨?_, ?_, ?_,
    fun isPad _ => by rw [leaving_followedBy still]; exact lasts.leaves (isPadding isPad).1 still⟩
  · intro width isWidth
    rcases extentFirst with _ | widthFirst
    · simp [joined] at isWidth
    rcases extentSecond with _ | widthSecond
    · simp [joined] at isWidth
    have sum : widthFirst + widthSecond = width := by simpa [joined] using isWidth
    rw [lasts.exact widthFirst rfl, lastsToo.exact widthSecond rfl, sum]
  · intro same
    rw [← same, stopAt, isStop] at ready
    simp only [Site.after] at ready
    omega
  · intro index state isIndex found
    obtain rfl : index = first.states.size + last := by
      rw [stopAt, isStop] at isIndex
      simp only [Site.after, StateId.mk.injEq] at isIndex
      omega
    rw [found_second] at found
    rw [total_after isOffset]
    exact lastsToo.place last state isStop found

theorem Charted.followedBy (last : extentFirst = none → second.stop = first.stop)
    (charted : first.Charted site me padsFirst proper extentFirst front owners)
    (chartedToo : second.Charted (site.after first offset) me padsSecond proper extentSecond back
      ownersToo) :
    ∃ owners, (first.followedBy site second).Charted site me pads proper extent (front + back)
      owners := by
  rcases followedBy_cases ready inside tidy next lasts lastsToo isOffset joined with
    ⟨same, sameExtent, total⟩ | ⟨same, sameSite, sameExtent, total⟩ | ⟨stays, still, isOffset⟩
  · rw [same, sameExtent, total]
    refine ⟨_, charted.range, fun part => charted.conforms ?_⟩
    exact { part with pads := fun padding => (isPadding (part.pads padding)).1 }
  · rw [sameSite] at chartedToo
    rw [same, sameExtent, total]
    refine ⟨_, chartedToo.range, fun part => chartedToo.conforms ?_⟩
    exact { part with pads := fun padding => (isPadding (part.pads padding)).2 }
  rcases extentFirst with _ | width
  · exact absurd (last rfl) stays
  replace joined : extent = extentSecond.map (width + ·) := joined
  rcases tidy.stop_owned still with ⟨place, old, isPlace, isOld, _, notAccepting⟩
  have stopOwned := isPlace ▸ owns_of_found isOld
  refine ⟨ownersInRow first site me owners ownersToo, ?_, fun {arena plot stop} part => ?_⟩
  · intro index owner isOwner
    simp only [layouts_followedBy, Array.size_append]
    simp only [ownersInRow] at isOwner
    split at isOwner
    · split at isOwner
      · exact .inl (Option.some.inj isOwner).symm
      · exact (charted.range index owner isOwner).imp_right fun range => by omega
    · have range := chartedToo.range _ owner isOwner
      simp only [Site.after] at range
      exact range.imp_right fun range => by omega
  have conforms := charted.conforms (part.inFirst tidy next still stays lasts isPadding)
  have conformsToo :=
    chartedToo.conforms (part.inSecond tidy next still stays isOffset joined isPadding)
  have state := (part.hosted.of_followedBy tidy next still stays).2.2 place old isPlace isOld
  refine ⟨?_, ?_, ?_⟩
  · have leaving := conforms.leaving
    rcases next.stop_owned stays with ⟨_, _, isStop, _⟩
    rw [retargetEdges_self] at leaving
    rw [leaving_followedBy still, retargetEdges_of_ne fun edge member same => ?_]
    · exact leaving
    · have owns := tidy.owns_leaving member
      simp only [same.trans (rfl : _ = second.stop), isStop, Owns, Site.after] at owns
      omega
  · intro index owner small notStop isOwner
    rw [size_followedBy] at small
    by_cases inFirst : index < first.states.size
    · by_cases atEnd : first.stop = ⟨site.nextState + index⟩
      · -- The end of the first part is left over the edges of the second.
        rw [part.marked_first next stays inFirst, if_pos atEnd, Option.some.injEq] at isOwner
        rw [← isOwner, ← atEnd]
        have elsewhere : first.stop ≠ arena.stop me :=
          fun same => part.outside_first next stays (same ▸ stopOwned)
        refine ⟨?_, ?_, fun same => absurd same elsewhere, fun padding _ => ?_⟩
        · rw [edges, state, part.reached_first tidy next still stays lasts, ← isOffset]
          exact conformsToo.leaving
        · rw [state]
          exact iff_of_false (by simp [notAccepting]) elsewhere
        · rw [edges, state]
          exact retargetEdges_ne_nil (lastsToo.leaves (isPadding (part.pads padding)).2 stays)
      · exact conforms.states index owner inFirst atEnd isOwner
    · obtain ⟨rest, rfl⟩ := Nat.exists_eq_add_of_le (Nat.le_of_not_lt inFirst)
      rw [← Nat.add_assoc] at isOwner notStop ⊢
      exact conformsToo.states rest owner (by omega) notStop isOwner
  · intro index small
    rw [layouts_followedBy, Array.size_append] at small
    by_cases inFirst : index < first.layouts.size
    · exact conforms.layouts index inFirst
    · obtain ⟨rest, rfl⟩ := Nat.exists_eq_add_of_le (Nat.le_of_not_lt inFirst)
      rw [← Nat.add_assoc]
      exact conformsToo.layouts rest (by omega)

end Sequence

section Options

variable {goal : StateId}

def ownersAside (first : Fragment) (site : Site) (owners ownersToo : Nat → Option LayoutId)
    (index : Nat) : Option LayoutId :=
  if index < first.states.size then
    if first.stop = ⟨site.nextState + index⟩ then none else owners index
  else ownersToo (index - first.states.size)

theorem Charted.beside (tidy : first.Tidy site) (below : goal.index < site.nextState)
    (stopsAt : second.stop = goal) (isPadding : pads → padsFirst ∧ padsSecond)
    (charted : first.Charted site me padsFirst proper extent reach owners)
    (chartedToo : second.Charted (site.beside first) me padsSecond proper extent reach ownersToo) :
    ((first.retarget goal).beside second).Charted site me pads proper extent reach
      (ownersAside first site owners ownersToo) := by
  have stopAt : ((first.retarget goal).beside second).stop = goal := stopsAt
  refine ⟨?_, fun {arena plot stop} part => ?_⟩
  · intro index owner isOwner
    simp only [layouts_option, Array.size_append]
    simp only [ownersAside] at isOwner
    split at isOwner
    · split at isOwner
      · simp at isOwner
      · exact (charted.range index owner isOwner).imp_right fun range => by omega
    · have range := chartedToo.range _ owner isOwner
      simp only [Site.beside] at range
      exact range.imp_right fun range => by omega
  rcases part.hosted.of_beside tidy below stopsAt with ⟨hosted, hostedToo, leaving⟩
  have elsewhere (index : Nat) : ((first.retarget goal).beside second).stop ≠
      ⟨site.nextState + index⟩ := by
    rintro same
    rw [← stopAt, same] at below
    exact absurd below (by simp)
  have marked {index : Nat} (small : index < first.states.size) : plot ⟨site.nextState + index⟩ =
      if first.stop = ⟨site.nextState + index⟩ then none else owners index := by
    have marked := part.marked index (by simp only [size_option]; omega) (elsewhere index)
    simpa only [ownersAside, if_pos small] using marked
  have conforms := charted.conforms { part with
    hosted := hosted
    marked := fun _ small notStop => by rw [marked small, if_neg notStop]
    outside := fun owns => part.outside owns.inOption
    pads := fun padding => (isPadding (part.pads padding)).1 }
  have conformsToo := chartedToo.conforms { part with
    hosted := hostedToo
    marked := fun index small _ => by
      have marked :=
        part.marked (first.states.size + index) (by simp only [size_option]; omega) (elsewhere _)
      rw [ownersAside, if_neg (by omega), Nat.add_sub_cancel_left, ← Nat.add_assoc] at marked
      exact marked
    start := Nat.lt_add_right _ part.start
    known := Nat.lt_add_right _ part.known
    outside := fun owns => part.outside owns.inOthers
    pads := fun padding => (isPadding (part.pads padding)).2 }
  refine ⟨?_, ?_, ?_⟩
  · rw [stopAt, leaving]
    exact forall_mem_append.mpr ⟨conforms.leaving, conformsToo.leaving⟩
  · intro index owner small _ isOwner
    rw [size_option] at small
    by_cases inFirst : index < first.states.size
    · by_cases atEnd : first.stop = ⟨site.nextState + index⟩
      · simp [marked inFirst, atEnd] at isOwner
      · exact conforms.states index owner inFirst atEnd isOwner
    · obtain ⟨rest, rfl⟩ := Nat.exists_eq_add_of_le (Nat.le_of_not_lt inFirst)
      rw [← Nat.add_assoc] at isOwner ⊢
      refine conformsToo.states rest owner (by omega) ?_ isOwner
      have notHere := elsewhere (first.states.size + rest)
      rwa [← Nat.add_assoc] at notHere
  · intro index small
    rw [layouts_option, Array.size_append] at small
    by_cases inFirst : index < first.layouts.size
    · exact conforms.layouts index inFirst
    · obtain ⟨rest, rfl⟩ := Nat.exists_eq_add_of_le (Nat.le_of_not_lt inFirst)
      rw [← Nat.add_assoc]
      exact conformsToo.layouts rest (by omega)

theorem Charted.choice (stopsAt : fragment.stop = site.fresh)
    (charted : fragment.Charted { site with nextState := site.nextState + 1 } me pads proper extent
      reach owners) :
    (fragment.choice offset).Charted site me pads proper extent reach fun index =>
      owners (index - 1) := by
  refine ⟨fun index owner => charted.range _ owner, fun {arena plot stop} part => ?_⟩
  have conforms := charted.conforms { part with
    hosted := part.hosted.of_choice
    marked := fun index small notStop => by
      have marked := part.marked (1 + index) (by simp only [size_choice]; omega) (by
        rw [← Nat.add_assoc]
        exact notStop)
      rw [← Nat.add_assoc] at marked
      simpa using marked
    start := Nat.lt_succ_of_lt part.start
    outside := fun owns => part.outside owns.inChoice }
  refine ⟨conforms.leaving, ?_, conforms.layouts⟩
  intro index owner small notStop isOwner
  rw [size_choice] at small
  rcases index with _ | index
  · exact absurd stopsAt notStop
  · rw [Nat.add_comm index, ← Nat.add_assoc] at isOwner notStop ⊢
    exact conforms.states index owner (by omega) notStop isOwner

end Options

def ownersOf (fragment : Fragment) (site : Site) (me : LayoutId) (owners : Nat → Option LayoutId) :
    Nat → Option LayoutId
  | 0 => some me
  | index + 1 => if fragment.stop = ⟨site.nextState + index⟩ then some me else owners index

theorem range_ownersOf {index : Nat} {owner : LayoutId}
    (charted : fragment.Charted site me pads proper extent reach owners)
    (isOwner : fragment.ownersOf site me owners index = some owner) :
    owner = me ∨ site.nextLayout ≤ owner.index ∧
    owner.index < site.nextLayout + fragment.layouts.size := by
  cases index with
  | zero => exact .inl (Option.some.inj isOwner).symm
  | succ index =>
    simp only [ownersOf] at isOwner
    split at isOwner
    · exact .inl (Option.some.inj isOwner).symm
    · exact charted.range index owner isOwner

theorem Charted.layout (follows : site.nextState = site.start.index + 1) (zero : site.offset = 0)
    (spans : pattern.Spans extent) (tidy : fragment.Tidy site)
    (lasts : fragment.Lasts site (pattern.isPadding) extent reach)
    (charted : fragment.Charted site me (pattern.isPadding) proper extent reach owners)
    (made : fragment.MadeIn site arena) (isRecord : arena.layout me = pattern.record site fragment)
    (known : me.index < site.nextLayout) (marked : ∀ index, index ≤ fragment.states.size →
      plot ⟨site.start.index + index⟩ = fragment.ownersOf site me owners index) :
    (∀ index owner, index ≤ fragment.states.size → plot ⟨site.start.index + index⟩ = some owner →
      arena.Describes plot proper owner ⟨site.start.index + index⟩) ∧
    arena.Settles plot me ∧
    ∀ index, index < fragment.layouts.size → arena.Settles plot ⟨site.nextLayout + index⟩ := by
  have inside := made.hosted.inside
  have isStart : arena.start me = site.start := congrArg Layout.start isRecord
  have isStop : arena.stop me = fragment.stop := congrArg Layout.stop isRecord
  have isSize : (arena.layout me).size = extent :=
    (congrArg Layout.size isRecord).trans spans.size_eq
  have isPadding : (arena.layout me).padding = pattern.isPadding := congrArg Layout.padding isRecord
  have ownsStart : arena.Owns plot me site.start := ⟨by omega, marked 0 (Nat.zero_le _)⟩
  have startOffset : arena.offset site.start = 0 := by rw [offset, made.start, zero]
  have shift (index : Nat) : site.start.index + (index + 1) = site.nextState + index := by omega
  have markedInner (index : Nat) (small : index < fragment.states.size) : plot
      ⟨site.nextState + index⟩ =
      if fragment.stop = ⟨site.nextState + index⟩ then some me else owners index := by
    have here := marked (index + 1) small
    rwa [shift] at here
  by_cases still : fragment.stop = site.start
  · have empty := tidy.eq_nothing (by omega) still
    subst empty
    have describes : arena.Describes plot proper me site.start := by
      refine ⟨?_, ?_, fun _ => made.edges_start, fun _ notStop => absurd isStop.symm notStop⟩
      · rw [made.edges_start]
        simp [nothing]
      · rw [made.start, isStop]
        simp [nothing]
    refine ⟨?_, ⟨isStart ▸ ownsStart, isStop ▸ ownsStart, isStart ▸ startOffset, ?_⟩,
      by simp [nothing]⟩
    · intro index _ small isOwner
      have first : index = 0 := by simpa [nothing] using small
      subst first
      rw [marked 0 (Nat.zero_le _)] at isOwner
      exact Option.some.inj isOwner ▸ describes
    · intro _ sized
      rw [isSize, lasts.still still] at sized
      rw [isStop]
      exact startOffset.trans (Option.some.inj sized)
  rcases tidy.stop_owned still with ⟨place, old, isPlace, isOld, _⟩
  have placeInside := (Array.getElem?_eq_some_iff.mp isOld).1
  have ownsStop : arena.Owns plot me fragment.stop := by
    refine ⟨Nat.lt_of_lt_of_le (tidy.stop_lt (by omega)) inside, ?_⟩
    rw [isPlace, markedInner place placeInside, if_pos isPlace]
  have reached : arena.offset fragment.stop = satAdd site.offset reach := by
    rw [offset, made.stop place old isPlace isOld]
    exact lasts.place place old isPlace isOld
  have ends (size : Nat) (sized : (arena.layout me).size = some size) : size ≤ cap ∧
      reach = size := by
    rw [isSize] at sized
    subst sized
    exact ⟨spans.2, lasts.exact size rfl⟩
  have conforms := charted.conforms {
    hosted := made.hosted
    marked := fun index small notStop => by rw [markedInner index small, if_neg notStop]
    start := by rw [isStart]; omega
    known := known
    outside := fun _ => isStop
    owns := ownsStop
    notStart := fun same => still (same.trans isStart)
    pads := fun padding => isPadding ▸ padding
    reached := reached
    sized := fun size sized => (ends size sized).imp_right fun same => by omega
    unsized := fun none => ⟨isSize.trans none, isStop.symm⟩ }
  refine ⟨?_, ⟨isStart ▸ ownsStart, isStop ▸ ownsStop, isStart ▸ startOffset, ?_⟩, conforms.layouts⟩
  · intro index owner small isOwner
    cases index with
    | zero =>
      rw [marked 0 (Nat.zero_le _)] at isOwner
      obtain rfl : me = owner := Option.some.inj isOwner
      have notStop : site.start ≠ arena.stop me := fun same => still (isStop.symm.trans same.symm)
      change arena.Describes plot proper me site.start
      refine ⟨?_, ?_, fun same => absurd same notStop, fun padding _ => ?_⟩
      · have leaving := conforms.leaving
        rw [retargetEdges_self] at leaving
        rw [made.edges_start, startOffset, ← zero]
        exact leaving
      · refine iff_of_false ?_ notStop
        rw [made.start]
        simp [still]
      · rw [made.edges_start]
        exact lasts.leaves (isPadding ▸ padding) still
    | succ index =>
      rw [shift] at isOwner ⊢
      by_cases atStop : fragment.stop = ⟨site.nextState + index⟩
      · rw [markedInner index small, if_pos atStop, Option.some.injEq] at isOwner
        subst isOwner
        have noEdges := made.edges_stop tidy still
        rw [← atStop]
        refine ⟨by simp [noEdges], ?_, fun _ => noEdges,
          fun _ notStop => absurd isStop.symm notStop⟩
        rw [made.stop place old isPlace isOld]
        exact iff_of_true rfl isStop.symm
      · exact conforms.states index owner small atStop isOwner
  · intro size sized
    rcases ends size sized with ⟨small, isReach⟩
    rw [isStop, reached, zero, isReach, satAdd_eq (by omega), Nat.zero_add]

theorem Charted.repeated {unit : Nat} (tidy : fragment.Tidy site.body)
    (lasts : fragment.Lasts site.body (body.isPadding) (some unit) reach)
    (spans : body.Spans (some unit)) (positive : unit ≠ 0) (isPadding : pads → body.isPadding)
    (rounds : Pattern.RoundsSpan unit extent count)
    (charted : fragment.Charted site.body ⟨site.nextLayout⟩ (body.isPadding) proper (some unit)
      reach owners) :
    (fragment.repeated site (body.record site.body fragment) count offset).Charted site me pads
      proper extent (unit * count.least) fun index => if index < 2 then none else fragment.ownersOf
        site.body ⟨site.nextLayout⟩ owners (index - 2) := by
  refine ⟨?_, fun {arena plot stop} part => ?_⟩
  · intro index owner isOwner
    right
    split at isOwner
    · simp at isOwner
    · simp only [layouts_repeated, Array.size_append, size_toArray, length_singleton]
      have range := range_ownersOf charted isOwner
      simp only [Site.body] at range
      rcases range with rfl | range
      · exact ⟨Nat.le_refl _, by simp only; omega⟩
      · omega
  rcases part.hosted.of_repeated tidy with ⟨made, isRecord⟩
  have room := part.hosted.room
  simp only [layouts_repeated, Array.size_append, size_toArray, length_singleton] at room
  have isSize : (arena.layout ⟨site.nextLayout⟩).size = some unit :=
    (congrArg Layout.size isRecord).trans spans.size_eq
  have marked (index : Nat) (small : index ≤ fragment.states.size) : plot
      ⟨site.body.start.index + index⟩ = fragment.ownersOf site.body ⟨site.nextLayout⟩ owners
      index := by
    have marked := part.marked (2 + index) (by simp only [size_repeated]; omega) (by
      rw [stop_repeated, ne_eq, StateId.mk.injEq]
      omega)
    rw [if_neg (by omega), Nat.add_sub_cancel_left, ← Nat.add_assoc] at marked
    exact marked
  rcases charted.layout rfl rfl spans tidy lasts made isRecord (Nat.lt_succ_self _) marked with
    ⟨describes, settles, nested⟩
  refine ⟨?_, ?_, ?_⟩
  · rw [leaving_repeated, stop_repeated]
    simp only [retargetEdges, map_cons, map_nil, if_true, forall_mem_singleton]
    refine .rep ⟨by simp only; omega, part.known, part.owns, part.notStart,
      ⟨unit, isSize, positive⟩, ?_⟩ ?_ ?_
    · intro padding
      rw [isRecord]
      exact isPadding (part.pads padding)
    · cases count with
      | exact => exact rounds.1
      | atLeast => exact part.unsized rounds
    · rw [advance, bytes, isSize, Option.getD_some]
      exact part.advances
  · intro index owner small notStop isOwner
    rw [stop_repeated, ne_eq, StateId.mk.injEq] at notStop
    rw [size_repeated] at small
    by_cases reserved : index < 2
    · have marked := part.marked index (by simp only [size_repeated]; omega) (by
        rw [stop_repeated, ne_eq, StateId.mk.injEq]
        exact notStop)
      simp [marked, reserved] at isOwner
    · obtain ⟨rest, rfl⟩ := Nat.exists_eq_add_of_le (Nat.le_of_not_lt reserved)
      rw [← Nat.add_assoc] at isOwner ⊢
      exact describes rest owner (by omega) isOwner
  · intro index small
    cases index with
    | zero => exact settles
    | succ index =>
      rw [layouts_repeated, Array.size_append, size_toArray, length_singleton] at small
      rw [Nat.add_comm index, ← Nat.add_assoc]
      exact nested index (by omega)

end Fragment

namespace Pattern

open Fragment

mutual

/-- What a pattern in shape becomes can be charted. -/
theorem charted_compile :
    (pattern : Pattern) → {site : Site} → {fragment : Fragment} → {extent : Option Nat} →
    {proper : Token → Prop} → (me : LayoutId) → site.start.index < site.nextState →
    site.offset ≤ cap → pattern.Spans extent → pattern.Leaves proper →
    pattern.compile site = .ok fragment → ∃ reach owners,
      fragment.Lasts site (pattern.isPadding) extent reach ∧
      fragment.Charted site me (pattern.isPadding) proper extent reach owners
  | leaf token, site, fragment, extent, proper, me, ready, _, spans, leaves, compiled => by
    simp only [compile, Except.ok.injEq] at compiled
    obtain rfl : some token.width = extent := spans.size_eq
    rw [← compiled]
    refine ⟨_, _, lasts_token ready, charted_token leaves fun pads => ?_⟩
    rcases token with (_ | _) | _ | _
    · rfl
    all_goals simp [isPadding] at pads
  | seq parts, site, fragment, extent, proper, me, ready, inside, spans, leaves, compiled => by
    simp only [compile] at compiled
    simpa only [isPadding] using charted_compileSeq parts me ready inside (spans_seq spans) leaves
      compiled
  | alt options, site, fragment, extent, proper, me, ready, inside, spans, leaves, compiled => by
    have size := spans.size_eq
    rcases spans_alt spans with ⟨width, rfl, small, fits⟩
    rcases compile_alt_eq_ok compiled with
      ⟨noBytes, ⟨_, rfl⟩ | ⟨noValue, rfl⟩⟩ | ⟨_, others, isOthers, rfl⟩ <;>
      rw [size, Option.getD_some] at *
    · rw [noBytes]
      exact ⟨_, _, lasts_nothing, charted_nothing⟩
    · rw [noBytes]
      refine ⟨_, _, lasts_deadEnd ready inside fun pads => ?_, charted_single (by simp)⟩
      have hasValue := hasValue_of_isPadding _ pads
      simp only [Pattern.hasValue] at hasValue
      exact Bool.false_ne_true (noValue.symm.trans hasValue)
    · have stopsAt := (aside_compileAlt options (Nat.lt_succ_of_lt ready) isOthers).stop
      rcases charted_compileAlt options me (Nat.lt_succ_of_lt ready) (Nat.lt_succ_self _) small fits
        leaves (fun pads => (allPadding_of_alt pads).2) isOthers inside with ⟨_, onward, charted⟩
      refine ⟨width, _, ⟨fun _ => Option.some.inj, ?_, ?_, ?_⟩, charted.choice stopsAt⟩
      · exact fun same => absurd (stopsAt.symm.trans same) (fresh_ne_start ready)
      · intro index _ isStop found
        have first : index = 0 := by simpa [Site.fresh] using (stopsAt.symm.trans isStop).symm
        rw [first, found_choice_zero, Option.some.injEq] at found
        rw [← found]
      · exact fun pads _ => onward pads (allPadding_of_alt pads).1
  | rep body count, site, fragment, extent, proper, me, ready, _, spans, leaves, compiled => by
    rcases spans_rep spans with ⟨_, bodySpans, positive, rounds⟩
    rcases compile_rep_eq_ok compiled with ⟨_, isInner, rfl⟩
    rcases charted_compile body ⟨site.nextLayout⟩ ready_body (Nat.zero_le _) bodySpans leaves
      isInner with
      ⟨_, _, lasts, charted⟩
    refine ⟨_, _, ⟨fun _ isWidth => ?_, fun same => ?_, ?_, ?_⟩,
      charted.repeated (tidy_compile body ready_body isInner) lasts bodySpans positive ?_ rounds⟩
    · subst isWidth
      exact rounds.least
    · rw [← same, stop_repeated] at ready
      exact absurd ready (by simp)
    · intro _ _ isStop found
      rw [stop_repeated, StateId.mk.injEq, Nat.add_left_cancel_iff] at isStop
      rw [← isStop, exit_repeated, Option.some.injEq] at found
      rw [← found, bodySpans.size_eq, Option.getD_some, satAdd_satMul]
    · exact fun _ _ => by simp [leaving_repeated]
    · simp only [isPadding, imp_self]

theorem charted_compileSeq : (parts : List Pattern) → {site : Site} → {fragment : Fragment} →
    {extent : Option Nat} → {proper : Token → Prop} → (me : LayoutId) →
    site.start.index < site.nextState → site.offset ≤ cap → SpanTogether extent parts →
    LeavesOfAll proper parts → compileSeq parts site = .ok fragment →
    ∃ reach owners, fragment.Lasts site (allPadding parts) extent reach ∧
      fragment.Charted site me (allPadding parts) proper extent reach owners
  | [], site, fragment, extent, proper, me, _, _, spans, _, compiled => by
    simp only [compileSeq, Except.ok.injEq] at compiled
    rw [← compiled, spanTogether_nil spans]
    exact ⟨_, _, lasts_nothing, charted_nothing⟩
  | part :: rest, site, fragment, extent, proper, me, ready, inside, spans, leaves, compiled => by
    rcases spanTogether_cons spans with ⟨front, _, partSpans, restSpan, joined, last⟩
    rcases compileSeq_cons_eq_ok compiled with ⟨first, second, isFirst, isSecond, rfl⟩
    have tidy := tidy_compile part ready isFirst
    have nextReady := tidy.stop_lt ready
    have next := tidy_compileSeq rest nextReady isSecond
    have atEnd (none : front = none) : second.stop = first.stop := by
      rw [last none, compileSeq, Except.ok.injEq] at isSecond
      rw [← isSecond]
      rfl
    rcases charted_compile part me ready inside partSpans leaves.1 isFirst with
      ⟨reach, _, lasts, charted⟩
    rcases charted_compileSeq rest me nextReady (Nat.min_le_right _ _) restSpan leaves.2
      isSecond with
      ⟨_, _, lastsToo, chartedToo⟩
    have isOffset (moves : second.stop ≠ first.stop) :
        satAdd site.offset (part.size.getD 0) = satAdd site.offset reach := by
      rw [partSpans.size_eq]
      cases front with
      | some width => rw [lasts.exact width rfl, Option.getD_some]
      | none => exact absurd (atEnd rfl) moves
    have isPadding : allPadding (part :: rest) → part.isPadding ∧ allPadding rest := by
      simp only [allPadding, Bool.and_eq_true, imp_self]
    rcases charted.followedBy ready inside tidy next lasts lastsToo isOffset joined isPadding atEnd
      chartedToo with
      ⟨_, both⟩
    exact ⟨_, _, lasts.followedBy ready inside tidy next lastsToo isOffset joined isPadding, both⟩

theorem charted_compileAlt : (options : List Pattern) → {site : Site} → {goal : StateId} →
    {fragment : Fragment} → {width : Nat} → {pads : Prop} → {proper : Token → Prop} →
    (me : LayoutId) → site.start.index < site.nextState → goal.index < site.nextState →
    width ≤ cap → FitEach options width → LeavesOfAll proper options → (pads → allPadding options) →
    compileAlt options site goal = .ok fragment → site.offset ≤ cap →
    ∃ owners, (pads → options ≠ [] → fragment.leaving ≠ []) ∧
      fragment.Charted site me pads proper (some width) width owners
  | [], site, goal, fragment, width, pads, proper, me, _, _, _, _, _, _, compiled, _ => by
    simp only [compileAlt, Except.ok.injEq] at compiled
    rw [← compiled]
    exact ⟨fun _ => none, fun _ notEmpty => absurd rfl
      notEmpty, by simp, fun _ => ⟨by simp, by simp, by simp⟩⟩
  | option :: rest, site, goal, fragment, width, pads, proper, me, ready, below, small, fits,
      leaves, padding, compiled, inside => by
    simp only [FitEach] at fits
    simp only [allPadding, Bool.and_eq_true] at padding
    rcases compileAlt_cons_eq_ok compiled with ⟨_, _, isFirst, moves, isOthers, rfl⟩
    have spans : option.Spans (some width) := ⟨fits.1, small⟩
    rcases charted_compile option me ready inside spans leaves.1 isFirst with ⟨_, _, lasts, charted⟩
    obtain rfl := lasts.exact width rfl
    rcases charted_compileAlt rest me (Nat.lt_add_right _ ready) (Nat.lt_add_right _ below) small
      fits.2 leaves.2 id isOthers inside with ⟨_, _, chartedToo⟩
    refine ⟨_, fun pads _ => ?_, charted.beside (tidy_compile option ready isFirst) below
      (aside_compileAlt rest (Nat.lt_add_right _ ready) isOthers).stop padding chartedToo⟩
    exact append_ne_nil_of_left_ne_nil (retargetEdges_ne_nil (lasts.leaves (padding pads).1 moves))
      _

end

end Pattern

end Recast
