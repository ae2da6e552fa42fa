import Recast.Proofs.Arena.Hosted

/-!
# Layouts unfold patterns

What is still to come at a state of a layout is a list of patterns. The edges of the state are what
the patterns may begin with, and lead to states at which the rest of them is still to come
(`Arena.Unfolds`, `Arena.unfolds_define`).
-/

namespace Recast

open Pattern List Arena

variable {token : Token} {body : Pattern} {count : Count} {options rest patterns : List Pattern}
  {head : Head} {goal : StateId}

namespace Pattern

inductive Head where
  | token (token : Token)
  | rep (body : Pattern) (count : Count)

/-- The patterns, in turn, may begin with the head, and then go on with the rest. A choice without
bytes is no choice: all that counts is whether it has a value. -/
inductive Begins : List Pattern → Head → List Pattern → Prop
  | token (token : Token) (rest : List Pattern) : Begins (.leaf token :: rest) (.token token) rest
  | rep (body : Pattern) (count : Count) (rest : List Pattern) :
      Begins (.rep body count :: rest) (.rep body count) rest
  | seq {parts rest after : List Pattern} {head : Head}
      (begins : Begins (parts ++ rest) head after) :
      Begins (.seq parts :: rest) head after
  | option {options rest after : List Pattern} {option : Pattern} {head : Head}
      (bytes : (alt options).size.getD 0 ≠ 0) (member : option ∈ options)
      (begins : Begins (option :: rest) head after) : Begins (.alt options :: rest) head after
  | empty {options rest after : List Pattern} {head : Head}
      (noBytes : (alt options).size.getD 0 = 0) (hasValue : anyHasValue options)
        (begins : Begins rest head after) :
      Begins (.alt options :: rest) head after

inductive Done : List Pattern → Prop
  | nil : Done []
  | seq {parts rest : List Pattern} (done : Done (parts ++ rest)) : Done (.seq parts :: rest)
  | empty {options rest : List Pattern} (noBytes : (alt options).size.getD 0 = 0)
      (hasValue : anyHasValue options) (done : Done rest) : Done (.alt options :: rest)

section Cases

variable {parts after : List Pattern}

@[simp]
theorem begins_leaf :
    Begins (.leaf token :: rest) head after ↔ head = .token token ∧ after = rest := by
  constructor
  · rintro ⟨⟩
    exact ⟨rfl, rfl⟩
  · rintro ⟨rfl, rfl⟩
    exact .token token after

@[simp]
theorem begins_rep :
    Begins (.rep body count :: rest) head after ↔ head = .rep body count ∧ after = rest := by
  constructor
  · rintro ⟨⟩
    exact ⟨rfl, rfl⟩
  · rintro ⟨rfl, rfl⟩
    exact .rep body count after

@[simp]
theorem begins_seq :
    Begins (.seq parts :: rest) head after ↔ Begins (parts ++ rest) head after := by
  constructor
  · rintro ⟨⟩
    assumption
  · exact .seq

theorem begins_alt (bytes : (alt options).size.getD 0 ≠ 0) :
    Begins (.alt options :: rest) head after ↔
    ∃ option ∈ options, Begins (option :: rest) head after := by
  constructor
  · intro begins
    cases begins with
    | option _ member begins => exact ⟨_, member, begins⟩
    | empty noBytes => exact absurd noBytes bytes
  · rintro ⟨_, member, begins⟩
    exact .option bytes member begins

theorem begins_empty (noBytes : (alt options).size.getD 0 = 0) :
    Begins (.alt options :: rest) head after ↔ anyHasValue options ∧ Begins rest head after := by
  constructor
  · intro begins
    cases begins with
    | option bytes => exact absurd noBytes bytes
    | empty _ hasValue begins => exact ⟨hasValue, begins⟩
  · rintro ⟨hasValue, begins⟩
    exact .empty noBytes hasValue begins

@[simp]
theorem done_seq : Done (.seq parts :: rest) ↔ Done (parts ++ rest) := by
  constructor
  · rintro ⟨⟩
    assumption
  · exact .seq

theorem not_done_alt (bytes : (alt options).size.getD 0 ≠ 0) : ¬ Done (.alt options :: rest) := by
  intro done
  cases done with
  | empty noBytes => exact bytes noBytes

theorem done_empty (noBytes : (alt options).size.getD 0 = 0) :
    Done (.alt options :: rest) ↔ anyHasValue options ∧ Done rest := by
  constructor
  · intro done
    cases done with
    | empty _ hasValue done => exact ⟨hasValue, done⟩
  · rintro ⟨hasValue, done⟩
    exact .empty noBytes hasValue done

end Cases

end Pattern

namespace Arena

open Pattern (Head Begins Done)

variable {arena : Arena}

section Definition

variable (arena : Arena) (unfolds : StateId → StateId → List Pattern → Prop)

/-- The label says what the head does: a repeat leads through a layout for its body. -/
inductive Labels : Head → Label → Prop
  | token (token : Token) : Labels (.token token) (.token token)
  | rep {body : Pattern} {layout : LayoutId}
      (isBody : unfolds (arena.stop layout) (arena.start layout) [body])
        (isSize : (arena.layout layout).size = body.size) (count : Count) :
          Labels (.rep body count) (.rep layout count)

/-- The edges are for what may come first, and lead to states at which the rest is still to come. -/
structure Opens (goal : StateId) (edges : List Edge) (begins : Head → List Pattern → Prop) : Prop
    where
  forth : ∀ edge ∈ edges, ∃ head rest, begins head rest ∧ arena.Labels unfolds head edge.label ∧
    unfolds goal edge.target rest
  back : ∀ head rest, begins head rest → ∃ edge ∈ edges, arena.Labels unfolds head edge.label ∧
    unfolds goal edge.target rest

/-- Related are states of which the first is to be reached from the second by way of the patterns.
-/
structure Unfolding : Prop where
  opens : ∀ goal state patterns, unfolds goal state patterns →
    arena.Opens unfolds goal (arena.edges state) (Begins patterns)
  done : ∀ goal state patterns, unfolds goal state patterns → (state = goal ↔ Done patterns)

end Definition

/-- What is still to come at the state, up to the goal, are the patterns in turn. -/
def Unfolds (arena : Arena) (goal state : StateId) (patterns : List Pattern) : Prop :=
  ∃ unfolds, arena.Unfolding unfolds ∧ unfolds goal state patterns

section Unfolds

variable {unfolds wider : StateId → StateId → List Pattern → Prop} {state : StateId}
  {edges more : List Edge} {begins others : Head → List Pattern → Prop}

section

variable (imp : ∀ goal state patterns, unfolds goal state patterns → wider goal state patterns)
include imp

theorem Labels.mono {label : Label} (labels : arena.Labels unfolds head label) :
    arena.Labels wider head label := by
  cases labels with
  | token token => exact .token token
  | rep isBody isSize count => exact .rep (imp _ _ _ isBody) isSize count

theorem Opens.mono (opens : arena.Opens unfolds goal edges begins) :
    arena.Opens wider goal edges begins where
  forth edge member := by
    rcases opens.forth edge member with ⟨head, rest, isFirst, labels, onward⟩
    exact ⟨head, rest, isFirst, labels.mono imp, imp _ _ _ onward⟩
  back head rest isFirst := by
    rcases opens.back head rest isFirst with ⟨edge, member, labels, onward⟩
    exact ⟨edge, member, labels.mono imp, imp _ _ _ onward⟩

end

theorem Opens.of_iff (same : ∀ head rest, begins head rest ↔ others head rest)
    (opens : arena.Opens unfolds goal edges begins) : arena.Opens unfolds goal edges others := by
  have isSame : begins = others := funext fun head => funext fun rest => propext (same head rest)
  exact isSame ▸ opens

theorem Opens.append (opens : arena.Opens unfolds goal edges begins)
    (opensToo : arena.Opens unfolds goal more others) :
    arena.Opens unfolds goal (edges ++ more) fun head rest => begins head rest ∨
    others head rest where
  forth edge member := by
    rcases mem_append.mp member with inEdges | inMore
    · rcases opens.forth edge inEdges with ⟨head, rest, isFirst, onward⟩
      exact ⟨head, rest, .inl isFirst, onward⟩
    · rcases opensToo.forth edge inMore with ⟨head, rest, isFirst, onward⟩
      exact ⟨head, rest, .inr isFirst, onward⟩
  back head rest isFirst := by
    rcases isFirst with isFirst | isFirst
    · rcases opens.back head rest isFirst with ⟨edge, member, onward⟩
      exact ⟨edge, mem_append_left _ member, onward⟩
    · rcases opensToo.back head rest isFirst with ⟨edge, member, onward⟩
      exact ⟨edge, mem_append_right _ member, onward⟩

theorem opens_nil (none : ∀ head rest, ¬ begins head rest) : arena.Opens unfolds goal [] begins :=
  ⟨by simp, fun head rest isFirst => absurd isFirst (none head rest)⟩

theorem opens_single {label : Label} {target : StateId} (labels : arena.Labels unfolds head label)
    (onward : unfolds goal target rest)
    (only : ∀ other after, begins other after ↔ other = head ∧ after = rest) :
    arena.Opens unfolds goal [⟨label, target⟩] begins where
  forth edge member := by
    rw [mem_singleton] at member
    subst member
    exact ⟨head, rest, (only head rest).mpr ⟨rfl, rfl⟩, labels, onward⟩
  back other after isFirst := by
    rcases (only other after).mp isFirst with ⟨rfl, rfl⟩
    exact ⟨_, mem_singleton_self _, labels, onward⟩

theorem unfolding_unfolds (arena : Arena) : arena.Unfolding arena.Unfolds where
  opens goal state patterns := by
    rintro ⟨unfolds, unfolding, related⟩
    exact (unfolding.opens goal state patterns related).mono fun _ _ _ isRelated =>
      ⟨unfolds, unfolding, isRelated⟩
  done goal state patterns := by
    rintro ⟨_, unfolding, related⟩
    exact unfolding.done goal state patterns related

theorem Unfolds.opens (unfolds : arena.Unfolds goal state patterns) :
    arena.Opens arena.Unfolds goal (arena.edges state) (Begins patterns) :=
  (unfolding_unfolds arena).opens _ _ _ unfolds

theorem Unfolds.done (unfolds : arena.Unfolds goal state patterns) : state = goal ↔ Done patterns :=
  (unfolding_unfolds arena).done _ _ _ unfolds

theorem Unfolds.intro (opens : arena.Opens arena.Unfolds goal (arena.edges state) (Begins patterns))
    (done : state = goal ↔ Done patterns) : arena.Unfolds goal state patterns := by
  let related (other here : StateId) (left : List Pattern) : Prop :=
    arena.Unfolds other here left ∨ other = goal ∧ here = state ∧ left = patterns
  refine ⟨related, ⟨?_, ?_⟩, .inr ⟨rfl, rfl, rfl⟩⟩
  · rintro _ _ _ (unfolds | ⟨rfl, rfl, rfl⟩)
    · exact unfolds.opens.mono fun _ _ _ => .inl
    · exact opens.mono fun _ _ _ => .inl
  · rintro _ _ _ (unfolds | ⟨rfl, rfl, rfl⟩)
    · exact unfolds.done
    · exact done

end Unfolds

end Arena

namespace Fragment

open Pattern (Head Begins Done)

variable {fragment first second : Fragment} {site : Site} {arena : Arena} {others : List Pattern}
  {offset : Nat}

/-- The fragment is for the patterns in turn: in any arena that holds it, its own edges are for what
they may begin with. -/
structure Unfolds (fragment : Fragment) (site : Site) (patterns : List Pattern) : Prop where
  still : fragment.stop = site.start → ∀ rest, Done (patterns ++ rest) = Done rest ∧
    Begins (patterns ++ rest) = Begins rest
  moves : fragment.stop ≠ site.start → ∀ rest, ¬ Done (patterns ++ rest)
  opens : ∀ {arena : Arena} {stop goal : StateId} {rest : List Pattern},
    fragment.stop ≠ site.start → fragment.HostedBy site arena stop →
      (fragment.Owns site goal → goal = stop) → arena.Unfolds goal stop rest →
    arena.Opens arena.Unfolds goal (retargetEdges fragment.stop stop fragment.leaving)
      (Begins (patterns ++ rest))

structure Offers (fragment : Fragment) (site : Site) (options : List Pattern) : Prop where
  opens : ∀ {arena : Arena} {stop goal : StateId} {rest : List Pattern},
    fragment.HostedBy site arena stop → (fragment.Owns site goal → goal = stop) →
      arena.Unfolds goal stop rest →
    arena.Opens arena.Unfolds goal (retargetEdges fragment.stop stop fragment.leaving)
      fun head after => ∃ option ∈ options, Begins (option :: rest) head after

theorem Unfolds.congr {other : Site} (unfolds : fragment.Unfolds other patterns)
    (start : other.start = site.start) (nextState : other.nextState = site.nextState)
    (nextLayout : other.nextLayout = site.nextLayout) : fragment.Unfolds site patterns := by
  cases site
  cases other
  subst start nextState nextLayout
  refine ⟨unfolds.still, unfolds.moves, fun moves hosted => unfolds.opens moves ?_⟩
  exact ⟨hosted.states, hosted.layouts, hosted.stop, hosted.inside, hosted.room⟩

theorem Unfolds.of_eq (done : ∀ rest, Done (patterns ++ rest) = Done (others ++ rest))
    (begins : ∀ rest, Begins (patterns ++ rest) = Begins (others ++ rest))
    (unfolds : fragment.Unfolds site patterns) :
    fragment.Unfolds site others where
  still same rest := done rest ▸ begins rest ▸ unfolds.still same rest
  moves moves rest := done rest ▸ unfolds.moves moves rest
  opens moves hosted outside onward := begins _ ▸ unfolds.opens moves hosted outside onward

theorem Unfolds.start (unfolds : fragment.Unfolds site patterns) {stop : StateId}
    (moves : fragment.stop ≠ site.start) (hosted : fragment.HostedBy site arena stop)
    (outside : fragment.Owns site goal → goal = stop) (notGoal : site.start ≠ goal)
    (edges : arena.edges site.start = retargetEdges fragment.stop stop fragment.leaving)
    (onward : arena.Unfolds goal stop rest) : arena.Unfolds goal site.start (patterns ++ rest) := by
  refine .intro ?_ (iff_of_false notGoal (unfolds.moves moves rest))
  rw [edges]
  exact unfolds.opens moves hosted outside onward

theorem Unfolds.alone (unfolds : fragment.Unfolds site patterns) (tidy : fragment.Tidy site)
    (ready : site.start.index < site.nextState) (made : fragment.MadeIn site arena) :
    arena.Unfolds fragment.stop site.start patterns := by
  by_cases still : fragment.stop = site.start
  · have empty := tidy.eq_nothing ready still
    rcases unfolds.still still [] with ⟨done, begins⟩
    rw [append_nil] at done begins
    refine .intro ?_ ?_
    · rw [made.edges_start, empty, begins]
      exact opens_nil fun _ _ => nofun
    · rw [done]
      exact iff_of_true still.symm .nil
  · have final : arena.Unfolds fragment.stop fragment.stop [] := by
      refine .intro ?_ (iff_of_true rfl .nil)
      rw [made.edges_stop tidy still]
      exact opens_nil fun _ _ => nofun
    have whole := unfolds.start still made.hosted (fun _ => rfl) (Ne.symm still)
      (by rw [made.edges_start, retargetEdges_self]) final
    rwa [append_nil] at whole

theorem unfolds_nothing (done : ∀ rest, Done (patterns ++ rest) = Done rest)
    (begins : ∀ rest, Begins (patterns ++ rest) = Begins rest) :
    (nothing site).Unfolds site patterns where
  still _ rest := ⟨done rest, begins rest⟩
  moves moves := absurd rfl moves
  opens moves := absurd rfl moves

theorem unfolds_deadEnd (ready : site.start.index < site.nextState)
    (done : ∀ rest, ¬ Done (patterns ++ rest))
    (begins : ∀ rest head after, ¬ Begins (patterns ++ rest) head after) :
    (deadEnd site).Unfolds site patterns where
  still same := absurd same (fresh_ne_start ready)
  moves _ := done
  opens _ _ _ _ := opens_nil (begins _)

theorem unfolds_token (ready : site.start.index < site.nextState) :
    (edge site (.token token) offset).Unfolds site [.leaf token] where
  still same := absurd same (fresh_ne_start ready)
  moves _ _ := nofun
  opens {arena stop goal rest} _ _ _ onward := by
    have leaving : retargetEdges (edge site (.token token) offset).stop stop
        (edge site (.token token) offset).leaving = [⟨.token token, stop⟩] := by
      simp [edge, retargetEdges]
    rw [leaving]
    exact opens_single (.token token) onward fun _ _ => begins_leaf

theorem Unfolds.followedBy (ready : site.start.index < site.nextState) (tidy : first.Tidy site)
    (next : second.Tidy (site.after first offset)) (unfolds : first.Unfolds site patterns)
    (nextUnfolds : second.Unfolds (site.after first offset) others) :
    (first.followedBy site second).Unfolds site (patterns ++ others) := by
  by_cases still : first.stop = site.start
  · have empty := tidy.eq_nothing ready still
    subst empty
    rw [nothing_followedBy]
    have here : second.Unfolds site others := nextUnfolds.congr rfl rfl rfl
    refine here.of_eq ?_ ?_
    · intro _
      rw [append_assoc, (unfolds.still still _).1]
    · intro _
      rw [append_assoc, (unfolds.still still _).2]
  by_cases stays : second.stop = first.stop
  · have empty := next.eq_nothing (tidy.stop_lt ready) stays
    subst empty
    rw [followedBy_nothing ready tidy]
    refine ⟨fun same => absurd same still, fun moves _ => ?_, fun moves hosted outside onward => ?_⟩
    · rw [append_assoc]
      exact unfolds.moves moves _
    · rw [append_assoc]
      refine unfolds.opens moves hosted outside (.intro ?_ ?_)
      · rw [(nextUnfolds.still stays _).2]
        exact onward.opens
      · rw [(nextUnfolds.still stays _).1]
        exact onward.done
  have stopAt : (first.followedBy site second).stop = second.stop := rfl
  rcases next.stop_owned stays with ⟨last, lastState, isStop, isLast, _⟩
  have stopBehind : ¬ first.Owns site second.stop := by
    simp only [Owns, isStop, Site.after]
    omega
  have sameLeaving (stop : StateId) : retargetEdges second.stop stop first.leaving =
      first.leaving := by
    refine retargetEdges_of_ne fun edge member same => stopBehind ?_
    exact same ▸ tidy.owns_leaving member
  rcases tidy.stop_owned still with ⟨place, old, isPlace, isOld, _⟩
  have stopOwned : first.Owns site first.stop := by
    rw [isPlace]
    exact owns_of_found isOld
  refine ⟨?_, ?_, ?_⟩
  · intro same
    rw [stopAt, isStop] at same
    rw [← same] at ready
    simp only [Site.after] at ready
    omega
  · intro _ _
    rw [append_assoc]
    exact unfolds.moves still _
  · intro arena stop goal rest _ hosted outside onward
    rcases hosted.of_followedBy tidy next still stays with ⟨firstHosted, secondHosted, state⟩
    -- The end of the whole never stands for a state of the first part.
    have outsideFirst : ¬ first.Owns site goal := by
      intro owns
      rw [outside owns.inFirst] at owns
      rcases hosted.stop with same | below
      · rw [same, stopAt] at owns
        exact stopBehind owns
      · simp only [Owns] at owns
        omega
    have middle : arena.Unfolds goal first.stop (others ++ rest) := by
      refine nextUnfolds.start stays secondHosted (fun owns => outside owns.inSecond) ?_
        (congrArg State.edges (state place old isPlace isOld)) onward
      exact fun same => outsideFirst (same ▸ stopOwned)
    have opens := unfolds.opens still firstHosted (fun owns => absurd owns outsideFirst) middle
    rw [retargetEdges_self] at opens
    rw [stopAt, leaving_followedBy still, sameLeaving, append_assoc]
    exact opens

theorem Offers.beside {option : Pattern} (tidy : first.Tidy site) (moves : first.stop ≠ site.start)
    (below : goal.index < site.nextState) (stopsAt : second.stop = goal)
    (unfolds : first.Unfolds site [option]) (offers : second.Offers (site.beside first) options) :
    ((first.retarget goal).beside second).Offers site (option :: options) := by
  refine ⟨fun {_ _ _ _} hosted outside onward => ?_⟩
  rcases hosted.of_beside tidy below stopsAt with ⟨firstHosted, secondHosted, leaving⟩
  have stopAt : ((first.retarget goal).beside second).stop = goal := stopsAt
  rw [stopAt, leaving]
  refine ((unfolds.opens moves firstHosted (fun owns => outside owns.inOption) onward).append
    (offers.opens secondHosted (fun owns => outside owns.inOthers) onward)).of_iff fun _ _ => ?_
  simp

theorem Offers.unfolds_choice (ready : site.start.index < site.nextState)
    (stopsAt : fragment.stop = site.fresh) (bytes : (alt options).size.getD 0 ≠ 0)
    (offers : fragment.Offers { site with nextState := site.nextState + 1 } options) :
    (fragment.choice offset).Unfolds site [.alt options] := by
  have notStart : (fragment.choice offset).stop ≠ site.start := by
    intro same
    exact fresh_ne_start ready (stopsAt ▸ same)
  refine ⟨fun same => absurd same notStart, fun _ _ => not_done_alt bytes, ?_⟩
  intro _ _ _ _ _ hosted outside onward
  refine (offers.opens hosted.of_choice (fun owns => outside owns.inChoice) onward).of_iff
    fun _ _ => ?_
  exact (begins_alt bytes).symm

section Repeats

variable {record : Layout}

theorem Unfolds.repeated (ready : site.start.index < site.nextState)
    (tidy : fragment.Tidy site.body) (unfolds : fragment.Unfolds site.body [body])
    (start : record.start = site.body.start) (stop : record.stop = fragment.stop)
    (size : record.size = body.size) :
    (fragment.repeated site record count offset).Unfolds site [.rep body count] := by
  have notStart : (fragment.repeated site record count offset).stop ≠ site.start := by
    intro same
    rw [← same, stop_repeated] at ready
    exact absurd ready (Nat.not_lt_of_le (Nat.le_add_right _ _))
  refine ⟨fun same => absurd same notStart, fun _ _ => nofun, ?_⟩
  intro arena exit _ _ _ hosted _ onward
  have leaving : retargetEdges (fragment.repeated site record count offset).stop exit
      (fragment.repeated site record count offset).leaving =
      [⟨.rep ⟨site.nextLayout⟩ count, exit⟩] := by
    simp [leaving_repeated, stop_repeated, retargetEdges]
  rcases hosted.of_repeated tidy with ⟨made, isRecord⟩
  have isBody : arena.Unfolds (arena.stop ⟨site.nextLayout⟩) (arena.start ⟨site.nextLayout⟩)
      [body] := by
    rw [Arena.stop, Arena.start, isRecord, start, stop]
    exact unfolds.alone tidy ready_body made
  rw [leaving]
  exact opens_single (.rep isBody (isRecord ▸ size) count) onward fun _ _ => begins_rep

end Repeats

end Fragment

namespace Pattern

open Fragment

mutual

theorem unfolds_compile : (pattern : Pattern) → {site : Site} → {fragment : Fragment} →
    site.start.index < site.nextState → pattern.compile site = .ok fragment →
    fragment.Unfolds site [pattern]
  | leaf token, site, fragment, ready, compiled => by
    simp only [compile, Except.ok.injEq] at compiled
    rw [← compiled]
    exact unfolds_token ready
  | seq parts, site, fragment, ready, compiled => by
    simp only [compile] at compiled
    refine (unfolds_compileSeq parts ready compiled).of_eq (fun rest => ?_) fun rest => ?_
    · exact propext done_seq.symm
    · exact funext fun head => funext fun after => propext begins_seq.symm
  | alt options, site, fragment, ready, compiled => by
    rcases compile_alt_eq_ok compiled with
      ⟨noBytes, ⟨hasValue, rfl⟩ | ⟨noValue, rfl⟩⟩ | ⟨bytes, others, isOthers, rfl⟩
    · refine unfolds_nothing (fun rest => ?_) fun rest => ?_
      · exact propext ((done_empty noBytes).trans (and_iff_right hasValue))
      · exact funext fun head => funext fun after =>
          propext ((begins_empty noBytes).trans (and_iff_right hasValue))
    · refine unfolds_deadEnd ready (fun rest done => ?_) fun _ _ _ begins => ?_
      · exact Bool.false_ne_true (noValue.symm.trans ((done_empty noBytes).mp done).1)
      · exact Bool.false_ne_true (noValue.symm.trans ((begins_empty noBytes).mp begins).1)
    · have aside := aside_compileAlt options (Nat.lt_succ_of_lt ready) isOthers
      exact (offers_compileAlt options (Nat.lt_succ_of_lt ready) (Nat.lt_succ_self _)
        isOthers).unfolds_choice ready aside.stop bytes
  | rep body count, site, fragment, ready, compiled => by
    rcases compile_rep_eq_ok compiled with ⟨_, isInner, rfl⟩
    exact (unfolds_compile body ready_body isInner).repeated ready
      (tidy_compile body ready_body isInner) rfl rfl rfl

theorem unfolds_compileSeq : (parts : List Pattern) → {site : Site} → {fragment : Fragment} →
    site.start.index < site.nextState → compileSeq parts site = .ok fragment →
    fragment.Unfolds site parts
  | [], site, fragment, _, compiled => by
    simp only [compileSeq, Except.ok.injEq] at compiled
    rw [← compiled]
    exact unfolds_nothing (fun _ => rfl) fun _ => rfl
  | part :: rest, site, fragment, ready, compiled => by
    rcases compileSeq_cons_eq_ok compiled with ⟨_, _, isFirst, isSecond, rfl⟩
    have tidy := tidy_compile part ready isFirst
    have next := tidy_compileSeq rest (tidy.stop_lt ready) isSecond
    exact (unfolds_compile part ready isFirst).followedBy ready tidy next
      (unfolds_compileSeq rest (tidy.stop_lt ready) isSecond)

theorem offers_compileAlt : (options : List Pattern) → {site : Site} → {fragment : Fragment} →
    {goal : StateId} → site.start.index < site.nextState → goal.index < site.nextState →
    compileAlt options site goal = .ok fragment → fragment.Offers site options
  | [], site, fragment, goal, _, _, compiled => by
    simp only [compileAlt, Except.ok.injEq] at compiled
    rw [← compiled]
    exact ⟨fun _ _ _ => opens_nil (by simp)⟩
  | option :: rest, site, fragment, goal, ready, below, compiled => by
    rcases compileAlt_cons_eq_ok compiled with ⟨_, _, isFirst, moves, isOthers, rfl⟩
    have aside := aside_compileAlt rest (Nat.lt_add_right _ ready) isOthers
    exact (offers_compileAlt rest (Nat.lt_add_right _ ready) (Nat.lt_add_right _ below)
      isOthers).beside (tidy_compile option ready isFirst) moves below aside.stop
      (unfolds_compile option ready isFirst)

end

end Pattern

namespace Arena

variable {arena larger : Arena} {id : LayoutId} {pattern : Pattern}

theorem unfolds_define (inside : id.index < arena.layouts.size)
    (defined : arena.define id pattern = .ok larger) :
    larger.Unfolds (larger.stop id) (larger.start id) [pattern] := by
  rcases define_eq_ok defined with ⟨_, compiled, isStates, isLayouts⟩
  rw [start, stop, (layout_define isLayouts inside).1]
  exact (unfolds_compile pattern ready_newSite compiled).alone
    (tidy_compile pattern ready_newSite compiled) ready_newSite
    (madeIn_define compiled isStates isLayouts inside)

end Arena

end Recast
