import Recast.Proofs.Inclusion.Verdict
import Recast.Proofs.Position.Live

/-!
# Sources that are served

`Rules.Serves` follows one sequence of letters from one position of the destination. If every value
of a live source is served, the destination can go on reading the source, letter by letter and also
one run at a time (`sustains_of_serves`), wherever every token has bytes: these settle which part of
the destination's run is read by which element.
-/

namespace Recast

open Position List

variable {arena : Arena} {plot : Plot} {proper : Token → Prop} {root : LayoutId}
  {position next : Position} {token : Token} {letter : Letter} {letters : List Letter} {loop : Loop}
  {outer : List Loop} {rounds : Nat}

theorem Token.Proper.exists_holds {layouts : Nat} (isProper : token.Proper layouts) :
    ∃ letter, token.Holds letter := by
  rcases token with (_ | _) | target | name
  · exact ⟨_, .uninit⟩
  · rcases isProper with ⟨_, member⟩
    exact ⟨_, .byte member⟩
  · exact ⟨_, .reference target⟩
  · exact ⟨_, .marker name⟩

namespace Position

variable {other : Position} {more : List Letter}

/-- The letters can be read from the position up to the end of the value. -/
def Speaks (arena : Arena) (position : Position) (letters : List Letter) : Prop :=
  ∃ tokens, Trace arena position tokens ∧ Forall₂ Token.Holds tokens letters

theorem Speaks.read (reads : Reads arena position token next) (holds : token.Holds letter)
    (speaks : Speaks arena next letters) : Speaks arena position (letter :: letters) := by
  rcases speaks with ⟨tokens, trace, held⟩
  exact ⟨token :: tokens, .reads reads trace, .cons holds held⟩

theorem Speaks.of_ends (ends : Ends arena position) : Speaks arena position [] :=
  ⟨[], .ends ends, .nil⟩

theorem Speaks.of_alike (alike : Alike arena position other)
    (speaks : Speaks arena position letters) :
    Speaks arena other letters := by
  rcases speaks with ⟨tokens, trace, held⟩
  exact ⟨tokens, alike.trace trace, held⟩

section

variable (charts : arena.Charts plot proper)
include charts

theorem Speaks.inside (nest : Nest arena plot root (loop :: outer))
    (within : position.Within arena plot loop.body) (speaks : Speaks arena position letters)
    (rest : Speaks arena (roundEnd arena loop outer) more) :
    Speaks arena (position.inside (loop :: outer)) (letters ++ more) := by
  rcases speaks with ⟨_, trace, held⟩
  induction trace generalizing letters with
  | ends ends =>
    cases held
    exact rest.of_alike (alike_roundEnd charts nest within ends).symm
  | reads reads _ ih =>
    cases held with
    | cons holds others =>
      exact .read (reads.inside _) holds (ih (reads.within charts within) others)

theorem Speaks.width_eq (sized : arena.Sized root) (within : position.Within arena plot root)
    (speaks : Speaks arena position letters) :
    (letters.map Letter.width).sum = left arena root position := by
  rcases speaks with ⟨_, trace, held⟩
  induction trace generalizing letters with
  | ends ends =>
    cases held
    exact (ends.left_eq charts sized within).symm
  | reads reads _ ih =>
    cases held with
    | cons holds others =>
      rw [map_cons, sum_cons, ih (reads.within charts within) others, holds.width_eq,
        reads.left_eq charts sized within]

theorem Speaks.solid (solid : ∀ token, proper token → token.width ≠ 0)
    (within : position.Within arena plot root) (speaks : Speaks arena position letters) :
    ∀ letter ∈ letters, letter.width ≠ 0 := by
  rcases speaks with ⟨_, trace, held⟩
  have each := trace.isProper charts within
  clear trace
  induction held with
  | nil => simp
  | cons holds _ ih =>
    rw [forall_mem_cons] at each ⊢
    refine ⟨?_, ih each.2⟩
    rw [holds.width_eq]
    exact solid _ each.1

theorem Alive.exists_speaks (admits : ∀ token, proper token → token.Proper arena.layouts.size)
    (within : position.Within arena plot root) (alive : Alive arena root position) :
    ∃ letters, Speaks arena position letters := by
  rcases alive.finishes charts within with ⟨tokens, trace⟩
  suffices held : ∃ letters, Forall₂ Token.Holds tokens letters by
    rcases held with ⟨letters, held⟩
    exact ⟨letters, tokens, trace, held⟩
  have each := trace.isProper charts within
  clear trace
  induction tokens with
  | nil => exact ⟨[], .nil⟩
  | cons token _ ih =>
    rw [forall_mem_cons] at each
    rcases (admits token each.1).exists_holds with ⟨letter, holds⟩
    rcases ih each.2 with ⟨letters, held⟩
    exact ⟨letter :: letters, .cons holds held⟩

end

section Runs

variable {run : Run}

theorem Alive.after (alive : Alive arena root (roundEnd arena (run.loop rounds) run.outer)) :
    Alive arena root (run.after arena rounds) := by
  simp only [Run.after]
  split
  · exact ⟨alive.live, alive.lively.2.1, alive.lively.2.2⟩
  · exact alive

end Runs

theorem value_iff_speaks (charts : arena.Charts plot proper)
    (inside : root.index < arena.layouts.size) :
    arena.Value root letters ↔ Speaks arena (.root arena root) letters := by
  simp only [Arena.Value, Speaks, walk_iff charts inside]

end Position

namespace Rules

variable {rules : Rules} {other : LayoutId} {source destination twin : Position}
  {element rest : List Letter} {footing : Set Position} {first second : Run}

/-- From its position, the destination reads the letters of a source up to their end, or up to its
own. -/
inductive Serves (rules : Rules) (arena : Arena) : List Letter → Position → Prop
  | finished {position : Position} (isOver : Over arena position) (letters : List Letter) :
      Serves rules arena letters position
  | stop {position : Position} (stops : Ends arena position ∨ Pads arena position) :
      Serves rules arena [] position
  | take {letter : Letter} {letters : List Letter} {position next : Position}
      (takes : rules.Takes arena letter position next) (onward : Serves rules arena letters next) :
      Serves rules arena (letter :: letters) position

theorem Over.of_alike (alike : Alike arena position twin) (isOver : Over arena position) :
    Over arena twin :=
  ⟨alike.ends.mp isOver.1, fun token next reads =>
    isOver.2 token next ((alike.reads _ _).mpr reads)⟩

theorem Serves.of_alike (solid : ∀ letter ∈ letters, letter.width ≠ 0)
    (alike : Alike arena position twin) (serves : rules.Serves arena letters position) :
    rules.Serves arena letters twin := by
  cases serves with
  | finished isOver => exact .finished (isOver.of_alike alike) _
  | stop stops => exact .stop (stops.imp alike.ends.mp alike.pads)
  | take takes onward => exact .take (takes.of_alike alike.symm (solid _ (.head _))) onward

section Inside

variable (charts : arena.Charts plot proper) (nest : Nest arena plot root (loop :: outer))
  (within : position.Within arena plot loop.body)

include charts nest within

theorem reads_of_inside (some : left arena loop.body position ≠ 0)
    (reads : Reads arena (position.inside (loop :: outer)) token next) :
    ∃ further, Reads arena position token further ∧ next = further.inside (loop :: outer) := by
  rcases (reads_inside charts within).mp reads with inner | ⟨ends, _⟩
  · exact inner
  · exact absurd (ends.left_eq charts (loop_repeats charts nest.1).isSized within) some

theorem Forgets.of_inside {width : Nat} (enough : width ≤ left arena loop.body position)
    (forgets : Forgets arena width (position.inside (loop :: outer)) next) :
    ∃ further, Forgets arena width position further ∧ next = further.inside (loop :: outer) := by
  induction width generalizing position with
  | zero =>
    cases forgets
    exact ⟨position, .done _, rfl⟩
  | succ width ih =>
    cases forgets with
    | more reads onward =>
      rcases reads_of_inside charts nest within (by omega) reads with ⟨middle, inner, rfl⟩
      have taken := inner.left_eq charts (loop_repeats charts nest.1).isSized within
      simp only [Token.width] at taken
      rcases ih (inner.within charts within) (by omega) onward with ⟨further, goesOn, rfl⟩
      exact ⟨further, .more inner goesOn, rfl⟩

theorem Takes.of_inside (some : letter.width ≠ 0)
    (enough : letter.width ≤ left arena loop.body position)
    (takes : rules.Takes arena letter (position.inside (loop :: outer)) next) :
    ∃ further, rules.Takes arena letter position further ∧
      next = further.inside (loop :: outer) := by
  have bytes : left arena loop.body position ≠ 0 := by omega
  rcases takes.reads_or_forgets with ⟨_, reads, _, fits⟩ | ⟨_, rfl, forgets⟩
  · rcases reads_of_inside charts nest within bytes reads with ⟨further, inner, rfl⟩
    exact ⟨further, fits inner, rfl⟩
  · rcases forgets.of_inside charts nest within enough with ⟨further, inner, rfl⟩
    exact ⟨further, .forgottenReference inner, rfl⟩

theorem ends_of_serves (solid : ∀ letter ∈ letters, letter.width ≠ 0)
    (bytes : ∀ token, proper token → token.width ≠ 0) (none : left arena loop.body position = 0)
    (serves : rules.Serves arena letters (position.inside (loop :: outer))) :
    Ends arena position := by
  have sized := (loop_repeats charts nest.1).isSized
  have ends_of_reads {token : Token} {next : Position}
      (reads : Reads arena (position.inside (loop :: outer)) token next) : Ends arena position := by
    rcases (reads_inside charts within).mp reads with ⟨further, inner, _⟩ | ⟨ends, _⟩
    · have taken := inner.left_eq charts sized within
      exact absurd (by omega) (bytes _ (inner.isProper charts within))
    · exact ends
  generalize isHere : position.inside (loop :: outer) = here at serves ends_of_reads
  cases serves with
  | finished isOver =>
    subst isHere
    exact ((ends_inside charts within).mp isOver.1).1
  | stop stops =>
    subst isHere
    rcases stops with ends | pads
    · exact ((ends_inside charts within).mp ends).1
    · rcases pads.finishes with ⟨_, trace⟩
      cases trace with
      | ends ends => exact ((ends_inside charts within).mp ends).1
      | reads reads => exact ends_of_reads reads
  | take takes =>
    rcases takes.reads_or_forgets with ⟨_, reads, _⟩ | ⟨source, rfl, forgets⟩
    · exact ends_of_reads reads
    · have some : source.width ≠ 0 := solid (.reference source) (.head _)
      generalize source.width = width at forgets some
      cases forgets with
      | done => exact absurd rfl some
      | more reads => exact ends_of_reads reads

theorem Serves.split (bytes : ∀ token, proper token → token.width ≠ 0)
    (solid : ∀ letter ∈ element ++ rest, letter.width ≠ 0)
    (width : (element.map Letter.width).sum = left arena loop.body position)
    (serves : rules.Serves arena (element ++ rest) (position.inside (loop :: outer))) :
    rules.Serves arena element position ∧ rules.Serves arena rest (roundEnd arena loop outer) := by
  have sized := (loop_repeats charts nest.1).isSized
  induction element generalizing position with
  | nil =>
    have ends := ends_of_serves charts nest within solid bytes width.symm serves
    exact ⟨.stop (.inl ends), serves.of_alike solid (alike_roundEnd charts nest within ends)⟩
  | cons letter others ih =>
    rw [map_cons, sum_cons] at width
    rw [cons_append, forall_mem_cons] at solid
    generalize isHere : position.inside (loop :: outer) = here at serves
    cases serves with
    | finished isOver =>
      subst isHere
      have none := ((ends_inside charts within).mp isOver.1).1.left_eq charts sized within
      exact absurd (by omega) solid.1
    | take takes onward =>
      subst isHere
      rcases takes.of_inside charts nest within solid.1 (by omega) with ⟨further, inner, rfl⟩
      have taken := inner.left_eq charts sized within
      rcases ih (inner.within charts within) solid.2 (by omega) onward with ⟨front, back⟩
      exact ⟨.take inner front, back⟩

end Inside

/-- Whatever the source goes on to say is served from some position of the destination. -/
structure Served (rules : Rules) (arena : Arena) (plot : Plot) (source : Position)
    (footing : Set Position) : Prop where
  origin : ∃ root, source.Within arena plot root ∧ Alive arena root source
  destination : ∀ position ∈ footing, ∃ root, position.Within arena plot root
  serves : ∀ letters, Speaks arena source letters →
    ∃ position ∈ footing, rules.Serves arena letters position

namespace Served

variable (charts : arena.Charts plot proper)
  (admits : ∀ token, proper token → token.Proper arena.layouts.size)

include charts admits

theorem nonempty (served : rules.Served arena plot source footing) : footing.Nonempty := by
  rcases served.origin with ⟨_, within, alive⟩
  rcases alive.exists_speaks charts admits within with ⟨letters, speaks⟩
  rcases served.serves letters speaks with ⟨position, member, _⟩
  exact ⟨position, member⟩

theorem walks (served : rules.Served arena plot source footing) :
    rules.Walks arena (rules.Served arena plot) source footing := by
  by_cases isOver : ∃ position ∈ footing, Over arena position
  · rcases isOver with ⟨position, member, isOver⟩
    exact .inl ⟨position, subset_reach member, isOver⟩
  right
  have takes {letter : Letter} {letters : List Letter}
      (speaks : Speaks arena source (letter :: letters)) : ∃ position ∈ footing, ∃ next,
      rules.Takes arena letter position next ∧ rules.Serves arena letters next := by
    rcases served.serves _ speaks with ⟨position, member, serves⟩
    cases serves with
    | finished ended => exact absurd ⟨position, member, ended⟩ isOver
    | take takes onward => exact ⟨position, member, _, takes, onward⟩
  refine ⟨fun ends => ?_, fun _ _ letter reads holds => ?_⟩
  · rcases served.serves [] (.of_ends ends) with ⟨position, member, serves⟩
    cases serves with
    | finished ended => exact absurd ⟨position, member, ended⟩ isOver
    | stop stops => exact ⟨position, subset_reach member, stops⟩
  · rcases served.origin with ⟨root, within, alive⟩
    have nextWithin := reads.within charts within
    have nextAlive := reads.alive alive
    -- All positions behind the letter are kept, whatever the source goes on to say.
    refine ⟨{after | ∃ position ∈ footing, rules.Takes arena letter position after}, ?_, ?_, ?_⟩
    · rintro _ ⟨position, member, taken⟩
      exact .inl ⟨position, subset_reach member, taken⟩
    · rcases nextAlive.exists_speaks charts admits nextWithin with ⟨_, speaks⟩
      rcases takes (.read reads holds speaks) with ⟨position, member, after, taken, _⟩
      exact ⟨after, position, member, taken⟩
    · refine ⟨⟨root, nextWithin, nextAlive⟩, ?_, fun _ speaks => ?_⟩
      · rintro _ ⟨position, member, taken⟩
        rcases served.destination position member with ⟨other, isWithin⟩
        exact ⟨other, taken.within charts isWithin⟩
      · rcases takes (.read reads holds speaks) with ⟨position, member, after, taken, onward⟩
        exact ⟨after, ⟨position, member, taken⟩, onward⟩

omit admits in
theorem of_alike {newSource newDestination : Position}
    (served : rules.Served arena plot source {destination}) (alike : Alike arena source newSource)
    (twins : Alike arena destination newDestination)
    (bytes : ∀ token, proper token → token.width ≠ 0) (within : newSource.Within arena plot root)
    (alive : Alive arena root newSource)
    (destinationWithin : newDestination.Within arena plot other) :
    rules.Served arena plot newSource {newDestination} := by
  refine ⟨⟨root, within, alive⟩, ?_, fun letters speaks => ?_⟩
  · rintro _ rfl
    exact ⟨other, destinationWithin⟩
  · rcases served.serves letters (speaks.of_alike alike.symm) with ⟨_, rfl, serves⟩
    exact ⟨_, rfl, serves.of_alike (speaks.solid charts bytes within) twins⟩

section

variable (bytes : ∀ token, proper token → token.width ≠ 0)
include bytes

theorem round (served : rules.Served arena plot source {destination})
    (matched : Matched arena source destination first second) :
    rules.Served arena plot (.root arena first.body) {.root arena second.body} ∧
      rules.Served arena plot (roundEnd arena (first.loop 1) first.outer)
        {roundEnd arena (second.loop 1) second.outer} := by
  rcases served.origin with ⟨root, within, alive⟩
  rcases served.destination destination rfl with ⟨_, destinationWithin⟩
  have nest := matched.source.nest within 0
  have otherNest := matched.destination.nest destinationWithin 0
  have bodyInside := matched.source.body_lt charts within
  have otherInside := matched.destination.body_lt charts destinationWithin
  have entered := Move.alive ((matched.source.move_iff charts within).mpr rfl) alive
  have inBody := entered.lively.1
  have elementAlive := alive_root (entered.live.within inBody)
  have elementWithin := within_root charts bodyInside
  have endAlive : Alive arena root (roundEnd arena (first.loop 1) first.outer) :=
    ⟨entered.live, inBody.leadsTo (entered.live _ _ inBody), entered.lively⟩
  have endWithin := within_roundEnd charts nest
  have both {element rest : List Letter} (front : Speaks arena (.root arena first.body) element)
      (back : Speaks arena (roundEnd arena (first.loop 1) first.outer) rest) :
      rules.Serves arena element (.root arena second.body) ∧
        rules.Serves arena rest (roundEnd arena (second.loop 1) second.outer) := by
    have speaks : Speaks arena source (element ++ rest) :=
      (front.inside charts nest elementWithin back).of_alike
        (matched.source.alike charts within).symm
    have solid := speaks.solid charts bytes within
    rcases served.serves _ speaks with ⟨_, rfl, serves⟩
    refine Serves.split charts otherNest (within_root charts otherInside) bytes solid ?_
      (serves.of_alike solid (matched.destination.alike charts destinationWithin))
    rw [front.width_eq charts (matched.source.sized charts within) elementWithin,
      left_root charts bodyInside, matched.bytes_eq]
    exact (left_root charts otherInside).symm
  constructor
  · refine ⟨⟨_, elementWithin, elementAlive⟩, ?_, fun _ front => ⟨_, rfl, ?_⟩⟩
    · rintro _ rfl
      exact ⟨_, within_root charts otherInside⟩
    · rcases endAlive.exists_speaks charts admits endWithin with ⟨_, back⟩
      exact (both front back).1
  · refine ⟨⟨_, endWithin, endAlive⟩, ?_, fun _ back => ⟨_, rfl, ?_⟩⟩
    · rintro _ rfl
      exact ⟨_, within_roundEnd charts otherNest⟩
    · rcases elementAlive.exists_speaks charts admits elementWithin with ⟨_, front⟩
      exact (both front back).2

theorem after (isShared : first.shared second = rounds + 1)
    (served : rules.Served arena plot source {destination})
    (matched : Matched arena source destination first second) :
    rules.Served arena plot (first.after arena (rounds + 1)) {second.after arena (rounds + 1)} := by
  induction rounds generalizing source destination first second with
  | zero =>
    have behind := (served.round charts admits bytes matched).2
    rcases behind.origin with ⟨_, within, alive⟩
    rcases behind.destination _ rfl with ⟨_, destinationWithin⟩
    exact behind.of_alike charts (alike_after charts within.nest)
      (alike_after charts destinationWithin.nest) bytes (within.after charts) alive.after
      (destinationWithin.after charts)
  | succ rounds ih =>
    rcases served.origin with ⟨root, within, alive⟩
    rcases served.destination destination rfl with ⟨other, destinationWithin⟩
    have behind := (served.round charts admits bytes matched).2
    have several : 1 < first.shared second := by omega
    have later := Unrolled.matched_later charts matched within destinationWithin several
    have fewer := Unrolled.shared_later several
    have goesOn := ih (by omega) behind later
    rwa [Unrolled.after_later, Unrolled.after_later] at goesOn

theorem leaps (served : rules.Served arena plot source {destination})
    (matched : Matched arena source destination first second) :
    Leaps arena (rules.Served arena plot) first second := by
  rcases Nat.exists_eq_succ_of_ne_zero matched.shared_ne_zero with ⟨_, isShared⟩
  refine ⟨(served.round charts admits bytes matched).1, ?_⟩
  rw [isShared]
  exact served.after charts admits bytes isShared matched

end

end Served

section Sustains

variable {leaping : Prop} {inquiry : Inquiry} (charts : arena.Charts plot proper)
  (bytes : ∀ token, proper token → token.width ≠ 0)
  (sourceInside : inquiry.1.index < arena.layouts.size)
  (destinationInside : inquiry.2.index < arena.layouts.size)

include charts bytes sourceInside destinationInside

theorem sustains_of_serves (admits : ∀ token, proper token → token.Proper arena.layouts.size)
    (live : arena.Live inquiry.1) (serves : ∀ letters, arena.Value inquiry.1 letters →
      rules.Serves arena letters (.root arena inquiry.2)) :
    rules.Sustains arena leaping inquiry := by
  have served : rules.Served arena plot (.root arena inquiry.1) {.root arena inquiry.2} := by
    refine ⟨⟨_, within_root charts sourceInside, alive_root live⟩, ?_, fun letters speaks => ?_⟩
    · rintro _ rfl
      exact ⟨_, within_root charts destinationInside⟩
    · exact ⟨_, rfl, serves letters ((value_iff_speaks charts sourceInside).mpr speaks)⟩
  have coherent : rules.Coherent arena leaping fun source larger =>
      ∃ footing ⊆ larger, rules.Served arena plot source footing := by
    refine coherent_of_closed ?_ ?_ ?_
    · exact fun _ _ served => served.nonempty charts admits
    · exact fun _ _ served => served.walks charts admits
    · exact fun _ _ _ _ _ served matched => served.leaps charts admits bytes matched
  exact ⟨_, ⟨_, subset_rfl, served⟩, coherent⟩

omit sourceInside destinationInside in
theorem Drifts.eq_of_bytes (within : position.Within arena plot root)
    (drifts : rules.Drifts arena position next) : next = position := by
  rcases Relation.ReflTransGen.cases_head drifts with rfl | ⟨_, ⟨_, _, reads⟩, _⟩
  · rfl
  · exact absurd rfl (bytes _ (reads.isProper charts within))

omit sourceInside destinationInside in
theorem serves_of_walks {goal : Position → Set Position → Prop}
    (walks : ∀ source footing, goal source footing → rules.Walks arena goal source footing)
    (within : source.Within arena plot root) (speaks : Speaks arena source letters)
    (footingWithin : ∀ position ∈ footing, position.Within arena plot other)
    (isGoal : goal source footing) : ∃ position ∈ footing, rules.Serves arena letters position := by
  have stays {footing : Set Position} (inside : ∀ position ∈ footing,
      position.Within arena plot other) {position : Position}
        (reached : position ∈ rules.reach arena footing) : position ∈ footing := by
    rcases reached with ⟨origin, member, drifts⟩
    rwa [drifts.eq_of_bytes charts bytes (inside origin member)]
  rcases speaks with ⟨_, trace, held⟩
  induction trace generalizing letters footing with
  | ends ends =>
    cases held
    rcases walks _ _ isGoal with ⟨position, reached, isOver⟩ | ⟨atEnd, _⟩
    · exact ⟨position, stays footingWithin reached, .finished isOver _⟩
    · rcases atEnd ends with ⟨position, reached, stops⟩
      exact ⟨position, stays footingWithin reached, .stop stops⟩
  | reads reads _ ih =>
    cases held with
    | @cons _ letter _ _ holds others =>
      rcases walks _ _ isGoal with ⟨position, reached, isOver⟩ | ⟨_, goesOn⟩
      · exact ⟨position, stays footingWithin reached, .finished isOver _⟩
      · rcases goesOn _ _ _ reads holds with ⟨onward, subset, _, isNext⟩
        have some : letter.width ≠ 0 := by
          rw [holds.width_eq]
          exact bytes _ (reads.isProper charts within)
        have behind {next : Position} (member : next ∈ onward) :
            ∃ position ∈ footing, rules.Takes arena letter position next := by
          rcases subset member with ⟨position, reached, takes⟩ | ⟨⟨_, rfl⟩, _⟩
          · exact ⟨position, stays footingWithin reached, takes⟩
          · exact absurd rfl some
        have onwardWithin (next : Position) (member : next ∈ onward) : next.Within arena plot
            other := by
          rcases behind member with ⟨position, isThere, takes⟩
          exact takes.within charts (footingWithin position isThere)
        rcases ih (reads.within charts within) onwardWithin isNext others with
          ⟨next, member, serves⟩
        rcases behind member with ⟨position, isThere, takes⟩
        exact ⟨position, isThere, .take takes serves⟩

theorem Sustains.serves (sustains : rules.Sustains arena leaping inquiry)
    (value : arena.Value inquiry.1 letters) :
    rules.Serves arena letters (.root arena inquiry.2) := by
  rcases sustains with ⟨_, atRoots, coherent⟩
  have within (position : Position) (member : position ∈ ({.root arena inquiry.2} : Set Position)) :
      position.Within arena plot inquiry.2 := by
    rw [Set.mem_singleton_iff.mp member]
    exact within_root charts destinationInside
  rcases serves_of_walks charts bytes coherent.walks (within_root charts sourceInside)
    ((value_iff_speaks charts sourceInside).mp value) within atRoots with ⟨_, rfl, serves⟩
  exact serves

end Sustains

end Rules

end Recast
