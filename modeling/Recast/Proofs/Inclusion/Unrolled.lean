import Recast.Proofs.Inclusion.Reading
import Recast.Proofs.Position.Alike
import Recast.Proofs.Position.Idle

/-!
# Unrolled pairings

A survey takes runs of elements at once: it compares one element and what follows the last round.
`Rules.Unrolled` adds the pairings in between, and still goes on letter by letter (`Unrolled.walks`)
and run by run (`Unrolled.leaps`). It is also closed under more positions of the destination, even
ones that lag behind, as long as these read the same and no run of theirs is ever taken at once: a
run that lags behind by a marker is longer than any that the source can match it with.
-/

namespace Recast

open Position

variable {arena : Arena} {plot : Plot} {proper : Token → Prop} {root other : LayoutId}
  {source destination next twin : Position} {first second : Run} {token : Token}
  {around : List Loop}

def Run.shared (first second : Run) : Nat :=
  min first.count.least second.count.least

structure Matched (arena : Arena) (source destination : Position) (first second : Run) : Prop where
  source : Starts arena source first
  destination : Starts arena destination second
  size : (arena.layout first.body).size = (arena.layout second.body).size

namespace Matched

section

variable (matched : Matched arena source destination first second)
include matched

theorem bytes_eq : arena.bytes first.body = arena.bytes second.body := by
  simp [Arena.bytes, matched.size]

theorem shared_ne_zero : first.shared second ≠ 0 := by
  have sourceGoesOn := matched.source.goesOn
  have destinationGoesOn := matched.destination.goesOn
  simp only [Run.shared]
  omega

theorem unique {anyFirst anySecond : Run}
    (again : Matched arena source destination anyFirst anySecond) :
    anyFirst = first ∧ anySecond = second := by
  have sameFirst := again.source.isRun.symm.trans matched.source.isRun
  have sameSecond := again.destination.isRun.symm.trans matched.destination.isRun
  exact ⟨Option.some.inj sameFirst, Option.some.inj sameSecond⟩

end

end Matched

/-- The destination's position is not matched as long as the source reads no byte. -/
def Unmatched (arena : Arena) (source destination : Position) : Prop :=
  ∀ later, Idles arena source later → ∀ first second, ¬ Matched arena later destination first second

namespace Unmatched

theorem of_not_starts (notStarts : ∀ run, ¬ Starts arena destination run) :
    Unmatched arena source destination :=
  fun _ _ _ second matched => notStarts second matched.destination

theorem onward (unmatched : Unmatched arena source destination) (none : token.width = 0)
    (reads : Reads arena source token next) : Unmatched arena next destination :=
  fun later idles => unmatched later (.head ⟨token, none, reads⟩ idles)

end Unmatched

namespace Rules

variable {rules : Rules} {goal : Position → Set Position → Prop} {position : Position}
  {footing larger onward : Set Position} {letter : Letter}

/-- What it takes to take a run at once: one element, and what follows the last common round. -/
def Leaps (arena : Arena) (goal : Position → Set Position → Prop) (first second : Run) : Prop :=
  goal (.root arena first.body) {.root arena second.body} ∧
    goal (first.after arena (first.shared second)) {second.after arena (first.shared second)}

/-- Pairings that go on as a survey does: letter by letter, and if it leaps, runs are taken at once
wherever that is possible. -/
structure Surveyed (rules : Rules) (arena : Arena) (plot : Plot) (leaping : Prop)
    (goal : Position → Set Position → Prop) : Prop where
  source : ∀ source footing, goal source footing → ∃ root, source.Within arena plot root
  destination : ∀ source footing, goal source footing → ∀ position ∈ footing,
    ∃ root, position.Within arena plot root
  nonempty : ∀ source footing, goal source footing → footing.Nonempty
  leaps : leaping → ∀ source destination first second, goal source {destination} →
    Matched arena source destination first second → Leaps arena goal first second
  walks : ∀ source footing, goal source footing →
    (leaping → ∀ destination first second, footing = {destination} →
      ¬ Matched arena source destination first second) →
    rules.Walks arena goal source footing

/-- Pairings that go on letter by letter, and if runs are taken at once, then run by run as well. -/
structure Coherent (rules : Rules) (arena : Arena) (leaping : Prop)
    (goal : Position → Set Position → Prop) : Prop where
  nonempty : ∀ source footing, goal source footing → footing.Nonempty
  mono : ∀ source footing larger, goal source footing → footing ⊆ larger → goal source larger
  walks : ∀ source footing, goal source footing → rules.Walks arena goal source footing
  leaps : leaping → ∀ source destination first second, goal source {destination} →
    Matched arena source destination first second → Leaps arena goal first second

theorem coherent_of_closed {leaping : Prop}
    (nonempty : ∀ source footing, goal source footing → footing.Nonempty)
    (walks : ∀ source footing, goal source footing → rules.Walks arena goal source footing)
    (leaps : leaping → ∀ source destination first second, goal source {destination} →
      Matched arena source destination first second → Leaps arena goal first second) :
    rules.Coherent arena leaping fun source larger => ∃ footing ⊆ larger, goal source footing where
  nonempty source larger isGoal := by
    rcases isGoal with ⟨footing, subset, isGoal⟩
    exact (nonempty source footing isGoal).mono subset
  mono source larger largest isGoal subset := by
    rcases isGoal with ⟨footing, inside, isGoal⟩
    exact ⟨footing, inside.trans subset, isGoal⟩
  walks source larger isGoal := by
    rcases isGoal with ⟨footing, subset, isGoal⟩
    refine (walks source footing isGoal).mono ⟨fun _ => id, fun _ _ => id, fun _ => id⟩ subset ?_
    exact fun _ after isOnward => ⟨after, subset_rfl, isOnward⟩
  leaps isLeaping source destination first second isGoal matched := by
    rcases isGoal with ⟨footing, subset, isGoal⟩
    have single := (nonempty source footing isGoal).subset_singleton_iff.mp subset
    subst single
    rcases leaps isLeaping source destination first second isGoal matched with ⟨element, rest⟩
    exact ⟨⟨_, subset_rfl, element⟩, _, subset_rfl, rest⟩

section Supports

variable {harmless : Position → Prop}

/-- For each position of a footing, the larger one has it, or a harmless one that gets to read the
same. -/
def Supports (rules : Rules) (arena : Arena) (harmless : Position → Prop)
    (larger footing : Set Position) : Prop :=
  ∀ position ∈ footing, ∃ before ∈ larger, (before = position ∨ harmless before) ∧
    ∃ twin, rules.Drifts arena before twin ∧
      (twin = position ∨ Alike arena twin position ∧ harmless twin)

theorem Supports.of_subset (subset : footing ⊆ larger) :
    rules.Supports arena harmless larger footing :=
  fun position member => ⟨position, subset member, .inl rfl, position, .refl, .inl rfl⟩

section Supported

variable (supports : rules.Supports arena harmless larger footing)
include supports

theorem Supports.subset (subset : onward ⊆ footing) : rules.Supports arena harmless larger onward :=
  fun position member => supports position (subset member)

theorem Supports.nonempty (nonempty : footing.Nonempty) : larger.Nonempty := by
  rcases nonempty with ⟨position, member⟩
  rcases supports position member with ⟨before, isBefore, _⟩
  exact ⟨before, isBefore⟩

theorem Supports.reach (member : position ∈ rules.reach arena footing) :
    ∃ twin ∈ rules.reach arena larger, twin = position ∨ Alike arena twin position ∧
      harmless twin := by
  rcases member with ⟨origin, isOrigin, drifts⟩
  rcases supports origin isOrigin with ⟨before, isBefore, _, twin, toTwin, same⟩
  rcases Relation.ReflTransGen.cases_head drifts with rfl | ⟨_, ⟨safe, name, reads⟩, onward⟩
  · exact ⟨twin, ⟨before, isBefore, toTwin⟩, same⟩
  · refine ⟨position, ⟨before, isBefore, toTwin.trans (.head ⟨safe, name, ?_⟩ onward)⟩, .inl rfl⟩
    rcases same with rfl | ⟨alike, _⟩
    · exact reads
    · exact (alike.reads _ _).mpr reads

end Supported

theorem Takes.of_reads
    (same : ∀ token next, Reads arena position token next → Reads arena twin token next)
    (some : letter.width ≠ 0) (takes : rules.Takes arena letter position next) :
    rules.Takes arena letter twin next := by
  rcases takes.reads_or_forgets with ⟨_, reads, _, fits⟩ | ⟨source, rfl, forgets⟩
  · exact fits (same _ _ reads)
  · refine .forgottenReference ?_
    generalize isWidth : source.width = width at forgets
    cases forgets with
    | done => exact absurd isWidth some
    | more reads onward => exact .more (same _ _ reads) onward

theorem Takes.of_alike (alike : Alike arena twin position) (some : letter.width ≠ 0)
    (takes : rules.Takes arena letter position next) :
    rules.Takes arena letter twin next :=
  takes.of_reads (fun token next => (alike.reads token next).mpr) some

theorem Supports.behind_subset (supports : rules.Supports arena harmless larger footing)
    (some : letter.width ≠ 0) :
    rules.behind arena letter footing ⊆ rules.behind arena letter larger := by
  rintro _ (⟨_, member, takes⟩ | ⟨⟨_, rfl⟩, _⟩)
  · rcases supports.reach member with ⟨twin, isTwin, rfl | ⟨alike, _⟩⟩
    · exact .inl ⟨twin, isTwin, takes⟩
    · exact .inl ⟨twin, isTwin, takes.of_alike alike some⟩
  · exact absurd rfl some

theorem Supports.behind (supports : rules.Supports arena harmless larger footing)
    (none : letter.width = 0) :
    rules.Supports arena harmless (rules.behind arena letter larger)
      (rules.behind arena letter footing) := by
  rintro next (⟨position, member, takes⟩ | ⟨isMarker, member⟩)
  · rcases supports.reach member with ⟨twin, isTwin, same⟩
    have alike : Alike arena twin position := by
      rcases same with rfl | ⟨alike, _⟩
      · exact .refl twin
      · exact alike
    cases takes with
    | byte | anyByte | uninit => simp [Letter.width] at none
    | reference replaces reads =>
      have taken := Takes.reference replaces ((alike.reads _ _).mpr reads)
      exact ⟨next, .inl ⟨twin, isTwin, taken⟩, .inl rfl, next, .refl, .inl rfl⟩
    | @forgottenReference target _ _ forgets =>
      have isZero : target.width = 0 := none
      have taken : rules.Takes arena (.reference target) twin twin := by
        refine .forgottenReference ?_
        rw [isZero]
        exact .done twin
      rw [isZero] at forgets
      cases forgets with
      | done =>
        exact ⟨twin, .inl ⟨twin, isTwin, taken⟩, same.imp_right And.right, twin, .refl, same⟩
    | @marker name _ _ reads =>
      have taken : rules.Takes arena (.marker name) twin next :=
        .marker ((alike.reads _ _).mpr reads)
      exact ⟨next, .inl ⟨twin, isTwin, taken⟩, .inl rfl, next, .refl, .inl rfl⟩
  · rcases supports next member with ⟨before, isBefore, rest⟩
    exact ⟨before, .inr ⟨isMarker, isBefore⟩, rest⟩

theorem Supports.mono {tame : Position → Prop} (imp : ∀ position, harmless position → tame position)
    (supports : rules.Supports arena harmless larger footing) :
    rules.Supports arena tame larger footing := by
  intro position member
  rcases supports position member with ⟨before, isBefore, first, twin, drifts, second⟩
  exact ⟨before, isBefore, first.imp_right (imp _), twin, drifts,
    second.imp_right (.imp_right (imp _))⟩

theorem Supports.read (supports : rules.Supports arena (Unmatched arena source) larger footing)
    (reads : Reads arena source token next) (holds : token.Holds letter) :
    rules.Supports arena (Unmatched arena next) (rules.behind arena letter larger)
      (rules.behind arena letter footing) := by
  by_cases none : token.width = 0
  · have still := supports.mono fun _ unmatched => unmatched.onward none reads
    exact still.behind (holds.width_eq.trans none)
  · exact .of_subset (supports.behind_subset (holds.width_eq ▸ none))

end Supports

def inside (footing : Set Position) (around : List Loop) : Set Position :=
  (fun position => position.inside around) '' footing

theorem inside_singleton : inside {position} around = {position.inside around} :=
  Set.image_singleton

theorem Drifts.inside (drifts : rules.Drifts arena position next) (around : List Loop) :
    rules.Drifts arena (position.inside around) (next.inside around) := by
  induction drifts with
  | refl => exact .refl
  | tail _ enters ih =>
    rcases enters with ⟨safe, name, reads⟩
    exact ih.tail ⟨safe, name, reads.inside around⟩

theorem Forgets.inside {width : Nat} (forgets : Forgets arena width position next)
    (around : List Loop) : Forgets arena width (position.inside around) (next.inside around) := by
  induction forgets with
  | done => exact .done _
  | more reads _ ih => exact .more (reads.inside around) ih

theorem Takes.inside (takes : rules.Takes arena letter position next) (around : List Loop) :
    rules.Takes arena letter (position.inside around) (next.inside around) := by
  rcases takes.reads_or_forgets with ⟨_, reads, _, fits⟩ | ⟨_, rfl, forgets⟩
  · exact fits (reads.inside around)
  · exact .forgottenReference (forgets.inside around)

theorem mem_reach_inside (member : position ∈ rules.reach arena footing) :
    position.inside around ∈ rules.reach arena (inside footing around) := by
  rcases member with ⟨origin, isOrigin, drifts⟩
  exact ⟨_, ⟨origin, isOrigin, rfl⟩, drifts.inside around⟩

theorem inside_behind_subset (subset : onward ⊆ rules.behind arena letter footing) :
    inside onward around ⊆ rules.behind arena letter (inside footing around) := by
  rintro _ ⟨next, member, rfl⟩
  rcases subset member with ⟨_, isReached, takes⟩ | ⟨isMarker, isThere⟩
  · exact .inl ⟨_, mem_reach_inside isReached, takes.inside around⟩
  · exact .inr ⟨isMarker, next, isThere, rfl⟩

section Level

def Level (arena : Arena) (plot : Plot) (root : LayoutId) (bytes : Nat) (footing : Set Position) :
    Prop :=
  ∀ position ∈ footing, position.Within arena plot root ∧ left arena root position = bytes

variable {bytes : Nat}

variable (charts : arena.Charts plot proper)
include charts

section

variable (sized : arena.Sized root)
include sized

theorem Forgets.left_eq {width : Nat} (forgets : Forgets arena width position next)
    (within : position.Within arena plot root) :
    left arena root position = width + left arena root next := by
  induction forgets with
  | done => simp
  | more reads _ ih =>
    rw [reads.left_eq charts sized within, ih (reads.within charts within)]
    simp only [Token.width]
    omega

theorem Takes.left_eq (takes : rules.Takes arena letter position next)
    (within : position.Within arena plot root) :
    left arena root position = letter.width + left arena root next := by
  rcases takes.reads_or_forgets with ⟨_, reads, width, _⟩ | ⟨_, rfl, forgets⟩
  · exact width ▸ reads.left_eq charts sized within
  · exact forgets.left_eq charts sized within

theorem Level.reach (level : Level arena plot root bytes footing) :
    Level arena plot root bytes (rules.reach arena footing) := by
  rintro _ ⟨origin, member, drifts⟩
  rcases level origin member with ⟨within, isLeft⟩
  refine ⟨drifts.within charts within, ?_⟩
  induction drifts with
  | refl => exact isLeft
  | tail drifts enters ih =>
    rcases enters.2 with ⟨_, reads⟩
    have same := reads.left_eq charts sized (Drifts.within charts drifts within)
    simpa [Token.width] using same.symm.trans ih

theorem Level.behind (level : Level arena plot root (letter.width + bytes) footing) :
    Level arena plot root bytes (rules.behind arena letter footing) := by
  rintro next (⟨position, member, takes⟩ | ⟨⟨name, rfl⟩, member⟩)
  · rcases level.reach charts sized position member with ⟨within, isLeft⟩
    have taken := takes.left_eq charts sized within
    exact ⟨takes.within charts within, by omega⟩
  · simpa [Letter.width] using level next member

end

end Level

/-- The pairings of a survey together with all those in between. -/
inductive Unrolled (rules : Rules) (arena : Arena) (plot : Plot)
    (goal : Position → Set Position → Prop) : Position → Set Position → Prop
  | known {source : Position} {footing : Set Position} (isGoal : goal source footing) :
      Unrolled rules arena plot goal source footing
  /-- At the start of two runs, or at the end of a common round. -/
  | run {source destination : Position} {first second : Run} {root other : LayoutId}
      (matched : Matched arena source destination first second)
      (sourceWithin : source.Within arena plot root)
      (destinationWithin : destination.Within arena plot other)
      (element : Unrolled rules arena plot goal (.root arena first.body) {.root arena second.body})
      (rest : Unrolled rules arena plot goal (first.after arena (first.shared second))
        {second.after arena (first.shared second)}) :
      Unrolled rules arena plot goal source {destination}
  | within {position : Position} {footing : Set Position} {loop twin : Loop}
      {outer around : List Loop} {root other : LayoutId}
      (nest : Nest arena plot root (loop :: outer))
      (twinNest : Nest arena plot other (twin :: around))
      (size : arena.bytes loop.body = arena.bytes twin.body)
      (positionWithin : position.Within arena plot loop.body)
      (level : Level arena plot twin.body (left arena loop.body position) footing)
      (inner : Unrolled rules arena plot goal position footing)
      (next : Unrolled rules arena plot goal (roundEnd arena loop outer)
        {roundEnd arena twin around}) :
      Unrolled rules arena plot goal (position.inside (loop :: outer))
        (inside footing (twin :: around))
  /-- The source has only markers left of its element, and the destination has gone on. -/
  | trail {position : Position} {footing : Set Position} {loop : Loop} {outer : List Loop}
      {root : LayoutId} (nest : Nest arena plot root (loop :: outer))
      (positionWithin : position.Within arena plot loop.body)
      (none : left arena loop.body position = 0)
      (next : Unrolled rules arena plot goal (roundEnd arena loop outer) footing) :
      Unrolled rules arena plot goal (position.inside (loop :: outer)) footing
  /-- More positions, or positions that lag behind; and another position of the source that reads
  the same, if no run lies ahead of it. -/
  | loose {source twin : Position} {footing larger : Set Position}
      (same : source = twin ∨ Alike arena source twin ∧ ∀ run, ¬ Starts arena source run)
      (supports : rules.Supports arena (Unmatched arena source) larger footing)
      (inner : Unrolled rules arena plot goal twin footing) :
      Unrolled rules arena plot goal source larger

namespace Unrolled

variable {loop : Loop} {outer : List Loop}

theorem mono (unrolled : rules.Unrolled arena plot goal source footing)
    (subset : footing ⊆ larger) : rules.Unrolled arena plot goal source larger :=
  .loose (.inl rfl) (.of_subset subset) unrolled

theorem nonempty (surveyed : rules.Surveyed arena plot True goal)
    (unrolled : rules.Unrolled arena plot goal source footing) : footing.Nonempty := by
  induction unrolled with
  | known isGoal => exact surveyed.nonempty _ _ isGoal
  | run => exact Set.singleton_nonempty _
  | within _ _ _ _ _ _ _ ih => exact ih.image _
  | trail _ _ _ _ ih => exact ih
  | loose _ supports _ ih => exact supports.nonempty ih

/-- The same is read from another position of the source, and what is demanded then is supported. -/
theorem walks_of_onward (alike : Alike arena source twin)
    (supports : rules.Supports arena (fun _ => True) larger footing)
    (onward : ∀ token next letter, Reads arena source token next → token.Holds letter →
      rules.Supports arena (Unmatched arena next) (rules.behind arena letter larger)
        (rules.behind arena letter footing))
    (walks : rules.Walks arena (rules.Unrolled arena plot goal) twin footing) :
    rules.Walks arena (rules.Unrolled arena plot goal) source larger := by
  rcases walks with ⟨position, member, ended⟩ | ⟨ends, reads⟩
  · rcases supports.reach member with ⟨before, isBefore, rfl | ⟨same, _⟩⟩
    · exact .inl ⟨before, isBefore, ended⟩
    · refine .inl ⟨before, isBefore, same.ends.mpr ended.1, fun token next isRead => ?_⟩
      exact ended.2 token next ((same.reads _ _).mp isRead)
  · refine .inr ⟨fun sourceEnds => ?_, fun token next letter isRead holds => ?_⟩
    · rcases ends (alike.ends.mp sourceEnds) with ⟨_, member, may⟩
      rcases supports.reach member with ⟨before, isBefore, rfl | ⟨same, _⟩⟩
      · exact ⟨before, isBefore, may⟩
      · exact ⟨before, isBefore, may.imp same.ends.mpr same.symm.pads⟩
    · rcases reads token next letter ((alike.reads _ _).mp isRead) holds with
        ⟨_, subset, nonempty, isGoal⟩
      have onwardSupports := (onward token next letter isRead holds).subset subset
      exact ⟨_, subset_rfl, onwardSupports.nonempty nonempty,
        .loose (.inl rfl) onwardSupports isGoal⟩

theorem walks_of_supports (alike : Alike arena source twin)
    (supports : rules.Supports arena (Unmatched arena source) larger footing)
    (walks : rules.Walks arena (rules.Unrolled arena plot goal) twin footing) :
    rules.Walks arena (rules.Unrolled arena plot goal) source larger :=
  walks_of_onward alike (supports.mono fun _ _ => trivial) (fun _ _ _ => supports.read) walks

section Charted

variable (charts : arena.Charts plot proper)
include charts

theorem walks_of_trail (surveyed : rules.Surveyed arena plot True goal)
    (nest : Nest arena plot root (loop :: outer)) (within : position.Within arena plot loop.body)
    (none : left arena loop.body position = 0)
    (next : rules.Unrolled arena plot goal (roundEnd arena loop outer) footing)
    (walks : rules.Walks arena (rules.Unrolled arena plot goal) (roundEnd arena loop outer)
      footing) :
    rules.Walks arena (rules.Unrolled arena plot goal) (position.inside (loop :: outer))
      footing := by
  have sized := (loop_repeats charts nest.1).isSized
  by_cases ends : Ends arena position
  · exact walks_of_supports (alike_roundEnd charts nest within ends) (.of_subset subset_rfl) walks
  · refine .inr ⟨fun insideEnds => ?_, fun token after letter isRead holds => ?_⟩
    · exact absurd ((ends_inside charts within).mp insideEnds).1 ends
    · rcases (reads_inside charts within).mp isRead with ⟨further, reads, rfl⟩ | ⟨through, _⟩
      · have taken := reads.left_eq charts sized within
        have noWidth : letter.width = 0 := by
          rw [holds.width_eq]
          omega
        have stays : footing ⊆ rules.behind arena letter footing := by
          intro destination member
          cases holds with
          | byte | uninit => simp [Letter.width] at noWidth
          | reference target =>
            have isZero : target.width = 0 := noWidth
            refine .inl ⟨destination, subset_reach member, .forgottenReference ?_⟩
            rw [isZero]
            exact .done destination
          | marker name => exact .inr ⟨⟨name, rfl⟩, member⟩
        refine ⟨footing, stays, next.nonempty surveyed,
          .trail nest (reads.within charts within) ?_ next⟩
        omega
      · exact absurd through ends

theorem supports_roundEnd {twin : Loop} (nest : Nest arena plot other (twin :: around))
    (level : Level arena plot twin.body 0 footing) (reached : position ∈ rules.reach arena footing)
    (ends : Ends arena position) :
    rules.Supports arena (Unmatched arena source) (inside footing (twin :: around))
      {roundEnd arena twin around} := by
  have sized := (loop_repeats charts nest.1).isSized
  have settled (position : Position) (here : position.Within arena plot twin.body ∧
        left arena twin.body position = 0) :
      position.inside (twin :: around) = roundEnd arena twin around ∨
        Unmatched arena source (position.inside (twin :: around)) := by
    by_cases starts : ∃ run, Starts arena (position.inside (twin :: around)) run
    · rcases starts with ⟨_, isRun⟩
      exact .inl (isRun.eq_roundEnd charts nest here.1 here.2)
    · exact .inr (.of_not_starts fun run isRun => starts ⟨run, isRun⟩)
  have here := level.reach charts sized position reached
  rcases reached with ⟨origin, isOrigin, drifts⟩
  rintro _ rfl
  refine ⟨_, ⟨origin, isOrigin, rfl⟩, settled origin (level origin isOrigin), _,
    drifts.inside (twin :: around), ?_⟩
  exact (settled position here).imp_right fun unmatched =>
    ⟨alike_roundEnd charts nest here.1 ends, unmatched⟩

theorem walks_of_within (surveyed : rules.Surveyed arena plot True goal) {twin : Loop}
    (nest : Nest arena plot root (loop :: outer))
    (twinNest : Nest arena plot other (twin :: around))
    (size : arena.bytes loop.body = arena.bytes twin.body)
    (within : position.Within arena plot loop.body)
    (level : Level arena plot twin.body (left arena loop.body position) footing)
    (next : rules.Unrolled arena plot goal (roundEnd arena loop outer) {roundEnd arena twin around})
    (walks : rules.Walks arena (rules.Unrolled arena plot goal) position footing)
    (nextWalks : left arena loop.body position = 0 →
      rules.Walks arena (rules.Unrolled arena plot goal) (roundEnd arena loop outer)
        {roundEnd arena twin around}) :
    rules.Walks arena (rules.Unrolled arena plot goal) (position.inside (loop :: outer))
      (inside footing (twin :: around)) := by
  have sized := (loop_repeats charts nest.1).isSized
  have twinSized := (loop_repeats charts twinNest.1).isSized
  by_cases ends : Ends arena position
  · have none := ends.left_eq charts sized within
    rw [none] at level
    have finished : ∃ destination ∈ rules.reach arena footing, Ends arena destination := by
      rcases walks with ⟨destination, reached, ended⟩ | ⟨mayEnd, _⟩
      · exact ⟨destination, reached, ended.1⟩
      · rcases mayEnd ends with ⟨destination, reached, destinationEnds | pads⟩
        · exact ⟨destination, reached, destinationEnds⟩
        · have here := level.reach charts twinSized destination reached
          exact ⟨destination, reached, pads.ends charts twinSized here.1 here.2⟩
    rcases finished with ⟨_, reached, destinationEnds⟩
    exact walks_of_supports (alike_roundEnd charts nest within ends)
      (supports_roundEnd charts twinNest level reached destinationEnds) (nextWalks none)
  · rcases walks with ⟨destination, reached, ended⟩ | ⟨_, reads⟩
    · -- The destination's element is over, so nothing but markers can be left of the source's.
      have here := level.reach charts twinSized destination reached
      have none := ended.1.left_eq charts twinSized here.1
      rw [here.2] at none
      rw [none] at level
      have supports {before : Position} : rules.Supports arena (Unmatched arena before)
          (inside footing (twin :: around)) {roundEnd arena twin around} :=
        supports_roundEnd charts twinNest level reached ended.1
      exact walks_of_trail charts surveyed nest within none (.loose (.inl rfl) supports next)
        (walks_of_supports (.refl _) supports (nextWalks none))
    · refine .inr ⟨fun insideEnds => ?_, fun token _ letter isRead holds => ?_⟩
      · exact absurd ((ends_inside charts within).mp insideEnds).1 ends
      · rcases (reads_inside charts within).mp isRead with ⟨further, innerRead, rfl⟩ | ⟨through, _⟩
        · rcases reads token further letter innerRead holds with ⟨_, subset, nonempty, isGoal⟩
          refine ⟨_, inside_behind_subset subset, nonempty.image _, ?_⟩
          rw [innerRead.left_eq charts sized within, ← holds.width_eq] at level
          have onwardLevel : Level arena plot twin.body (left arena loop.body further)
              (rules.behind arena letter footing) := level.behind charts twinSized
          exact .within nest twinNest size (innerRead.within charts within)
            (fun destination member => onwardLevel destination (subset member)) isGoal next
        · exact absurd through ends

end Charted

section Runs

variable {rest : Run}

def later (run : Run) : Run :=
  { run with count := run.count.minus 1 }

theorem after_later (run : Run) (rounds : Nat) :
    (later run).after arena rounds = run.after arena (rounds + 1) := by
  simp only [later, Run.after, Count.minus_minus, Nat.add_comm]

theorem matched_later (charts : arena.Charts plot proper)
    (matched : Matched arena source destination first second)
    (sourceWithin : source.Within arena plot root)
    (destinationWithin : destination.Within arena plot other) (several : 1 < first.shared second) :
    Matched arena (roundEnd arena (first.loop 1) first.outer)
      (roundEnd arena (second.loop 1) second.outer) (later first) (later second) := by
  have sourceNest := matched.source.nest sourceWithin 0
  have destinationNest := matched.destination.nest destinationWithin 0
  simp only [Run.shared] at several
  refine ⟨.of_roundEnd charts sourceNest ?_, .of_roundEnd charts destinationNest ?_,
    matched.size⟩ <;>
    simp only [Run.loop, Count.least_minus] <;> omega

theorem shared_later (several : 1 < first.shared second) :
    (later first).shared (later second) + 1 = first.shared second := by
  simp only [Run.shared, later, Count.least_minus] at several ⊢
  omega

variable (charts : arena.Charts plot proper)
include charts

section

variable (matched : Matched arena source destination first second)
  (sourceWithin : source.Within arena plot root)
include matched sourceWithin

theorem roundEnds (destinationWithin : destination.Within arena plot other)
    (element : rules.Unrolled arena plot goal (.root arena first.body) {.root arena second.body})
    (rest : rules.Unrolled arena plot goal (first.after arena (first.shared second))
      {second.after arena (first.shared second)}) :
    rules.Unrolled arena plot goal (roundEnd arena (first.loop 1) first.outer)
      {roundEnd arena (second.loop 1) second.outer} := by
  have sourceNest := matched.source.nest sourceWithin 0
  have destinationNest := matched.destination.nest destinationWithin 0
  have some := matched.shared_ne_zero
  by_cases several : 1 < first.shared second
  · have laterMatched := matched_later charts matched sourceWithin destinationWithin several
    refine .run laterMatched (within_roundEnd charts sourceNest)
      (within_roundEnd charts destinationNest) element ?_
    rw [after_later, after_later, shared_later several]
    exact rest
  · have single : first.shared second = 1 := by omega
    rw [single] at rest
    refine .loose (after_eq_or_alike charts sourceNest) ?_ rest
    rintro _ rfl
    rcases after_eq_or_alike charts destinationNest with same | ⟨alike, notStarts⟩
    · exact ⟨_, rfl, .inl same, _, .refl, .inl same⟩
    · exact ⟨_, rfl, .inr (.of_not_starts notStarts), _, .refl,
        .inr ⟨alike, .of_not_starts notStarts⟩⟩

theorem unmatched_inside (within : position.Within arena plot first.body)
    (whole : left arena first.body position = arena.bytes first.body)
    (fresh : Fresh arena first.body (position.inside (first.loop 1 :: first.outer))) :
    Unmatched arena (position.inside (first.loop 1 :: first.outer)) destination := by
  have nest := matched.source.nest sourceWithin 0
  have sized := matched.source.sized charts sourceWithin
  have positive := matched.source.bytes_ne_zero charts sourceWithin
  intro last idles anyFirst anySecond again
  have lastFresh := Idles.fresh charts idles (within.inside nest) fresh
  rcases Idles.of_inside charts nest within idles with ⟨further, inner, rfl⟩ | ⟨ended, _⟩
  swap
  · simp only [Run.loop] at ended
    omega
  have furtherWithin := inner.within charts within
  have furtherWhole : left arena first.body further = arena.bytes first.body :=
    (inner.left_eq charts sized within).trans whole
  have sameSecond : anySecond = second :=
    Option.some.inj (again.destination.isRun.symm.trans matched.destination.isRun)
  subst sameSecond
  have sameBytes := again.bytes_eq.trans matched.bytes_eq.symm
  rcases again.source.of_inside charts furtherWithin with ⟨inner, innerStarts, rfl⟩ | rfl
  · have atStart := lastFresh ⟨first.loop 1, List.mem_append_right _ List.mem_cons_self, rfl⟩
    have twice := innerStarts.twice_le charts sized furtherWithin atStart
    simp only [Run.inside] at sameBytes
    omega
  · have ended := left_stop charts sized (loop_repeats charts nest.1).inside
    simp only [Run.loop] at furtherWhole
    omega

theorem walks_of_run (surveyed : rules.Surveyed arena plot True goal)
    (destinationWithin : destination.Within arena plot other)
    (element : rules.Unrolled arena plot goal (.root arena first.body) {.root arena second.body})
    (rest : rules.Unrolled arena plot goal (first.after arena (first.shared second))
      {second.after arena (first.shared second)})
    (walks : rules.Walks arena (rules.Unrolled arena plot goal) (.root arena first.body)
      {.root arena second.body}) :
    rules.Walks arena (rules.Unrolled arena plot goal) source {destination} := by
  have nest := matched.source.nest sourceWithin 0
  have twinNest := matched.destination.nest destinationWithin 0
  have inside := matched.source.body_lt charts sourceWithin
  have twinInside := matched.destination.body_lt charts destinationWithin
  have sized := matched.source.sized charts sourceWithin
  have positive := matched.source.bytes_ne_zero charts sourceWithin
  have within := within_root charts inside
  have whole := left_root charts inside
  have level : Level arena plot second.body (left arena first.body (.root arena first.body))
      {.root arena second.body} := by
    rintro _ rfl
    refine ⟨within_root charts twinInside, ?_⟩
    rw [whole, left_root charts twinInside, matched.bytes_eq]
  have alike := matched.source.alike charts sourceWithin
  have next := roundEnds charts matched sourceWithin destinationWithin element rest
  have entered : rules.Walks arena (rules.Unrolled arena plot goal) (first.entry arena)
      {second.entry arena} := by
    rw [Run.entry, Run.entry, ← inside_singleton]
    exact walks_of_within charts surveyed nest twinNest matched.bytes_eq within level next walks
      fun none =>
      absurd (whole.symm.trans none) positive
  have single {harmless : Position → Prop} (tame : harmless destination) :
      rules.Supports arena harmless {destination} {second.entry arena} := by
    rintro _ rfl
    have twinAlike := matched.destination.alike charts destinationWithin
    exact ⟨destination, rfl, .inr tame, destination, .refl, .inr ⟨twinAlike, tame⟩⟩
  have always : rules.Supports arena (fun _ => True) {destination} {second.entry arena} :=
    single trivial
  refine walks_of_onward alike always (fun token after letter isRead holds => ?_) entered
  -- The destination may still be before its run, where the source is inside its own.
  by_cases none : letter.width = 0
  · have entryRead := (alike.reads token after).mp isRead
    have noWidth : token.width = 0 := holds.width_eq.symm.trans none
    rcases (reads_inside charts within).mp entryRead with ⟨further, innerRead, rfl⟩ | ⟨ends, _⟩
    · have entryFresh : Fresh arena first.body (first.entry arena) :=
        fun _ => charts.offset_start_eq inside
      have fresh := entryRead.fresh charts noWidth (within.inside nest) entryFresh
      have taken := innerRead.left_eq charts sized within
      refine (single ?_).behind none
      exact unmatched_inside charts matched sourceWithin (innerRead.within charts within) (by omega)
        fresh
    · have ended := ends.left_eq charts sized within
      omega
  · exact .of_subset (always.behind_subset none)

end

end Runs

section Closure

variable (charts : arena.Charts plot proper)
include charts

section

variable (surveyed : rules.Surveyed arena plot True goal)
include surveyed

theorem walks_of_known (isGoal : goal source footing)
    (elements : ∀ destination first second, footing = {destination} →
      Matched arena source destination first second →
      rules.Walks arena (rules.Unrolled arena plot goal) (.root arena first.body)
        {.root arena second.body}) :
    rules.Walks arena (rules.Unrolled arena plot goal) source footing := by
  by_cases matched : ∃ destination first second, footing = {destination} ∧
      Matched arena source destination first second
  · rcases matched with ⟨destination, first, second, rfl, matched⟩
    rcases surveyed.source _ _ isGoal with ⟨root, sourceWithin⟩
    rcases surveyed.destination _ _ isGoal destination rfl with ⟨other, destinationWithin⟩
    rcases surveyed.leaps trivial _ _ _ _ isGoal matched with ⟨element, rest⟩
    exact walks_of_run charts matched sourceWithin surveyed destinationWithin (.known element)
      (.known rest) (elements destination first second rfl matched)
  · refine (surveyed.walks _ _ isGoal ?_).mono ⟨fun _ => id, fun _ _ => id, fun _ => id⟩ subset_rfl
      fun _ _ => .known
    exact fun _ destination first second single isMatched =>
      matched ⟨destination, first, second, single, isMatched⟩

theorem walks_of_roots {body twin : LayoutId} (bodyInside : body.index < arena.layouts.size)
    (isGoal : goal (.root arena body) {.root arena twin}) :
    rules.Walks arena (rules.Unrolled arena plot goal) (.root arena body) {.root arena twin} := by
  generalize isHeight : arena.layouts.size - body.index = height
  induction height using Nat.strongRecOn generalizing body twin with
  | ind height ih =>
    refine walks_of_known charts surveyed isGoal ?_
    intro destination first second single matched
    rw [Set.singleton_eq_singleton_iff] at single
    subst single
    have within := within_root charts bodyInside
    have elementInside := matched.source.body_lt charts within
    have deeper : body.index < first.body.index := by
      rcases matched.source.cases with ⟨only, _⟩ | same
      · have edge : ⟨.rep first.body first.count, first.exit⟩ ∈
            arena.edges (root arena body).state := by simp [only]
        exact (charts.repeats within.owns edge).deeper
      · simp [root, roundEnd] at same
    have element := (surveyed.leaps trivial _ _ _ _ isGoal matched).1
    exact ih _ (by omega) elementInside element rfl

theorem walks (unrolled : rules.Unrolled arena plot goal source footing) :
    rules.Walks arena (rules.Unrolled arena plot goal) source footing := by
  induction unrolled with
  | known isGoal =>
    refine walks_of_known charts surveyed isGoal ?_
    rintro destination first second rfl matched
    rcases surveyed.source _ _ isGoal with ⟨root, sourceWithin⟩
    have element := (surveyed.leaps trivial _ _ _ _ isGoal matched).1
    exact walks_of_roots charts surveyed (matched.source.body_lt charts sourceWithin) element
  | run matched sourceWithin destinationWithin element rest ihElement =>
    exact walks_of_run charts matched sourceWithin surveyed destinationWithin element rest ihElement
  | within nest twinNest size positionWithin level _ next ihInner ihNext =>
    exact walks_of_within charts surveyed nest twinNest size positionWithin level next ihInner
      fun _ => ihNext
  | trail nest positionWithin none next ihNext =>
    exact walks_of_trail charts surveyed nest positionWithin none next ihNext
  | loose same supports _ ih =>
    refine walks_of_supports ?_ supports ih
    rcases same with rfl | ⟨alike, _⟩
    · exact .refl _
    · exact alike

end

theorem leaps_of_within {twin : Loop} (nest : Nest arena plot root (loop :: outer))
    (twinNest : Nest arena plot other (twin :: around))
    (size : arena.bytes loop.body = arena.bytes twin.body)
    (within : position.Within arena plot loop.body)
    (twinWithin : destination.Within arena plot twin.body)
    (level : left arena twin.body destination = left arena loop.body position)
    (next : rules.Unrolled arena plot goal (roundEnd arena loop outer) {roundEnd arena twin around})
    (innerLeaps : ∀ first second, Matched arena position destination first second →
      Leaps arena (rules.Unrolled arena plot goal) first second)
    (nextLeaps : ∀ first second, Matched arena (roundEnd arena loop outer)
      (roundEnd arena twin around)
      first second → Leaps arena (rules.Unrolled arena plot goal) first second)
    (matched : Matched arena (position.inside (loop :: outer)) (destination.inside (twin :: around))
      first second) : Leaps arena (rules.Unrolled arena plot goal) first second := by
  have sized := (loop_repeats charts nest.1).isSized
  have twinSized := (loop_repeats charts twinNest.1).isSized
  by_cases none : left arena loop.body position = 0
  · have sourceEnd := matched.source.eq_roundEnd charts nest within none
    have destinationEnd := matched.destination.eq_roundEnd charts twinNest twinWithin (by omega)
    rw [sourceEnd, destinationEnd] at matched
    exact nextLeaps first second matched
  · rcases matched.source.of_inside charts within with ⟨inner, innerStarts, rfl⟩ | rfl
    · rcases matched.destination.of_inside charts twinWithin with ⟨innerTwin, twinStarts, rfl⟩ | rfl
      · have innerMatched : Matched arena position destination inner innerTwin :=
          ⟨innerStarts, twinStarts, matched.size⟩
        rcases innerLeaps inner innerTwin innerMatched with ⟨element, rest⟩
        have shared : (inner.inside (loop :: outer)).shared (innerTwin.inside (twin :: around)) =
            inner.shared innerTwin := rfl
        refine ⟨element, ?_⟩
        rw [shared, Run.after_inside, Run.after_inside, ← inside_singleton]
        rcases Nat.exists_eq_succ_of_ne_zero innerMatched.shared_ne_zero with ⟨begun, isShared⟩
        refine .within nest twinNest size ?_ ?_ rest next
        · rw [isShared]
          exact within_after charts innerStarts within begun
        · rintro _ rfl
          refine ⟨?_, ?_⟩
          · rw [isShared]
            exact within_after charts twinStarts twinWithin begun
          · have fewer : inner.shared innerTwin ≤ inner.count.least := Nat.min_le_left _ _
            have twinFewer : inner.shared innerTwin ≤ innerTwin.count.least := Nat.min_le_right _ _
            have taken := innerStarts.left_after charts sized within fewer
            have twinTaken := twinStarts.left_after charts twinSized twinWithin twinFewer
            rw [← innerMatched.bytes_eq] at twinTaken
            omega
      · have ended := left_stop charts twinSized (loop_repeats charts twinNest.1).inside
        omega
    · have ended := left_stop charts sized (loop_repeats charts nest.1).inside
      omega

theorem leaps (surveyed : rules.Surveyed arena plot True goal)
    (unrolled : rules.Unrolled arena plot goal source footing) (single : footing = {destination})
    (matched : Matched arena source destination first second) :
    Leaps arena (rules.Unrolled arena plot goal) first second := by
  induction unrolled generalizing destination first second with
  | known isGoal =>
    subst single
    rcases surveyed.leaps trivial _ _ _ _ isGoal matched with ⟨element, rest⟩
    exact ⟨.known element, .known rest⟩
  | run known _ _ element rest =>
    rw [Set.singleton_eq_singleton_iff] at single
    subst single
    rcases known.unique matched with ⟨rfl, rfl⟩
    exact ⟨element, rest⟩
  | @within position footing loop twin outer around root other nest twinNest size positionWithin
      level inner next ihInner ihNext =>
      rcases inner.nonempty surveyed with ⟨onlyOne, member⟩
      have isDestination : onlyOne.inside (twin :: around) = destination := by
        have image : onlyOne.inside (twin :: around) ∈ inside footing (twin :: around) :=
          ⟨onlyOne, member, rfl⟩
        rwa [single] at image
      have innerSingle : footing = {onlyOne} := by
        refine Set.eq_singleton_iff_unique_mem.mpr ⟨member, fun anyOne isMember => ?_⟩
        have image : anyOne.inside (twin :: around) ∈ inside footing (twin :: around) :=
          ⟨anyOne, isMember, rfl⟩
        rw [single] at image
        exact inside_injective (image.trans isDestination.symm)
      subst isDestination
      rcases level onlyOne member with ⟨twinWithin, isLeft⟩
      exact leaps_of_within charts nest twinNest size positionWithin twinWithin isLeft next
        (fun _ _ => ihInner innerSingle) (fun _ _ => ihNext rfl) matched
  | trail nest positionWithin none _ ihNext =>
    have atEnd := matched.source.eq_roundEnd charts nest positionWithin none
    rw [atEnd] at matched
    exact ihNext single matched
  | @loose source twin _ _ same supports inner ih =>
    have sameSource : source = twin := by
      rcases same with isSame | ⟨_, notStarts⟩
      · exact isSame
      · exact absurd matched.source (notStarts first)
    subst sameSource
    refine ih ?_ matched
    subst single
    refine Set.eq_singleton_iff_nonempty_unique_mem.mpr ⟨inner.nonempty surveyed, ?_⟩
    intro position member
    rcases supports position member with ⟨_, isBefore, isSame | unmatched, _⟩
    · exact isSame.symm.trans isBefore
    · rw [Set.mem_singleton_iff] at isBefore
      rw [isBefore] at unmatched
      exact absurd matched (unmatched source .refl first second)

theorem coherent (surveyed : rules.Surveyed arena plot True goal) :
    rules.Coherent arena True (rules.Unrolled arena plot goal) where
  nonempty _ _ unrolled := unrolled.nonempty surveyed
  mono _ _ _ unrolled subset := unrolled.mono subset
  walks _ _ unrolled := unrolled.walks charts surveyed
  leaps _ _ _ _ _ unrolled matched := unrolled.leaps charts surveyed rfl matched

end Closure

end Unrolled

theorem Surveyed.exists_coherent {leaping : Prop} (charts : arena.Charts plot proper)
    (surveyed : rules.Surveyed arena plot leaping goal) :
    ∃ larger, (∀ source footing, goal source footing → larger source footing) ∧
      rules.Coherent arena leaping larger := by
  by_cases isLeaping : leaping
  · rw [eq_true isLeaping] at surveyed ⊢
    exact ⟨_, fun _ _ => .known, Unrolled.coherent charts surveyed⟩
  · refine ⟨_, fun source footing isGoal => ⟨footing, subset_rfl, isGoal⟩,
      coherent_of_closed surveyed.nonempty (fun source footing isGoal => ?_) (absurd · isLeaping)⟩
    exact surveyed.walks source footing isGoal (absurd · isLeaping)

end Rules

end Recast
