import Mathlib.Data.Set.Basic
import Recast.Inclusion.Terms
import Recast.Proofs.Position.Padding

/-!
# Reading one layout as another

`Rules.Covers` compares whole values: the letters of the source with the tokens of a walk of the
destination. The walk may end before the value does, and where the value ends first, only padding
may be left of the walk. `Rules.behind` goes letter by letter, from the positions that the
destination may be at to those behind the next letter; `Rules.Walks` says what it takes to go on in
this way.
-/

namespace Recast

/-- What a reading may rest on. -/
structure Rules where
  assumed : Assumptions
  outlives : Lifetime → Lifetime → Bool
  related : Inquiry → Prop

namespace Rules

structure Within (rules wider : Rules) : Prop where
  assumed : ∀ assumption, assumption ∈ rules.assumed → assumption ∈ wider.assumed
  outlives : ∀ longer shorter, rules.outlives longer shorter → wider.outlives longer shorter
  related : ∀ inquiry, rules.related inquiry → wider.related inquiry

/-- A reference may be read as another one: it gains neither access nor width nor, unless that is
assumed, alignment or lifetime. Through an exclusive reference the referent may be written as well,
so the referents must agree both ways. -/
structure Replaces (rules : Rules) (source destination : Reference) : Prop where
  access : ¬ (source.access = .shared ∧ destination.access = .exclusive)
  width : source.width = destination.width
  aligned : destination.align ≤ source.align ∨ .alignment ∈ rules.assumed
  outlived : rules.outlives source.lifetime destination.lifetime ∨ .lifetimes ∈ rules.assumed
  forth : rules.related (source.referent, destination.referent)
  back : destination.access = .exclusive → rules.related (destination.referent, source.referent)

/-- The tokens of a walk of the destination read a prefix of the letters of the source. -/
inductive Covers (rules : Rules) : List Letter → List Token → Prop
  /-- The destination is over, whatever is left of the source. -/
  | finished (letters : List Letter) : Covers rules letters []
  /-- The source is over, and padding is left of the destination. -/
  | padding {tokens : List Token} (rest : Covers rules [] tokens) :
      Covers rules [] (.cell .uninit :: tokens)
  | byte {value : UInt8} {values : ByteSet} {letters : List Letter} {tokens : List Token}
      (accepted : value ∈ values ∨ .validity ∈ rules.assumed) (rest : Covers rules letters tokens) :
      Covers rules (.byte value :: letters) (.cell (.init values) :: tokens)
  | forgottenByte {value : UInt8} {letters : List Letter} {tokens : List Token}
      (rest : Covers rules letters tokens) :
      Covers rules (.byte value :: letters) (.cell .uninit :: tokens)
  | uninit {letters : List Letter} {tokens : List Token} (rest : Covers rules letters tokens) :
      Covers rules (.uninit :: letters) (.cell .uninit :: tokens)
  | reference {source destination : Reference} {letters : List Letter} {tokens : List Token}
      (replaces : rules.Replaces source destination) (rest : Covers rules letters tokens) :
      Covers rules (.reference source :: letters) (.reference destination :: tokens)
  | forgottenReference {source : Reference} {letters : List Letter} {tokens : List Token}
      (rest : Covers rules letters tokens) :
      Covers rules (.reference source :: letters)
        (List.replicate source.width (.cell .uninit) ++ tokens)
  /-- A guarded region of the source is read as the same region. -/
  | marker {name : String} {letters : List Letter} {tokens : List Token}
      (rest : Covers rules letters tokens) :
      Covers rules (.marker name :: letters) (.marker name :: tokens)
  /-- A guarded region of the source is read as plain bytes. -/
  | bare {name : String} {letters : List Letter} {tokens : List Token}
      (rest : Covers rules letters tokens) : Covers rules (.marker name :: letters) tokens
  /-- A guarded region of the destination is entered on assumption. -/
  | entered {name : String} {letters : List Letter} {tokens : List Token}
      (safe : .safety ∈ rules.assumed) (rest : Covers rules letters tokens) :
      Covers rules letters (.marker name :: tokens)

variable {rules wider : Rules} {arena : Arena} {plot : Plot} {proper : Token → Prop}
  {root : LayoutId} {position next last : Position} {letter : Letter}
  {footing larger : Set Position}

theorem Replaces.mono {source destination : Reference} (within : rules.Within wider)
    (replaces : rules.Replaces source destination) : wider.Replaces source destination where
  access := replaces.access
  width := replaces.width
  aligned := replaces.aligned.imp_right (within.assumed _)
  outlived := replaces.outlived.imp (within.outlives _ _) (within.assumed _)
  forth := within.related _ replaces.forth
  back := fun exclusive => within.related _ (replaces.back exclusive)

section Behind

open Position

def Enters (rules : Rules) (arena : Arena) (position next : Position) : Prop :=
  .safety ∈ rules.assumed ∧ ∃ name, Reads arena position (.marker name) next

/-- Any number of guarded regions are entered, one after the other. -/
abbrev Drifts (rules : Rules) (arena : Arena) : Position → Position → Prop :=
  Relation.ReflTransGen (rules.Enters arena)

inductive Forgets (arena : Arena) : Nat → Position → Position → Prop
  | done (position : Position) : Forgets arena 0 position position
  | more {width : Nat} {position next last : Position}
      (reads : Reads arena position (.cell .uninit) next) (onward : Forgets arena width next last) :
      Forgets arena (width + 1) position last

inductive Takes (rules : Rules) (arena : Arena) : Letter → Position → Position → Prop
  | byte {value : UInt8} {contents : Cell} {position next : Position}
      (accepted : value ∈ contents.accepted) (reads : Reads arena position (.cell contents) next) :
      Takes rules arena (.byte value) position next
  | anyByte {value : UInt8} {values : ByteSet} {position next : Position}
      (valid : .validity ∈ rules.assumed)
        (reads : Reads arena position (.cell (.init values)) next) :
      Takes rules arena (.byte value) position next
  | uninit {position next : Position} (reads : Reads arena position (.cell .uninit) next) :
      Takes rules arena .uninit position next
  | reference {source destination : Reference} {position next : Position}
      (replaces : rules.Replaces source destination)
      (reads : Reads arena position (.reference destination) next) :
      Takes rules arena (.reference source) position next
  | forgottenReference {source : Reference} {position next : Position}
      (forgets : Forgets arena source.width position next) :
      Takes rules arena (.reference source) position next
  | marker {name : String} {position next : Position}
      (reads : Reads arena position (.marker name) next) :
      Takes rules arena (.marker name) position next

/-- The positions that can be reached from some by entering guarded regions. -/
def reach (rules : Rules) (arena : Arena) (footing : Set Position) : Set Position :=
  {position | ∃ origin ∈ footing, rules.Drifts arena origin position}

/-- The positions behind a letter. The start of a guarded region of the source may be passed over.
-/
def behind (rules : Rules) (arena : Arena) (letter : Letter) (footing : Set Position) :
    Set Position :=
  {next | (∃ position ∈ rules.reach arena footing, rules.Takes arena letter position next) ∨
    (∃ name, letter = .marker name) ∧ next ∈ footing}

theorem subset_reach : footing ⊆ rules.reach arena footing :=
  fun position member => ⟨position, member, .refl⟩

section

variable (within : rules.Within wider)
include within

theorem Drifts.mono (drifts : rules.Drifts arena position next) :
    wider.Drifts arena position next := by
  induction drifts with
  | refl => exact .refl
  | tail _ enters ih => exact ih.tail ⟨within.assumed _ enters.1, enters.2⟩

theorem Takes.mono (takes : rules.Takes arena letter position next) :
    wider.Takes arena letter position next := by
  cases takes with
  | byte accepted reads => exact .byte accepted reads
  | anyByte valid reads => exact .anyByte (within.assumed _ valid) reads
  | uninit reads => exact .uninit reads
  | reference replaces reads => exact .reference (replaces.mono within) reads
  | forgottenReference forgets => exact .forgottenReference forgets
  | marker reads => exact .marker reads

theorem reach_mono (subset : footing ⊆ larger) :
    rules.reach arena footing ⊆ wider.reach arena larger := by
  rintro _ ⟨origin, member, drifts⟩
  exact ⟨origin, subset member, drifts.mono within⟩

theorem behind_mono (subset : footing ⊆ larger) :
    rules.behind arena letter footing ⊆ wider.behind arena letter larger := by
  rintro _ (⟨position, member, takes⟩ | ⟨isMarker, member⟩)
  · exact .inl ⟨position, reach_mono within subset member, takes.mono within⟩
  · exact .inr ⟨isMarker, subset member⟩

end

theorem Forgets.within (charts : arena.Charts plot proper) {width : Nat}
    (forgets : Forgets arena width position next) (within : position.Within arena plot root) :
    next.Within arena plot root := by
  induction forgets with
  | done => exact within
  | more reads _ ih => exact ih (reads.within charts within)

theorem Drifts.within (charts : arena.Charts plot proper)
    (drifts : rules.Drifts arena position next) (within : position.Within arena plot root) :
    next.Within arena plot root := by
  induction drifts with
  | refl => exact within
  | tail _ enters ih =>
    rcases enters.2 with ⟨_, reads⟩
    exact reads.within charts ih

theorem Takes.reads_or_forgets (takes : rules.Takes arena letter position next) :
    (∃ token, Reads arena position token next ∧ token.width = letter.width ∧
      ∀ {arena position next}, Reads arena position token next →
        rules.Takes arena letter position next) ∨
    ∃ source, letter = .reference source ∧ Forgets arena source.width position next := by
  cases takes with
  | byte accepted reads => exact .inl ⟨_, reads, rfl, .byte accepted⟩
  | anyByte valid reads => exact .inl ⟨_, reads, rfl, .anyByte valid⟩
  | uninit reads => exact .inl ⟨_, reads, rfl, .uninit⟩
  | reference replaces reads => exact .inl ⟨_, reads, replaces.width.symm, .reference replaces⟩
  | forgottenReference forgets => exact .inr ⟨_, rfl, forgets⟩
  | marker reads => exact .inl ⟨_, reads, rfl, .marker⟩

theorem Takes.within (charts : arena.Charts plot proper)
    (takes : rules.Takes arena letter position next) (within : position.Within arena plot root) :
    next.Within arena plot root := by
  rcases takes.reads_or_forgets with ⟨_, reads, _⟩ | ⟨_, _, forgets⟩
  · exact reads.within charts within
  · exact forgets.within charts within

end Behind

section Walks

open Position

variable {letters : List Letter} {tokens : List Token}

def Over (arena : Arena) (position : Position) : Prop :=
  Ends arena position ∧ ∀ token next, ¬ Reads arena position token next

/-- What it takes to go on letter by letter, towards a goal: the destination is over, or it can do
without more where the source may end, and reads whatever the source may hold next. -/
def Walks (rules : Rules) (arena : Arena) (goal : Position → Set Position → Prop)
    (source : Position) (footing : Set Position) : Prop :=
  (∃ position ∈ rules.reach arena footing, Over arena position) ∨
    (Ends arena source → ∃ position ∈ rules.reach arena footing, Ends arena position ∨
      Pads arena position) ∧
    ∀ token next letter, Reads arena source token next → token.Holds letter →
      ∃ onward ⊆ rules.behind arena letter footing, onward.Nonempty ∧ goal next onward

theorem Walks.mono {source : Position} {goal weaker : Position → Set Position → Prop}
    (within : rules.Within wider) (subset : footing ⊆ larger)
    (imp : ∀ source footing, goal source footing → weaker source footing)
    (walks : rules.Walks arena goal source footing) :
    wider.Walks arena weaker source larger := by
  rcases walks with ⟨position, member, ended⟩ | ⟨ends, reads⟩
  · exact .inl ⟨position, reach_mono within subset member, ended⟩
  · refine .inr ⟨fun sourceEnds => ?_, fun token next letter isRead holds => ?_⟩
    · rcases ends sourceEnds with ⟨position, member, may⟩
      exact ⟨position, reach_mono within subset member, may⟩
    · rcases reads token next letter isRead holds with ⟨onward, inside, nonempty, isGoal⟩
      exact ⟨onward, inside.trans (behind_mono within subset), nonempty, imp next onward isGoal⟩

/-- A walk of the destination from one of some positions covers the letters. -/
def CoversFrom (rules : Rules) (arena : Arena) (footing : Set Position) (letters : List Letter) :
    Prop :=
  ∃ position ∈ footing, ∃ tokens, Trace arena position tokens ∧ rules.Covers letters tokens

theorem CoversFrom.of_drifts (drifts : rules.Drifts arena position next)
    (trace : Trace arena next tokens) (covers : rules.Covers letters tokens) :
    ∃ more, Trace arena position more ∧ rules.Covers letters more := by
  induction drifts using Relation.ReflTransGen.head_induction_on with
  | refl => exact ⟨tokens, trace, covers⟩
  | head enters _ ih =>
    rcases ih with ⟨_, onward, isCovered⟩
    rcases enters with ⟨safe, _, reads⟩
    exact ⟨_, .reads reads onward, .entered safe isCovered⟩

theorem CoversFrom.of_reach (member : position ∈ rules.reach arena footing)
    (trace : Trace arena position tokens) (covers : rules.Covers letters tokens) :
    rules.CoversFrom arena footing letters := by
  rcases member with ⟨origin, isOrigin, drifts⟩
  rcases of_drifts drifts trace covers with ⟨more, onward, isCovered⟩
  exact ⟨origin, isOrigin, more, onward, isCovered⟩

theorem Forgets.trace {width : Nat} (forgets : Forgets arena width position next)
    (trace : Trace arena next tokens) :
    Trace arena position (List.replicate width (.cell .uninit) ++ tokens) := by
  induction forgets with
  | done => exact trace
  | more reads _ ih => exact .reads reads (ih trace)

theorem Takes.covers (takes : rules.Takes arena letter position next)
    (trace : Trace arena next tokens) (covers : rules.Covers letters tokens) :
    ∃ more, Trace arena position more ∧ rules.Covers (letter :: letters) more := by
  cases takes with
  | @byte _ contents _ _ accepted reads =>
    refine ⟨_, .reads reads trace, ?_⟩
    cases contents with
    | uninit => exact .forgottenByte covers
    | init => exact .byte (.inl accepted) covers
  | anyByte valid reads => exact ⟨_, .reads reads trace, .byte (.inr valid) covers⟩
  | uninit reads => exact ⟨_, .reads reads trace, .uninit covers⟩
  | reference replaces reads => exact ⟨_, .reads reads trace, .reference replaces covers⟩
  | forgottenReference forgets => exact ⟨_, forgets.trace trace, .forgottenReference covers⟩
  | marker reads => exact ⟨_, .reads reads trace, .marker covers⟩

theorem CoversFrom.of_behind
    (covers : rules.CoversFrom arena (rules.behind arena letter footing) letters) :
    rules.CoversFrom arena footing (letter :: letters) := by
  rcases covers with ⟨next, ⟨_, isReached, takes⟩ | ⟨⟨_, rfl⟩, member⟩, tokens, trace, isCovered⟩
  · rcases takes.covers trace isCovered with ⟨_, onward, covered⟩
    exact of_reach isReached onward covered
  · exact ⟨next, member, tokens, trace, .bare isCovered⟩

theorem covers_padding (trace : Trace arena position tokens)
    (pads : ∀ token, Meets arena position token → token = .cell .uninit) :
    rules.Covers [] tokens := by
  induction trace with
  | ends => exact .finished []
  | @reads _ next token _ reads _ ih =>
    have isPadding : token = .cell .uninit :=
      pads token (meets_iff_reads.mpr ⟨token, next, reads, .inl rfl⟩)
    subst isPadding
    refine .padding (ih fun other meets => pads other ?_)
    exact meets_iff_reads.mpr ⟨_, next, reads, .inr meets⟩

theorem CoversFrom.mono (subset : footing ⊆ larger)
    (covers : rules.CoversFrom arena footing letters) :
    rules.CoversFrom arena larger letters := by
  rcases covers with ⟨position, member, onward⟩
  exact ⟨position, subset member, onward⟩

theorem covers {goal : Position → Set Position → Prop}
    (walks : ∀ source footing, goal source footing → rules.Walks arena goal source footing)
    {source : Position} (trace : Trace arena source tokens)
    (holds : List.Forall₂ Token.Holds tokens letters) {footing : Set Position}
    (isGoal : goal source footing) :
    rules.CoversFrom arena footing letters := by
  induction trace generalizing letters footing with
  | ends ends =>
    cases holds
    rcases walks _ _ isGoal with ⟨position, member, ended⟩ | ⟨atEnd, _⟩
    · exact .of_reach member (.ends ended.1) (.finished [])
    · rcases atEnd ends with ⟨_, member, mayEnd | pads⟩
      · exact .of_reach member (.ends mayEnd) (.finished [])
      · rcases pads.finishes with ⟨_, trace⟩
        exact .of_reach member trace (covers_padding trace pads.padding)
  | reads reads _ ih =>
    cases holds with
    | cons isHeld rest =>
      rcases walks _ _ isGoal with ⟨_, member, ended⟩ | ⟨_, onward⟩
      · exact .of_reach member (.ends ended.1) (.finished _)
      · rcases onward _ _ _ reads isHeld with ⟨_, subset, _, goesOn⟩
        exact .of_behind ((ih rest goesOn).mono subset)

end Walks

end Rules

end Recast
