import Recast.Proofs.Inclusion.Classes

/-!
# Reading bytes and markers

Each pairing that follows a token stands for a letter of it; its positions are among those behind
the letter by the upper rules, and comprise all those behind it by the lower rules
(`Pairing.Tracks`). The upper rules may use the assumptions that were reported, the lower rules must
not assume validity. For bytes this rests on the partition of their values: each class has all those
reads that accept its values (`ByteClass.Exact`).
-/

namespace Recast

open Position List Foothold
open Foothold (positions mem_positions)

variable {values : ByteSet} {part : ByteClass} {byte : UInt8} {footholds : List Foothold}
  {diagnostic : Diagnostic} {letter : Letter}

/-- The pairing stands for a letter of the source: its footholds lie between the positions that
lower rules demand and those that upper rules allow. -/
structure Pairing.Tracks (upper lower : Rules) (arena : Arena) (footing : Set Position)
    (source : Position) (letter : Letter) (pairing : Pairing) : Prop where
  source : pairing.source = source
  nonempty : (positions pairing.footholds).Nonempty
  distinct : (pairing.footholds.map Foothold.position).Nodup
  upper : positions pairing.footholds ⊆ upper.behind arena letter footing
  lower : lower.behind arena letter footing ⊆ positions pairing.footholds

/-- All letters of a token are followed up, and nothing else is. -/
structure Onward.Follows (upper lower : Rules) (arena : Arena) (footing : Set Position)
    (source : Position) (token : Token) (onward : Onward) : Prop where
  each : ∀ letter, token.Holds letter → ∃ entry ∈ onward.next,
    entry.2.Tracks upper lower arena footing source letter
  all : ∀ entry ∈ onward.next, ∃ letter, token.Holds letter ∧
    entry.2.Tracks upper lower arena footing source letter

/-- The entry has the footholds that can be reached from a footing, between two bounds. -/
structure Entry.Opened (upper lower : Rules) (arena : Arena) (plot : Plot) (footing : Set Position)
    (entry : Entry) : Prop where
  prospects : entry.prospects = .ofFootholds arena entry.footholds
  located : Located arena plot (positions entry.footholds)
  upper : positions entry.footholds ⊆ upper.reach arena footing
  lower : lower.reach arena footing ⊆ positions entry.footholds

variable {upper lower : Rules} {arena : Arena} {plot : Plot} {proper : Token → Prop}
  {footing : Set Position} {entry : Entry} {source position next : Position} {token : Token}
  {foothold : Foothold} {exercised : Assumptions} {onward : Onward}

theorem Pairing.tracks_distinct (nonempty : (positions footholds).Nonempty)
    (isUpper : positions footholds ⊆ upper.behind arena letter footing)
    (isLower : lower.behind arena letter footing ⊆ positions footholds) :
    Pairing.Tracks upper lower arena footing source letter ⟨source, distinct footholds⟩ := by
  rw [← positions_distinct] at nonempty isUpper isLower
  exact ⟨rfl, nonempty, nodup_distinct _, isUpper, isLower⟩

section Charted

variable (charts : arena.Charts plot proper)
include charts

section

variable (opened : entry.Opened upper lower arena plot footing)
include opened

theorem Entry.Opened.mem_reads :
    (token, foothold) ∈ entry.prospects.reads ↔ (∀ name, token ≠ .marker name) ∧
      ∃ origin ∈ entry.footholds, ∃ next, Reads arena origin.position token next ∧
        foothold = origin.moveTo next := by
  rw [opened.prospects]
  exact Prospects.mem_reads charts opened.located

theorem Entry.Opened.position_of_mem (member : (token, foothold) ∈ entry.prospects.reads) :
    ∃ origin ∈ upper.reach arena footing, Reads arena origin token foothold.position := by
  rcases ((opened.mem_reads charts).mp member).2 with ⟨origin, isOrigin, _, reads, rfl⟩
  exact ⟨_, opened.upper ⟨origin, isOrigin, rfl⟩, reads⟩

theorem Entry.Opened.mem_of_reads (notMarker : ∀ name, token ≠ .marker name)
    (reached : position ∈ lower.reach arena footing) (reads : Reads arena position token next) :
    ∃ foothold, (token, foothold) ∈ entry.prospects.reads ∧ foothold.position = next := by
  rcases opened.lower reached with ⟨origin, isOrigin, rfl⟩
  exact ⟨origin.moveTo next, (opened.mem_reads charts).mpr
    ⟨notMarker, origin, isOrigin, next, reads, rfl⟩, rfl⟩

end

end Charted

theorem Prospects.mem_behindValues {prospects : Prospects} :
    foothold ∈ prospects.behindValues ↔ ∃ values,
      (.cell (.init values), foothold) ∈ prospects.reads := by
  simp only [behindValues, mem_filterMap, Prod.exists]
  constructor
  · rintro ⟨token, _, isRead, found⟩
    split at found
    · exact ⟨_, Option.some.inj found ▸ isRead⟩
    · cases found
  · exact fun ⟨_, isRead⟩ => ⟨_, _, isRead, rfl⟩

namespace Terms

variable {terms : Terms} {parts : List ByteClass}

section

variable (charts : arena.Charts plot proper) (opened : entry.Opened upper lower arena plot footing)
  (parted : ByteClass.Exact values entry.prospects.reads parts) (isPart : part ∈ parts)
  (inPart : byte ∈ part.values) (strict : .validity ∉ lower.assumed)
include charts opened parted isPart inPart strict

/-- By the lower rules, only reads that accept the value count. -/
theorem lower_behind_byte : lower.behind arena (.byte byte) footing ⊆ positions part.footholds := by
  rintro after (⟨_, reached, takes⟩ | ⟨⟨_, isMarker⟩, _⟩)
  · cases takes with
    | byte accepted reads =>
      rcases opened.mem_of_reads charts (by simp) reached reads with ⟨foothold, member, same⟩
      exact ⟨foothold, (parted.mem_footholds isPart inPart).mpr ⟨_, member, accepted⟩, same⟩
    | anyByte assumed => exact absurd assumed strict
  · simp at isMarker

theorem not_lower_behind_byte (none : part.footholds = []) :
    ¬ (lower.behind arena (.byte byte) footing).Nonempty := by
  rintro ⟨_, behind⟩
  rcases lower_behind_byte charts opened parted isPart inPart strict behind with ⟨_, member, _⟩
  simp [none] at member

theorem matchClass_eq_ok
    (valid : ∀ assumption ∈ exercised, assumption ∈ terms.assumed → assumption ∈ upper.assumed)
    (found : terms.matchClass entry part = .ok (exercised, footholds)) :
    Pairing.Tracks upper lower arena footing source (.byte byte) ⟨source, footholds⟩ := by
  simp only [matchClass] at found
  split at found
  · rename_i some
    simp only [Except.ok.injEq, Prod.mk.injEq] at found
    rcases found with ⟨_, rfl⟩
    refine Pairing.tracks_distinct ?_ ?_
      (lower_behind_byte charts opened parted isPart inPart strict)
    · rw [positions_nonempty]
      simpa using some
    · rintro _ ⟨foothold, member, rfl⟩
      rcases (parted.mem_footholds isPart inPart).mp member with ⟨_, isRead, accepted⟩
      rcases opened.position_of_mem charts isRead with ⟨origin, reached, reads⟩
      exact .inl ⟨origin, reached, .byte accepted reads⟩
  · rename_i none
    split at found
    · rename_i assumed
      simp only [Except.ok.injEq, Prod.mk.injEq] at found
      rcases found with ⟨isExercised, rfl⟩
      rw [Bool.and_eq_true] at assumed
      have isValid : .validity ∈ upper.assumed := by
        refine valid _ ?_ assumed.1
        rw [← isExercised, Assumptions.mem_union]
        exact .inl (Assumptions.mem_singleton.mpr rfl)
      refine Pairing.tracks_distinct ?_ ?_ ?_
      · rw [positions_nonempty]
        simpa using assumed.2
      · rintro _ ⟨foothold, member, rfl⟩
        rcases Prospects.mem_behindValues.mp member with ⟨values, isRead⟩
        rcases opened.position_of_mem charts isRead with ⟨origin, reached, reads⟩
        exact .inl ⟨origin, reached, .anyByte isValid reads⟩
      · exact fun _ behind => absurd ⟨_, behind⟩
          (not_lower_behind_byte charts opened parted isPart inPart strict (by simpa using none))
    · simp at found

theorem matchClass_eq_error (found : terms.matchClass entry part = .error diagnostic) :
    ¬ (lower.behind arena (.byte byte) footing).Nonempty := by
  refine not_lower_behind_byte charts opened parted isPart inPart strict ?_
  simp only [matchClass] at found
  split at found
  · simp at found
  · rename_i none
    simpa using none

end

theorem matchClasses_eq_ok (found : terms.matchClasses entry source parts = .ok onward) :
    (∀ part ∈ parts, ∃ exercised footholds,
      terms.matchClass entry part = .ok (exercised, footholds) ∧
        (∀ assumption ∈ exercised, assumption ∈ onward.exercised) ∧
        (1, ⟨source, footholds⟩) ∈ onward.next) ∧
      ∀ after ∈ onward.next, ∃ part ∈ parts, ∃ exercised footholds,
        terms.matchClass entry part = .ok (exercised, footholds) ∧
          (∀ assumption ∈ exercised, assumption ∈ onward.exercised) ∧
          after = (1, ⟨source, footholds⟩) := by
  induction parts generalizing onward with
  | nil =>
    simp only [matchClasses, Except.ok.injEq] at found
    subst found
    simp
  | cons part rest ih =>
    rw [matchClasses] at found
    split at found
    · simp at found
    · rename_i exercised footholds isMatch
      split at found
      · simp at found
      · rename_i others isRest
        simp only [Except.ok.injEq] at found
        subst found
        rcases ih isRest with ⟨each, all⟩
        have first (assumption : Assumption) (member : assumption ∈ exercised) :
            assumption ∈ exercised ∪ others.exercised := Assumptions.mem_union.mpr (.inl member)
        have second (assumption : Assumption) (member : assumption ∈ others.exercised) :
            assumption ∈ exercised ∪ others.exercised := Assumptions.mem_union.mpr (.inr member)
        constructor
        · rintro other (_ | ⟨_, isOther⟩)
          · exact ⟨exercised, footholds, isMatch, first, mem_cons_self⟩
          · rcases each other isOther with ⟨used, found, isFound, inside, member⟩
            exact ⟨used, found, isFound, fun _ isUsed => second _ (inside _ isUsed),
              mem_cons_of_mem _ member⟩
        · rintro after (_ | ⟨_, isAfter⟩)
          · exact ⟨part, mem_cons_self, exercised, footholds, isMatch, first, rfl⟩
          · rcases all after isAfter with ⟨other, isOther, used, found, isFound, inside, same⟩
            exact ⟨other, mem_cons_of_mem _ isOther, used, found, isFound,
              fun _ isUsed => second _ (inside _ isUsed), same⟩

theorem matchClasses_eq_error (found : terms.matchClasses entry source parts = .error diagnostic) :
    ∃ part ∈ parts, ∃ other, terms.matchClass entry part = .error other := by
  induction parts with
  | nil => simp [matchClasses] at found
  | cons part rest ih =>
    rw [matchClasses] at found
    split at found
    · rename_i isError
      exact ⟨part, mem_cons_self, _, isError⟩
    · split at found
      · rename_i isError
        simp only [Except.error.injEq] at found
        rcases ih (found ▸ isError) with ⟨other, isOther, isError⟩
        exact ⟨other, mem_cons_of_mem _ isOther, isError⟩
      · simp at found

section

variable (charts : arena.Charts plot proper) (opened : entry.Opened upper lower arena plot footing)
  (some : ∃ byte, byte ∈ values)
include charts opened some

theorem matchBytes_eq_ok
    (valid : ∀ assumption ∈ onward.exercised, assumption ∈ terms.assumed →
      assumption ∈ upper.assumed)
    (strict : .validity ∉ lower.assumed)
    (found : terms.matchBytes entry source values = .ok onward) :
    onward.Follows upper lower arena footing source (.cell (.init values)) := by
  have parted := ByteClass.exact_partition some entry.prospects.reads
  rcases matchClasses_eq_ok found with ⟨each, all⟩
  constructor
  · intro letter holds
    cases holds with
    | byte member =>
      rcases (parted.covers _).mp member with ⟨part, isPart, inPart⟩
      rcases each part isPart with ⟨exercised, footholds, isMatch, inside, isNext⟩
      exact ⟨_, isNext, matchClass_eq_ok charts opened parted isPart inPart strict
        (fun _ used => valid _ (inside _ used)) isMatch⟩
  · intro after isNext
    rcases all after isNext with ⟨part, isPart, exercised, footholds, isMatch, inside, rfl⟩
    rcases parted.nonempty part isPart with ⟨byte, inPart⟩
    exact ⟨.byte byte, .byte ((parted.covers byte).mpr ⟨part, isPart, inPart⟩),
      matchClass_eq_ok charts opened parted isPart inPart strict
        (fun _ used => valid _ (inside _ used)) isMatch⟩

theorem matchBytes_eq_error (strict : .validity ∉ lower.assumed)
    (found : terms.matchBytes entry source values = .error diagnostic) :
    ∃ letter, (Token.cell (.init values)).Holds letter ∧
      ¬ (lower.behind arena letter footing).Nonempty := by
  have parted := ByteClass.exact_partition some entry.prospects.reads
  rcases matchClasses_eq_error found with ⟨part, isPart, _, isError⟩
  rcases parted.nonempty part isPart with ⟨byte, inPart⟩
  exact ⟨.byte byte, .byte ((parted.covers byte).mpr ⟨part, isPart, inPart⟩),
    matchClass_eq_error charts opened parted isPart inPart strict isError⟩

end

end Terms

theorem Onward.follows_single {distance : Nat}
    (holds_iff : ∀ other, token.Holds other ↔ other = letter)
    (nonempty : (positions footholds).Nonempty)
    (isUpper : positions footholds ⊆ upper.behind arena letter footing)
    (isLower : lower.behind arena letter footing ⊆ positions footholds) :
    Onward.Follows upper lower arena footing source token
      { exercised, next := [(distance, ⟨source, distinct footholds⟩)] } := by
  have tracks : Pairing.Tracks upper lower arena footing source letter _ :=
    Pairing.tracks_distinct nonempty isUpper isLower
  constructor
  · intro _ holds
    rw [holds_iff] at holds
    subst holds
    exact ⟨_, mem_singleton_self _, tracks⟩
  · intro _ isNext
    rw [mem_singleton] at isNext
    subst isNext
    exact ⟨letter, (holds_iff letter).mpr rfl, tracks⟩

theorem Token.holds_uninit : (Token.cell .uninit).Holds letter ↔ letter = .uninit :=
  ⟨fun holds => by cases holds; rfl, fun same => same ▸ .uninit⟩

theorem Token.holds_reference {target : Reference} :
    (Token.reference target).Holds letter ↔ letter = .reference target :=
  ⟨fun holds => by cases holds; rfl, fun same => same ▸ .reference target⟩

theorem Token.holds_marker {name : String} :
    (Token.marker name).Holds letter ↔ letter = .marker name :=
  ⟨fun holds => by cases holds; rfl, fun same => same ▸ .marker name⟩

namespace Entry

def behindUninit (entry : Entry) : List Foothold :=
  entry.prospects.reads.filterMap fun (token, foothold) =>
    if token = .cell .uninit then some foothold else none

theorem mem_behindUninit :
    foothold ∈ entry.behindUninit ↔ (.cell .uninit, foothold) ∈ entry.prospects.reads := by
  simp [behindUninit]

variable (charts : arena.Charts plot proper)
include charts

section

variable (opened : entry.Opened upper lower arena plot footing)
include opened

theorem Opened.lower_behindUninit :
    lower.behind arena .uninit footing ⊆ positions entry.behindUninit := by
  rintro _ (⟨_, reached, takes⟩ | ⟨⟨_, isMarker⟩, _⟩)
  · cases takes with
    | uninit reads =>
      rcases opened.mem_of_reads charts (by simp) reached reads with ⟨foothold, member, same⟩
      exact ⟨foothold, mem_behindUninit.mpr member, same⟩
  · simp at isMarker

theorem matchUninit_eq_ok (found : entry.matchUninit source = .ok onward) :
    onward.Follows upper lower arena footing source (.cell .uninit) := by
  simp only [matchUninit] at found
  split at found
  · simp at found
  · rename_i some
    simp only [Except.ok.injEq] at found
    subst found
    refine Onward.follows_single (fun _ => Token.holds_uninit) ?_ ?_
      (opened.lower_behindUninit charts)
    · rw [positions_nonempty]
      simpa [behindUninit] using some
    · rintro _ ⟨_, member, rfl⟩
      rcases opened.position_of_mem charts (mem_behindUninit.mp member) with
        ⟨origin, reached, reads⟩
      exact .inl ⟨origin, reached, .uninit reads⟩

theorem matchUninit_eq_error (found : entry.matchUninit source = .error diagnostic) :
    ¬ (lower.behind arena .uninit footing).Nonempty := by
  simp only [matchUninit] at found
  split at found
  · rename_i none
    rintro ⟨_, behind⟩
    rcases opened.lower_behindUninit charts behind with ⟨_, member, _⟩
    have isEmpty : entry.behindUninit = [] := List.isEmpty_iff.mp none
    simp [isEmpty] at member
  · simp at found

end

theorem matchMarker_follows {name : String}
    (opened : entry.Opened upper lower arena plot (positions footholds))
    (nonempty : (positions footholds).Nonempty) :
    (entry.matchMarker source footholds name).Follows upper lower arena (positions footholds) source
      (.marker name) := by
  have mem_inside (foothold : Foothold) :
      (foothold ∈ entry.prospects.markers.filterMap fun marker =>
        if marker.1 = name then some marker.2 else none) ↔
        ∃ origin ∈ entry.footholds, ∃ next, Reads arena origin.position (.marker name) next ∧
          foothold = origin.moveTo next := by
    rw [← Prospects.mem_markers charts opened.located, ← opened.prospects]
    simp
  refine Onward.follows_single (fun _ => Token.holds_marker) ?_ ?_ ?_
  · rw [positions_append]
    exact nonempty.inl
  · rw [positions_append]
    rintro _ (kept | ⟨foothold, member, rfl⟩)
    · exact .inr ⟨⟨name, rfl⟩, kept⟩
    · rcases (mem_inside foothold).mp member with ⟨origin, isOrigin, _, reads, rfl⟩
      exact .inl ⟨_, opened.upper ⟨origin, isOrigin, rfl⟩, .marker reads⟩
  · rw [positions_append]
    rintro after (⟨_, reached, takes⟩ | ⟨_, kept⟩)
    · cases takes with
      | marker reads =>
        rcases opened.lower reached with ⟨origin, isOrigin, rfl⟩
        exact .inr ⟨origin.moveTo after, (mem_inside _).mpr ⟨origin, isOrigin, after, reads, rfl⟩,
          rfl⟩
    · exact .inl kept

end Entry

end Recast
