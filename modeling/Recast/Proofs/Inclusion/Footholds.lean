import Recast.Proofs.Inclusion.Reading
import Recast.Proofs.Position.Idle

/-!
# Footholds

What matters of a list of footholds is the set of their positions. Sorting out duplicates keeps the
set (`Foothold.positions_distinct`), and entering guarded regions leads to all positions that can be
reached in this way (`Entry.positions_enter`): each round goes one marker further, and a way along
markers passes no state twice, so there are enough rounds.
-/

namespace Recast

open Position List

variable {footholds : List Foothold} {position : Position} {foothold : Foothold} {arena : Arena}
  {plot : Plot} {proper : Token → Prop} {name : String}

theorem Loop.key_eq (loop : Loop) :
    loop.key = [loop.body.index, loop.exit.index, if loop.toCome.isExact then 0 else 1,
      loop.toCome.least] := rfl

theorem Loop.key_injective {loop other : Loop} (same : loop.key = other.key) : loop = other := by
  rcases loop with ⟨⟨body⟩, ⟨exit⟩, count⟩
  rcases other with ⟨⟨otherBody⟩, ⟨otherExit⟩, otherCount⟩
  cases count <;> cases otherCount <;> simp_all [Loop.key_eq, Count.isExact, Count.least]

theorem Loop.flatMap_key_injective {loops others : List Loop}
    (same : loops.flatMap Loop.key = others.flatMap Loop.key) : loops = others := by
  induction loops generalizing others with
  | nil =>
    cases others with
    | nil => rfl
    | cons => simp [Loop.key_eq] at same
  | cons _ _ ih =>
    cases others with
    | nil => simp [Loop.key_eq] at same
    | cons =>
      rw [flatMap_cons, flatMap_cons] at same
      rcases append_inj same (by simp [Loop.key_eq]) with ⟨sameKey, sameRest⟩
      rw [Loop.key_injective sameKey, ih sameRest]

theorem Position.key_injective {other : Position} (same : position.key = other.key) :
    position = other := by
  rcases position with ⟨⟨_⟩, _⟩
  rcases other with ⟨⟨_⟩, _⟩
  simp only [key, cons.injEq] at same
  rcases same with ⟨rfl, sameLoops⟩
  have reversed := Loop.flatMap_key_injective sameLoops
  rw [reverse_inj] at reversed
  rw [reversed]

namespace Foothold

variable {more : List Foothold}

def positions (footholds : List Foothold) : Set Position :=
  {position | ∃ foothold ∈ footholds, foothold.position = position}

theorem mem_positions :
    position ∈ positions footholds ↔ ∃ foothold ∈ footholds, foothold.position = position := Iff.rfl

theorem positions_append :
    positions (footholds ++ more) = positions footholds ∪ positions more := by
  ext position
  simp only [mem_positions, mem_append, Set.mem_union, or_and_right, exists_or]

theorem positions_nonempty : (positions footholds).Nonempty ↔ footholds.isEmpty = false := by
  cases footholds with
  | nil => simp [positions]
  | cons first => simp only [isEmpty_cons, iff_true]; exact ⟨_, first, by simp, rfl⟩

section Distinct

variable {map : Std.TreeMap (List Nat) Foothold}

def Keyed (map : Std.TreeMap (List Nat) Foothold) : Prop :=
  ∀ (key : List Nat) (foothold : Foothold), map[key]? = some foothold → foothold.position.key = key

theorem getElem?_addTo (key : List Nat) :
    (addTo map foothold)[key]? = if foothold.position.key = key then
        some (match map[key]? with
          | none => foothold
          | some other => { other with guarded := foothold.guarded && other.guarded })
      else map[key]? := by
  unfold addTo
  simp only
  split <;>
  · rename_i found
    simp only [Std.TreeMap.getElem?_insert, Std.LawfulEqCmp.compare_eq_iff_eq]
    split
    · rename_i same
      simp [← same, found]
    · rfl

theorem Keyed.addTo (keyed : Keyed map) : Keyed (addTo map foothold) := by
  intro key found isFound
  rw [getElem?_addTo] at isFound
  split at isFound
  · rename_i same
    rcases present : map[key]? with _ | other <;> simp only [present, Option.some.injEq] at isFound
    · exact isFound ▸ same
    · rw [← isFound]
      exact keyed key other present
  · exact keyed key found isFound

theorem Keyed.foldl (keyed : Keyed map) (footholds : List Foothold) :
    Keyed (footholds.foldl Foothold.addTo map) := by
  induction footholds generalizing map with
  | nil => exact keyed
  | cons _ _ ih => exact ih keyed.addTo

theorem isSome_foldl_addTo (footholds : List Foothold) (position : Position) :
    (footholds.foldl addTo map)[position.key]?.isSome ↔
      position ∈ positions footholds ∨ map[position.key]?.isSome := by
  induction footholds generalizing map with
  | nil => simp [mem_positions]
  | cons foothold rest ih =>
    rw [foldl_cons, ih, getElem?_addTo]
    have cons : position ∈ positions (foothold :: rest) ↔
        foothold.position = position ∨ position ∈ positions rest := by
      simp [mem_positions]
    rw [cons]
    by_cases same : foothold.position = position
    · simp [same]
    · have other : foothold.position.key ≠ position.key :=
        fun sameKey => same (key_injective sameKey)
      simp [same, other]

theorem keyed_empty : Keyed ∅ := by
  intro _ _ found
  simp at found

theorem distinct_eq (footholds : List Foothold) :
    distinct footholds = (footholds.foldl addTo ∅).toList.map Prod.snd := by
  have folded : (footholds.foldl addTo ∅).values =
      (footholds.foldl addTo ∅).foldr (fun _ foothold all => foothold :: all) [] := rfl
  rw [distinct, folded, Std.TreeMap.foldr_eq_foldr_toList]
  induction (footholds.foldl addTo ∅).toList with
  | nil => rfl
  | cons _ _ ih => simp [ih]

@[simp]
theorem positions_distinct : positions (distinct footholds) = positions footholds := by
  ext position
  have keyed := keyed_empty.foldl footholds
  have found : (footholds.foldl addTo ∅)[position.key]?.isSome ↔
      position ∈ positions footholds := by
    rw [isSome_foldl_addTo]
    simp
  rw [← found, Option.isSome_iff_exists]
  simp only [mem_positions, distinct_eq, mem_map, Prod.exists,
    Std.TreeMap.mem_toList_iff_getElem?_eq_some]
  constructor
  · rintro ⟨_, ⟨key, foothold, isFound, rfl⟩, rfl⟩
    exact ⟨foothold, keyed key foothold isFound ▸ isFound⟩
  · rintro ⟨foothold, isFound⟩
    exact ⟨foothold, ⟨_, foothold, isFound, rfl⟩, key_injective (keyed _ _ isFound)⟩

theorem nodup_distinct (footholds : List Foothold) :
    ((distinct footholds).map Foothold.position).Nodup := by
  have keyed := keyed_empty.foldl footholds
  rw [distinct_eq, map_map, Nodup, pairwise_map]
  have apart : (footholds.foldl addTo ∅).toList.Pairwise _ := Std.TreeMap.distinct_keys_toList
  refine apart.imp_of_mem ?_
  rintro ⟨key, foothold⟩ ⟨otherKey, other⟩ member otherMember differ same
  rw [Std.TreeMap.mem_toList_iff_getElem?_eq_some] at member otherMember
  have sameKey := congrArg Position.key same
  simp only [Function.comp_apply, keyed key foothold member,
    keyed otherKey other otherMember] at sameKey
  exact differ (Std.LawfulEqCmp.compare_eq_iff_eq.mpr sameKey)

end Distinct

end Foothold

open Foothold (positions mem_positions)

def Located (arena : Arena) (plot : Plot) (footing : Set Position) : Prop :=
  ∀ position ∈ footing, ∃ root, position.Within arena plot root

section Prospects

variable {origin : Foothold} {token : Token}

section

variable {root : LayoutId} (charts : arena.Charts plot proper)
  (within : origin.position.Within arena plot root)
include charts within

theorem Outlook.mem_reads :
    (token, foothold) ∈ (Outlook.ofFoothold arena origin).reads ↔
      ∃ next, Reads arena origin.position token next ∧ foothold = origin.moveTo next := by
  simp only [Outlook.reads, Outlook.ofFoothold, mem_map, Prod.exists, Prod.mk.injEq,
    mem_reads_ahead charts within]
  constructor
  · rintro ⟨_, next, reads, rfl, rfl⟩
    exact ⟨next, reads, rfl⟩
  · rintro ⟨next, reads, rfl⟩
    exact ⟨token, next, reads, rfl, rfl⟩

theorem Outlook.isOver_iff :
    (Outlook.ofFoothold arena origin).isOver ↔ Rules.Over arena origin.position := by
  simp only [Outlook.isOver, Outlook.ofFoothold, Bool.and_eq_true, mayEnd_ahead charts within,
    Rules.Over, List.isEmpty_iff, List.eq_nil_iff_forall_not_mem, Prod.forall,
    mem_reads_ahead charts within]

end

namespace Prospects

variable (charts : arena.Charts plot proper) (located : Located arena plot (positions footholds))

include charts located

theorem mayEnd_iff : (ofFootholds arena footholds).mayEnd ↔
    ∃ position ∈ positions footholds, Ends arena position := by
  simp only [ofFootholds, any_map, any_eq_true, Function.comp_apply, mem_positions,
    exists_exists_and_eq_and]
  refine exists_congr fun origin => and_congr_right fun member => ?_
  rcases located _ ⟨origin, member, rfl⟩ with ⟨_, within⟩
  exact mayEnd_ahead charts within

theorem isOver_iff : (ofFootholds arena footholds).isOver ↔
    ∃ position ∈ positions footholds, Rules.Over arena position := by
  simp only [ofFootholds, any_map, any_eq_true, Function.comp_apply, mem_positions,
    exists_exists_and_eq_and]
  refine exists_congr fun origin => and_congr_right fun member => ?_
  rcases located _ ⟨origin, member, rfl⟩ with ⟨_, within⟩
  exact Outlook.isOver_iff charts within

theorem mem_allReads :
    (token, foothold) ∈ (footholds.map (Outlook.ofFoothold arena)).flatMap Outlook.reads ↔
      ∃ origin ∈ footholds, ∃ next, Reads arena origin.position token next ∧
        foothold = origin.moveTo next := by
  simp only [flatMap_map, mem_flatMap]
  refine exists_congr fun origin => and_congr_right fun member => ?_
  rcases located _ ⟨origin, member, rfl⟩ with ⟨_, within⟩
  exact Outlook.mem_reads charts within

theorem mem_reads : (token, foothold) ∈ (ofFootholds arena footholds).reads ↔
    (∀ name, token ≠ .marker name) ∧ ∃ origin ∈ footholds, ∃ next,
      Reads arena origin.position token next ∧ foothold = origin.moveTo next := by
  simp only [ofFootholds, mem_filter, mem_allReads charts located]
  rw [and_comm]
  refine and_congr_left fun _ => ?_
  cases token <;> simp

theorem mem_markers : (name, foothold) ∈ (ofFootholds arena footholds).markers ↔
    ∃ origin ∈ footholds, ∃ next, Reads arena origin.position (.marker name) next ∧
      foothold = origin.moveTo next := by
  rw [← mem_allReads charts located]
  simp only [ofFootholds, mem_filterMap, Prod.exists]
  constructor
  · rintro ⟨token, found, member, isMarker⟩
    cases token <;> simp_all
  · intro member
    exact ⟨.marker name, foothold, member, rfl⟩

end Prospects

end Prospects

namespace Entry

variable {rules : Rules} {allowed : Bool} {rounds : Nat}

def Opens (arena : Arena) (allowed : Bool) (footholds : List Foothold) : Prop :=
  allowed ∧ freshMarkers footholds (.ofFootholds arena footholds) ≠ []

def entered (arena : Arena) (footholds : List Foothold) : List Foothold :=
  Foothold.distinct (footholds ++
    (freshMarkers footholds (.ofFootholds arena footholds)).map fun (_, next) =>
      { next with guarded := true })

theorem enter_succ (opens : Opens arena allowed footholds) (rounds : Nat) :
    enter arena allowed (rounds + 1) footholds =
      enter arena allowed rounds (entered arena footholds) := by
  rcases opens with ⟨isAllowed, fresh⟩
  rw [enter]
  simp [isAllowed, fresh, head?_eq_none_iff, Option.isSome_iff_ne_none, entered]

theorem enter_of_not_opens (notOpens : ¬ Opens arena allowed footholds) (rounds : Nat) :
    enter arena allowed rounds footholds =
      { footholds, prospects := .ofFootholds arena footholds,
        barred := (freshMarkers footholds (.ofFootholds arena footholds)).head?.map Prod.fst } := by
  rw [enter.eq_def]
  simp only [Opens, not_and, not_not] at notOpens
  cases isAllowed : allowed with
  | false => simp
  | true => simp [notOpens isAllowed]

theorem footholds_enter_zero : (enter arena allowed 0 footholds).footholds = footholds := by
  rw [enter]
  split <;> rfl

theorem prospects_enter (arena : Arena) (allowed : Bool) (rounds : Nat)
    (footholds : List Foothold) :
    (enter arena allowed rounds footholds).prospects =
      .ofFootholds arena (enter arena allowed rounds footholds).footholds := by
  induction rounds generalizing footholds with
  | zero =>
    rw [enter]
    split <;> rfl
  | succ _ ih =>
    by_cases opens : Opens arena allowed footholds
    · rw [enter_succ opens]
      exact ih _
    · rw [enter_of_not_opens opens]

section Charted

variable (charts : arena.Charts plot proper)
include charts

section

variable (located : Located arena plot (positions footholds))
include located

theorem mem_entered :
    position ∈ positions (entered arena footholds) ↔
      position ∈ positions footholds ∨
        ∃ origin ∈ positions footholds, ∃ name, Reads arena origin (.marker name) position := by
  rw [entered, Foothold.positions_distinct, Foothold.positions_append]
  simp only [Set.mem_union, mem_positions, mem_map, freshMarkers, mem_filter, Prod.exists,
    Prospects.mem_markers charts located]
  constructor
  · rintro (known | ⟨_, ⟨name, _, ⟨⟨origin, member, _, reads, rfl⟩, _⟩, rfl⟩, rfl⟩)
    · exact .inl known
    · exact .inr ⟨_, ⟨origin, member, rfl⟩, name, reads⟩
  · rintro (known | ⟨_, ⟨origin, member, rfl⟩, name, reads⟩)
    · exact .inl known
    · by_cases known : position ∈ positions footholds
      · exact .inl known
      · refine .inr ⟨_,
          ⟨name, origin.moveTo position, ⟨⟨origin, member, position, reads, rfl⟩, ?_⟩, rfl⟩, rfl⟩
        simp only [all_eq_true, decide_eq_true_eq]
        exact fun foothold isFoothold same => known ⟨foothold, isFoothold, same⟩

theorem mem_of_not_opens (isAllowed : allowed) (notOpens : ¬ Opens arena allowed footholds)
    {origin : Position} (member : origin ∈ positions footholds)
    (reads : Reads arena origin (.marker name) position) :
    position ∈ positions footholds := by
  by_contra unknown
  rcases member with ⟨foothold, isFoothold, rfl⟩
  have fresh : (name, foothold.moveTo position) ∈ freshMarkers footholds
      (.ofFootholds arena footholds) := by
    simp only [freshMarkers, mem_filter, Prospects.mem_markers charts located, all_eq_true,
      decide_eq_true_eq]
    refine ⟨⟨foothold, isFoothold, position, reads, rfl⟩, ?_⟩
    exact fun other isOther same => unknown ⟨other, isOther, same⟩
  exact notOpens ⟨isAllowed, ne_nil_of_mem fresh⟩

theorem located_entered : Located arena plot (positions (entered arena footholds)) := by
  intro position member
  rcases (mem_entered charts located).mp member with known | ⟨origin, isOrigin, _, reads⟩
  · exact located position known
  · rcases located origin isOrigin with ⟨root, within⟩
    exact ⟨root, reads.within charts within⟩

end

end Charted

/-- A way along markers through positions of a footing, the last position first. -/
structure Chain (arena : Arena) (plot : Plot) (footing : Set Position) (chain : List Position) :
    Prop where
  inside : ∀ position ∈ chain, position ∈ footing
  distinct : chain.Nodup
  idles : chain.Pairwise fun later earlier => Idles arena earlier later

theorem Chain.length_le (charts : arena.Charts plot proper) {footing : Set Position}
    {chain : List Position} (located : Located arena plot footing)
    (isChain : Chain arena plot footing chain) : chain.length ≤ arena.states.size := by
  have distinctStates : (chain.map fun position => position.state.index).Nodup := by
    rw [Nodup, pairwise_map]
    refine (isChain.idles.and isChain.distinct).imp_of_mem ?_
    rintro later earlier _ isEarlier ⟨idles, differ⟩ same
    rcases located earlier (isChain.inside earlier isEarlier) with ⟨_, within⟩
    have sameState : later.state = earlier.state := by
      rcases later with ⟨⟨_⟩, _⟩
      rcases earlier with ⟨⟨_⟩, _⟩
      simp only at same
      rw [same]
    exact differ (idles.eq_of_state charts within sameState)
  have below : (chain.map fun position => position.state.index) ⊆ range arena.states.size := by
    intro _ member
    rcases mem_map.mp member with ⟨position, isPosition, rfl⟩
    rcases located position (isChain.inside position isPosition) with ⟨_, within⟩
    exact mem_range.mpr within.owns.inside
  have few := (distinctStates.subperm below).length_le
  simpa using few

/-- From each position of a footing all markers have been followed, unless it is the last of a long
chain. -/
def Spread (arena : Arena) (plot : Plot) (length : Nat) (footing : Set Position) : Prop :=
  ∀ position ∈ footing,
    (∀ name next, Reads arena position (.marker name) next → next ∈ footing) ∨
      ∃ chain, Chain arena plot footing (position :: chain) ∧ chain.length = length

theorem Spread.start (footing : Set Position) : Spread arena plot 0 footing := by
  intro _ member
  exact .inr ⟨[], ⟨by simpa using member, by simp, by simp⟩, rfl⟩

variable (charts : arena.Charts plot proper)
include charts

theorem Spread.entered {length : Nat} (located : Located arena plot (positions footholds))
    (spread : Spread arena plot length (positions footholds)) :
    Spread arena plot (length + 1) (positions (entered arena footholds)) := by
  have mem (position : Position) : position ∈ positions (Entry.entered arena footholds) ↔ _ :=
    mem_entered charts located
  intro position member
  by_cases known : position ∈ positions footholds
  · exact .inl fun name _ reads => (mem _).mpr (.inr ⟨position, known, name, reads⟩)
  · rcases (mem _).mp member with isKnown | ⟨origin, isOrigin, name, reads⟩
    · exact absurd isKnown known
    · rcases spread origin isOrigin with followed | ⟨chain, isChain, isLength⟩
      · exact absurd (followed name position reads) known
      · refine .inr ⟨origin :: chain, ⟨?_, ?_, ?_⟩, by simp [isLength]⟩
        · rintro before (_ | ⟨_, isBefore⟩)
          · exact member
          · exact (mem _).mpr (.inl (isChain.inside before isBefore))
        · refine nodup_cons.mpr ⟨fun again => known (isChain.inside position again), ?_⟩
          exact isChain.distinct
        · refine pairwise_cons.mpr ⟨fun _ isBefore => ?_, isChain.idles⟩
          have last : Idles arena origin position := .single ⟨.marker name, rfl, reads⟩
          rcases mem_cons.mp isBefore with rfl | earlier
          · exact last
          · exact (rel_of_pairwise_cons isChain.idles earlier).trans last

theorem enter_spread (isAllowed : allowed) {length : Nat}
    (located : Located arena plot (positions footholds))
    (spread : Spread arena plot length (positions footholds))
    (enough : arena.states.size ≤ length + rounds) {next : Position}
    (member : position ∈ positions (enter arena allowed rounds footholds).footholds)
    (reads : Reads arena position (.marker name) next) :
    next ∈ positions (enter arena allowed rounds footholds).footholds := by
  induction rounds generalizing footholds length with
  | zero =>
    rw [footholds_enter_zero] at member ⊢
    rcases spread position member with followed | ⟨chain, isChain, isLength⟩
    · exact followed name next reads
    · have few := isChain.length_le charts located
      simp only [length_cons] at few
      omega
  | succ rounds ih =>
    by_cases opens : Opens arena allowed footholds
    · rw [enter_succ opens] at member ⊢
      exact ih (located_entered charts located) (spread.entered charts located) (by omega) member
    · rw [enter_of_not_opens opens] at member ⊢
      exact mem_of_not_opens charts located isAllowed opens member reads

section

variable (located : Located arena plot (positions footholds))
include located

theorem positions_enter_subset (safe : allowed → .safety ∈ rules.assumed) :
    positions (enter arena allowed rounds footholds).footholds ⊆ rules.reach arena
      (positions footholds) := by
  induction rounds generalizing footholds with
  | zero =>
    rw [footholds_enter_zero]
    exact Rules.subset_reach
  | succ _ ih =>
    by_cases opens : Opens arena allowed footholds
    · rw [enter_succ opens]
      refine (ih (located_entered charts located)).trans ?_
      rintro _ ⟨middle, isMiddle, drifts⟩
      rcases (mem_entered charts located).mp isMiddle with known | ⟨origin, isOrigin, name, reads⟩
      · exact ⟨middle, known, drifts⟩
      · exact ⟨origin, isOrigin, .head ⟨safe opens.1, name, reads⟩ drifts⟩
    · rw [enter_of_not_opens opens]
      exact Rules.subset_reach

theorem subset_positions_enter :
    positions footholds ⊆ positions (enter arena allowed rounds footholds).footholds := by
  induction rounds generalizing footholds with
  | zero =>
    rw [footholds_enter_zero]
  | succ _ ih =>
    by_cases opens : Opens arena allowed footholds
    · rw [enter_succ opens]
      refine subset_trans ?_ (ih (located_entered charts located))
      exact fun _ member => (mem_entered charts located).mpr (.inl member)
    · rw [enter_of_not_opens opens]

/-- Guarded regions are entered as far as that is possible. -/
theorem positions_enter (safe : allowed ↔ .safety ∈ rules.assumed) :
    positions (enter arena allowed (arena.states.size + 1) footholds).footholds =
      rules.reach arena (positions footholds) := by
  refine Set.Subset.antisymm (positions_enter_subset charts located safe.mp) ?_
  rintro position ⟨origin, member, drifts⟩
  induction drifts with
  | refl => exact subset_positions_enter charts located member
  | tail _ enters ih =>
    rcases enters with ⟨isSafe, name, reads⟩
    exact enter_spread charts (safe.mpr isSafe) located (.start _) (by omega) ih reads

end

end Entry

end Recast
