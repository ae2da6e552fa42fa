import Recast.Proofs.Pattern.Spells

/-!
# Walks without markers

What a walk amounts to once bytes are chosen, markers are left out and referents are forgotten. A
route is such a walk, made step by step over the edges of the arena; what a layout means are the
routes from its start to its end (`means_iff_route`).
-/

namespace Recast

open List

namespace Arena

variable {arena : Arena} {source target : StateId} {symbols : List Symbol} {id : LayoutId}

/-- The symbols of some value of the layout. -/
def Means (arena : Arena) (id : LayoutId) (symbols : List Symbol) : Prop :=
  ∃ letters, arena.Value id letters ∧ letters.flatMap Letter.symbols = symbols

/-- The symbols on a way from one state to another, with all repeats unrolled. -/
inductive Route (arena : Arena) : StateId → List Symbol → StateId → Prop
  | nil (state : StateId) : Route arena state [] state
  | token {source middle target : StateId} {token : Token} {front back : List Symbol}
      (edge : ⟨.token token, middle⟩ ∈ arena.edges source) (shown : token.Shows front)
      (onward : Route arena middle back target) : Route arena source (front ++ back) target
  | rep {source exit target : StateId} {body : LayoutId} {count : Count}
      {rounds : List (List Symbol)} {back : List Symbol}
      (edge : ⟨.rep body count, exit⟩ ∈ arena.edges source)
      (admitted : count.Admits rounds.length)
      (each : ∀ round ∈ rounds, Route arena (arena.start body) round (arena.stop body))
      (onward : Route arena exit back target) :
      Route arena source (rounds.flatten ++ back) target

def ShowTogether (tokens : List Token) (symbols : List Symbol) : Prop :=
  ∃ letters, List.Forall₂ Token.Holds tokens letters ∧ letters.flatMap Letter.symbols = symbols

theorem showTogether_append {first second : List Token} :
    ShowTogether (first ++ second) symbols ↔
      ∃ front back, ShowTogether first front ∧ ShowTogether second back ∧
        symbols = front ++ back := by
  constructor
  · rintro ⟨_, holds, rfl⟩
    rcases forall₂_append.mp holds with ⟨front, back, holdsFirst, holdsSecond, rfl⟩
    exact ⟨_, _, ⟨front, holdsFirst, rfl⟩, ⟨back, holdsSecond, rfl⟩, flatMap_append⟩
  · rintro ⟨_, _, ⟨front, holdsFirst, rfl⟩, ⟨back, holdsSecond, rfl⟩, rfl⟩
    exact ⟨front ++ back, rel_append holdsFirst holdsSecond, flatMap_append⟩

theorem showTogether_flatten {rounds : List (List Token)} :
    ShowTogether rounds.flatten symbols ↔
      ∃ shown : List (List Symbol), Forall₂ ShowTogether rounds shown ∧
        shown.flatten = symbols := by
  induction rounds generalizing symbols with
  | nil =>
    constructor
    · rintro ⟨_, ⟨⟩, rfl⟩
      exact ⟨[], .nil, rfl⟩
    · rintro ⟨_, ⟨⟩, rfl⟩
      exact ⟨[], .nil, rfl⟩
  | cons _ _ ih =>
    rw [flatten_cons, showTogether_append]
    constructor
    · rintro ⟨front, _, here, later, rfl⟩
      rcases ih.mp later with ⟨shown, each, rfl⟩
      exact ⟨front :: shown, .cons here each, rfl⟩
    · rintro ⟨_, _ | ⟨here, each⟩, rfl⟩
      exact ⟨_, _, here, ih.mpr ⟨_, each, rfl⟩, rfl⟩

theorem route_of_path {tokens : List Token} (path : arena.Path source tokens target)
    (shown : ShowTogether tokens symbols) : arena.Route source symbols target := by
  induction path generalizing symbols with
  | nil state =>
    rcases shown with ⟨_, ⟨⟩, rfl⟩
    exact .nil state
  | token edge _ ih =>
    rcases shown with ⟨_, _ | ⟨holds, others⟩, rfl⟩
    exact .token edge ⟨_, holds, rfl⟩ (ih ⟨_, others, rfl⟩)
  | rep edge admitted _ _ ihEach ih =>
    rcases showTogether_append.mp shown with ⟨_, _, inRounds, behind, rfl⟩
    rcases showTogether_flatten.mp inRounds with ⟨_, each, rfl⟩
    refine .rep edge (each.length_eq ▸ admitted) ?_ (ih behind)
    rw [forall_mem_iff_getElem]
    intro place inside
    rcases forall₂_iff_get.mp each with ⟨length, showEach⟩
    exact ihEach _ (getElem_mem _) (showEach place (length ▸ inside) inside)

theorem exists_tokens {rounds : List (List Symbol)} {isRound : List Token → Prop}
    (each : ∀ round ∈ rounds, ∃ tokens, isRound tokens ∧ ShowTogether tokens round) :
    ∃ lists : List (List Token), Forall₂ ShowTogether lists rounds ∧
      ∀ tokens ∈ lists, isRound tokens := by
  induction rounds with
  | nil => exact ⟨[], .nil, by simp⟩
  | cons _ _ ih =>
    rcases forall_mem_cons.mp each with ⟨⟨tokens, isTokens, shown⟩, eachOther⟩
    rcases ih eachOther with ⟨lists, shownOthers, all⟩
    exact ⟨tokens :: lists, .cons shown shownOthers, forall_mem_cons.mpr ⟨isTokens, all⟩⟩

theorem path_of_route (route : arena.Route source symbols target) :
    ∃ tokens, arena.Path source tokens target ∧ ShowTogether tokens symbols := by
  induction route with
  | nil state => exact ⟨[], .nil state, [], .nil, rfl⟩
  | token edge shown _ ih =>
    rcases shown with ⟨letter, holds, rfl⟩
    rcases ih with ⟨_, path, letters, others, rfl⟩
    exact ⟨_, .token edge path, letter :: letters, .cons holds others, rfl⟩
  | rep edge admitted _ _ ihEach ih =>
    rcases ih with ⟨_, path, shown⟩
    rcases exists_tokens ihEach with ⟨_, each, all⟩
    refine ⟨_, .rep edge (each.length_eq ▸ admitted) all path, ?_⟩
    exact showTogether_append.mpr ⟨_, _, showTogether_flatten.mpr ⟨_, each, rfl⟩, shown, rfl⟩

theorem means_iff_route :
    arena.Means id symbols ↔ arena.Route (arena.start id) symbols (arena.stop id) := by
  constructor
  · rintro ⟨letters, ⟨_, walk, holds⟩, rfl⟩
    exact route_of_path walk ⟨letters, holds, rfl⟩
  · intro route
    rcases path_of_route route with ⟨tokens, path, letters, holds, same⟩
    exact ⟨letters, ⟨tokens, path, holds⟩, same⟩

end Arena

end Recast
