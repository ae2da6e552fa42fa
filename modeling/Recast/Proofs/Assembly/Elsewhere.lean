import Recast.Proofs.Arena.Fragments
import Recast.Proofs.Assembly.Coupled

/-!
# Assembly elsewhere

What a shape becomes behind an arena is a copy of what it becomes in an empty one, with states and
layouts that correspond in the order of their numbers (`Arena.Copied`). Where one assembly fails, so
does the other, and for the same reason (`Shape.coupled_behind`).
-/

namespace Recast

open Assembly Origins List Coupling

variable {base : Arena} {id idToo : LayoutId} {shop other : Workshop}

theorem optionRel_getElem? {α β : Type} {related : α → β → Prop} {items : Array α}
    {others : Array β} (each : Forall₂ related items.toList others.toList) (index : Nat) :
    Option.Rel related items[index]? others[index]? := by
  rw [← Array.getElem?_toList, ← Array.getElem?_toList]
  generalize items.toList = items at each
  generalize others.toList = others at each
  induction each generalizing index with
  | nil => exact .none
  | cons first _ ih =>
    cases index with
    | zero => exact .some first
    | succ index => exact ih index

def Origins.behind (base : Arena) : Origins :=
  ⟨0, base.states.size, 0, base.layouts.size⟩

namespace Arena

variable {first second : Arena}

/-- The second arena is the base with a copy of the first one behind it. -/
structure Copied (base first second : Arena) : Prop where
  states : ∃ images, second.states = base.states ++ images ∧
    (Origins.behind base).States (Origins.behind base).Body first.states images
  layouts : ∃ images, second.layouts = base.layouts ++ images ∧
    (Origins.behind base).Layouts first.layouts images

namespace Copied

variable (copied : Copied base first second)
include copied

theorem state {state stateToo : StateId} (same : (behind base).State state stateToo) :
    State.Corresponds (behind base).State (behind base).Body (behind base).Body
      (first.state state) (second.state stateToo) := by
  rcases copied.states with ⟨images, isStates, each⟩
  rcases same with ⟨distance, isState, isStateToo⟩
  simp only [behind, Nat.zero_add] at isState isStateToo
  have found := optionRel_getElem? each distance
  rw [Arena.state, Arena.state, isStates, isState, isStateToo,
    Array.getElem?_append_right (Nat.le_add_right _ _), Nat.add_sub_cancel_left]
  generalize first.states[distance]? = left at found
  generalize images[distance]? = right at found
  cases found with
  | none => exact ⟨rfl, rfl, .nil⟩
  | some corresponds => exact corresponds

theorem layout (same : (behind base).Body id idToo) (inside : id.index < first.layouts.size) :
    Layout.Corresponds (behind base).State (first.layout id) (second.layout idToo) := by
  rcases copied.layouts with ⟨images, isLayouts, each⟩
  rcases same with ⟨distance, isId, isIdToo⟩
  simp only [behind, Nat.zero_add] at isId isIdToo
  have found := optionRel_getElem? each distance
  rw [Arena.layout, Arena.layout, isLayouts, isId, isIdToo,
    Array.getElem?_append_right (Nat.le_add_right _ _), Nat.add_sub_cancel_left]
  rw [isId] at inside
  rw [Array.getElem?_eq_getElem inside] at found ⊢
  generalize images[distance]? = right at found
  cases found with
  | some corresponds => exact corresponds

theorem size_eq (same : (behind base).Body id idToo) :
    (first.layout id).size = (second.layout idToo).size := by
  by_cases inside : id.index < first.layouts.size
  · exact (copied.layout same inside).size
  · rcases copied.layouts with ⟨images, isLayouts, each⟩
    rcases same with ⟨distance, isId, isIdToo⟩
    simp only [behind, Nat.zero_add] at isId isIdToo
    have outside : second.layouts.size ≤ idToo.index := by
      rw [isLayouts, Array.size_append, ← each.size_eq, isIdToo]
      omega
    rw [Arena.layout, Arena.layout, Array.getElem?_eq_none (not_lt.mp inside),
      Array.getElem?_eq_none outside]

theorem sites : (behind base).Sites first.newSite second.newSite := by
  rcases copied.states with ⟨images, isStates, each⟩
  rcases copied.layouts with ⟨imagesToo, isLayouts, eachToo⟩
  have size : second.states.size = base.states.size + first.states.size := by
    rw [isStates, Array.size_append, each.size_eq]
  have sizeToo : second.layouts.size = base.layouts.size + first.layouts.size := by
    rw [isLayouts, Array.size_append, eachToo.size_eq]
  refine ⟨⟨first.states.size, ?_, ?_⟩, rfl, ⟨first.states.size + 1, ?_, ?_⟩, first.layouts.size, ?_,
    ?_⟩ <;>
    simp only [newSite, Site.fresh, behind] <;> omega

theorem reserve :
    Copied base first.reserve.2 second.reserve.2 ∧
      (behind base).Body first.reserve.1 second.reserve.1 := by
  have sites := copied.sites
  rcases copied with ⟨⟨images, isStates, each⟩, imagesToo, isLayouts, eachToo⟩
  refine ⟨⟨⟨images ++ Layout.reservedStates, ?_, each.append states_reserved⟩,
    imagesToo.push (.reserved second.states.size), ?_, ?_⟩, sites.layout⟩
  · rw [Arena.reserve, isStates, Array.append_assoc]
  · rw [Arena.reserve, isLayouts, Array.append_push]
  · simp only [Arena.reserve, Origins.Layouts, Array.toList_push]
    have start := sites.start
    exact rel_append eachToo (.cons ⟨start, start.add 1, rfl⟩ .nil)

theorem define (same : (behind base).Body id idToo) {pattern image : Pattern}
    (mirrors : pattern.Mirrors (behind base).Body image) :
    Verdict.Related (Copied base) (first.define id pattern) (second.define idToo image) := by
  have sites := copied.sites
  have compiles := mirrors.compile sites
  rw [define_eq, define_eq]
  revert compiles
  generalize pattern.compile first.newSite = compiled
  generalize image.compile second.newSite = compiledToo
  intro compiles
  cases compiles with
  | error defect => exact .error defect
  | @ok _ fragmentToo fragments =>
    rcases copied with ⟨⟨images, isStates, each⟩, imagesToo, isLayouts, eachToo⟩
    rcases same with ⟨distance, isId, isIdToo⟩
    simp only [behind, Nat.zero_add] at isId isIdToo
    refine .ok
      ⟨⟨images ++ fragmentToo.close second.newSite, ?_, each.append (fragments.close sites)⟩,
      imagesToo.setIfInBounds distance
        (image.record second.newSite fragmentToo) ++ fragmentToo.layouts, ?_, ?_⟩
    · rw [install, isStates, Array.append_assoc]
    · rw [install, isLayouts, isIdToo, ← Array.append_assoc]
      simp
    · simp only [install, isId]
      refine Origins.Layouts.append ?_ fragments.layouts
      simp only [Origins.Layouts, Array.toList_setIfInBounds, set_eq_modify]
      exact forall₂_modify distance (fun _ _ _ => fragments.record sites mirrors) eachToo

end Copied

end Arena

namespace Coupling

def behind (base : Arena) : Coupling where
  linked shop other := base.Copied shop.arena other.arena ∧
    Forall₂ (fun entry image => entry.1 = image.1 ∧ (Origins.behind base).Body entry.2 image.2)
      shop.referents other.referents
  failed _ _ := True
  twins _ _ := (Origins.behind base).Body
  grows _ _ := True
  scopes := Eq
  failed_of_linked _ := trivial
  grows_refl _ := trivial
  grows_trans _ _ := trivial
  twins_mono _ _ same := same
  size_eq linked same := linked.1.size_eq same
  totalLength_eq scopes := by rw [scopes]

section

variable (linked : (behind base).linked shop other)
include linked

theorem coupled_reserve : (behind base).Refers reserve reserve shop other :=
  ⟨⟨linked.1.reserve.1, linked.2⟩, trivial, trivial, linked.1.reserve.2⟩

theorem coupled_lookup (name : DefId) :
    (behind base).Coupled (fun _ _ => Option.Rel (Origins.behind base).Body) (referent? name)
      (referent? name)
      shop other := by
  refine ⟨linked, trivial, trivial, ?_⟩
  have each := linked.2
  generalize shop.referents = referents at each
  generalize other.referents = referentsToo at each
  induction each with
  | nil => exact .none
  | cons first _ ih =>
    rw [lookup_cons, lookup_cons, first.1]
    split
    · exact .some first.2
    · exact ih

theorem coupled_record (name : DefId) (same : (Origins.behind base).Body id idToo) :
    (behind base).Coupled (fun _ _ _ _ => True) (recordReferent name id) (recordReferent name idToo)
      shop other :=
  ⟨⟨linked.1, .cons ⟨rfl, same⟩ linked.2⟩, trivial, trivial, trivial⟩

theorem coupled_defined (same : (Origins.behind base).Body id idToo) {draft image : Draft}
    (drafts : (behind base).Drafts shop other draft image) :
    (behind base).Refers (define id draft.pattern >>= fun _ => pure id)
      (define idToo image.pattern >>= fun _ => pure idToo) shop other := by
  have related := linked.1.define same drafts.pattern
  simp only [Coupled, define, Bind.bind, EStateM.bind]
  generalize shop.arena.define id draft.pattern = verdict at related
  generalize other.arena.define idToo image.pattern = verdictToo at related
  cases related with
  | ok copied => exact ⟨⟨copied, linked.2⟩, trivial, trivial, same⟩
  | error => exact ⟨rfl, trivial⟩

end

theorem coupled_anonymousReferent {plan image : Plan} (plans : (behind base).Plans plan image)
    (scope : Scope) (linked : (behind base).linked shop other) :
    (behind base).Refers (Plan.anonymousReferent plan scope)
      (Plan.anonymousReferent image scope) shop other := by
  apply (coupled_reserve linked).bind
  intro _ _ later laterToo linkedThen _ _ same
  apply (plans _ _ rfl 0 later laterToo linkedThen).bind
  intro _ _ _ _ linkedLast _ _ drafts
  exact coupled_defined linkedLast same drafts

structure Named (base : Arena) (calls : Calls) : Prop where
  expand : ∀ name, (behind base).Plans (calls.expand name) (calls.expand name)
  referent : ∀ name shop other, (behind base).linked shop other →
    (behind base).Refers (calls.referent name) (calls.referent name) shop other

variable {catalog : Catalog} {machine : Machine} {calls : Calls}

theorem Named.plans (named : Named base calls) (shape : Shape) :
    (behind base).Plans (shape.plan machine calls.expand calls.referent)
      (shape.plan machine calls.expand calls.referent) := by
  have replaced : (behind base).Plans (shape.plan machine calls.expand calls.referent)
      ((shape.replace .named).plan machine calls.expand calls.referent) := by
    refine @plans_replace machine calls.expand calls.expand calls.referent calls.referent .named
      Unit (fun _ => behind base) (fun _ => True) (fun _ name _ => named.expand name) ?_ ?_ shape
      (fun _ _ => trivial) ()
    · intro _ name _ _ _ _ shop other linked
      exact named.referent name shop other linked
    · rintro _ _ plans _ scope _ rfl _ _ linked
      exact coupled_anonymousReferent (plans ()) scope linked
  rwa [Shape.replace_named] at replaced

theorem Named.step (named : Named base calls) : Named base (catalog.step machine calls) where
  expand name := by
    rintro _ _ rfl offset shop other linked
    apply coupled_ofExcept_bind linked
    intro definition _
    apply coupled_unless linked
    intro _
    apply coupled_unless linked
    intro _
    exact named.plans definition.shape _ _ rfl offset shop other linked
  referent name shop other linked := by
    apply (coupled_lookup linked name).bind
    intro _ _ _ _ linkedThen _ _ same
    cases same with
    | some same => exact coupled_pure linkedThen same
    | none =>
      apply coupled_ofExcept_bind linkedThen
      intro definition _
      apply (coupled_reserve linkedThen).bind
      intro _ _ _ _ linkedStarted _ _ same
      apply (coupled_record linkedStarted name same).bind
      intro _ _ begun begunToo linkedBegun _ _ _
      apply (named.plans definition.shape _ _ rfl 0 begun begunToo linkedBegun).bind
      intro _ _ _ _ linkedLast _ _ drafts
      exact coupled_defined linkedLast same drafts

end Coupling

/-- A shape is assembled in the same way behind any arena. -/
theorem Shape.coupled_behind (shape : Shape) (catalog : Catalog) (machine : Machine)
    (totalLength : Option Nat) (linked : (Coupling.behind base).linked shop other) :
    (Coupling.behind base).Refers (shape.assemble catalog machine totalLength)
      (shape.assemble catalog machine totalLength) shop other := by
  have nothing : Coupling.Named base .failing :=
    ⟨fun _ _ _ _ _ _ _ linked => coupled_throw linked, fun _ _ _ linked => coupled_throw linked⟩
  have named := catalog.calls_induction machine nothing fun _ => Named.step
  apply (named.plans shape { totalLength } _ rfl 0 shop other linked).bind
  intro _ _ _ _ linkedThen _ _ drafts
  apply (coupled_reserve linkedThen).bind
  intro _ _ _ _ linkedLast _ _ same
  exact coupled_defined linkedLast same drafts

end Recast
