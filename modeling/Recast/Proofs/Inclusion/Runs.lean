import Recast.Proofs.Inclusion.Acceptance
import Recast.Proofs.Inclusion.Served

/-!
# Runs at once or element by element

What is accepted run by run is accepted element by element, unless validity was needed. The converse
fails: a marker at the end of an element may be what the destination waits for behind its run, and
an element that has no value excuses whatever follows it. Where every token has bytes and no way
comes to a dead end, neither can happen, and the two checks agree.
-/

namespace Recast

open Position List Assumptions

variable {arena : Arena} {plot : Plot} {proper : Token → Prop} {inquiry : Inquiry}

def Label.token? : Label → Option Token
  | .token letter => some letter
  | .rep _ _ => none

/-- Every token takes bytes. -/
def Arena.Solid (arena : Arena) : Prop :=
  ∀ state ∈ arena.states, ∀ edge ∈ state.edges, ∀ token ∈ edge.label.token?, token.width ≠ 0

instance (arena : Arena) : Decidable arena.Solid :=
  inferInstanceAs (Decidable (∀ state ∈ arena.states, ∀ edge ∈ state.edges,
    ∀ token ∈ edge.label.token?, token.width ≠ 0))

theorem Arena.Charts.restrict {extra : Token → Prop} (charts : arena.Charts plot proper)
    (meets : ∀ state ∈ arena.states, ∀ edge ∈ state.edges, ∀ token ∈ edge.label.token?,
      extra token) :
    arena.Charts plot fun token => proper token ∧ extra token where
  owner := charts.owner
  state {_ state} owns := by
    have described := charts.state owns
    have isState : arena.state state ∈ arena.states := by
      simp [Arena.state, owns.inside]
    refine { described with edges := fun edge member => (described.edges edge member).mono ?_ }
    exact fun token isToken isProper =>
      ⟨isProper, meets _ isState edge member token (by simp [isToken, Label.token?])⟩
  layout := charts.layout

namespace Rules

variable {rules : Rules} {position : Position} {letters : List Letter}

theorem Serves.confine {inside : LayoutId → Prop} {root : LayoutId}
    (charts : arena.Charts plot proper) (refers : ∀ token, proper token → token.RefersTo inside)
    (within : position.Within arena plot root)
    (lettersInside : ∀ letter ∈ letters, letter.RefersTo inside)
    (serves : rules.Serves arena letters position) :
    (rules.confine inside).Serves arena letters position := by
  induction serves with
  | finished isOver => exact .finished isOver _
  | stop stops => exact .stop stops
  | take takes _ ih =>
    rw [forall_mem_cons] at lettersInside
    refine .take ?_ (ih (takes.within charts within) lettersInside.2)
    cases takes with
    | byte accepted reads => exact .byte accepted reads
    | anyByte valid reads => exact .anyByte valid reads
    | uninit reads => exact .uninit reads
    | reference replaces reads =>
      have target := refers _ (reads.isProper charts within)
      exact .reference (replaces.confine lettersInside.1 target) reads
    | forgottenReference forgets => exact .forgottenReference forgets
    | marker reads => exact .marker reads

theorem Sustains.elementwise (sustains : rules.Sustains arena True inquiry) :
    rules.Sustains arena False inquiry := by
  rcases sustains with ⟨goal, atRoots, coherent⟩
  exact ⟨goal, atRoots, coherent.nonempty, coherent.mono, coherent.walks, False.elim⟩

end Rules

namespace Terms

variable {terms : Terms} {leaping other : Prop}

theorem Upheld.elementwise {spared : Inquiry → Prop} (upheld : terms.Upheld True spared inquiry) :
    terms.Upheld False spared inquiry := by
  rcases upheld with ⟨related, member, each⟩
  exact ⟨related, member, fun pair isPair =>
    (each pair isPair).imp_right Rules.Sustains.elementwise⟩

theorem Upheld.either (charts : terms.arena.Charts plot proper)
    (admits : ∀ token, proper token → token.Proper terms.arena.layouts.size)
    (bytes : ∀ token, proper token → token.width ≠ 0)
    (live : ∀ id, id.index < terms.arena.layouts.size → terms.arena.Live id)
    (inside : terms.Inside inquiry) (upheld : terms.Upheld leaping (fun _ => False) inquiry) :
    terms.Upheld other (fun _ => False) inquiry := by
  rcases upheld with ⟨related, member, each⟩
  refine ⟨fun pair => related pair ∧ terms.Inside pair, ⟨member, inside⟩, ?_⟩
  rintro pair ⟨isRelated, sourceInside, destinationInside⟩
  have sustained : terms.Sustained leaping related pair := (each pair isRelated).resolve_left id
  right
  refine Rules.sustains_of_serves charts bytes sourceInside destinationInside admits
    (live pair.1 sourceInside) fun _ value => ?_
  have serves := sustained.serves charts bytes sourceInside destinationInside value
  exact serves.confine charts (fun token isProper => (admits token isProper).refersTo)
    (within_root charts destinationInside) (value.refersTo (charts.mono admits) sourceInside)

/-- In an arena that assemblies have filled: what a check accepts without need of validity, it
accepts element by element as well, if the budget allows. And if validity is not assumed, every
token has bytes and all layouts are live, the check accepts the same with and without taking runs at
once. -/
theorem check_elementwise {shop : Workshop} (filled : shop.Filled)
    (isArena : terms.arena = shop.arena) (inside : terms.Inside inquiry) :
    (∀ exercised, .validity ∉ exercised → (terms.check inquiry.1 inquiry.2 {}).1 = .ok exercised →
      ∃ used, Budget.ForLarge fun budget =>
        ({ terms with budget }.checkBy { terms with budget }.walkStep inquiry.1 inquiry.2 {}).1 =
          .ok used) ∧
    (.validity ∉ terms.assumed →
      (∀ id, id.index < terms.arena.layouts.size → terms.arena.Live id) → terms.arena.Solid →
      Budget.ForLarge fun budget =>
        (({ terms with budget }.check inquiry.1 inquiry.2 {}).1.isOk ↔
          ({ terms with budget }.checkBy { terms with budget }.walkStep inquiry.1 inquiry.2
            {}).1.isOk)) := by
  rcases filled.exists_plotted isArena with ⟨_, charts⟩
  simp only [walkStep_budget, check_eq_checkBy]
  constructor
  · intro exercised strict accepted
    have upheld := upheld_of_check charts (forall_mem_nil _) inside accepted
    have unassumed : .validity ∉ (terms.relying exercised).assumed := by
      intro isValid
      rcases mem_reducedTo.mp isValid with ⟨_, isUsed | no⟩
      · exact strict isUsed
      · cases no
    exact checkBy_accepts (steps_walkStep _ charts) charts
      ((terms.eased_relying exercised).bounds unassumed) inside upheld.elementwise
  · intro strict live solid
    have restricted := charts.restrict solid
    have either {leaping other : Prop} :
        terms.Upheld leaping (fun _ => False) inquiry →
        terms.Upheld other (fun _ => False) inquiry :=
      .either restricted (fun _ => And.left) (fun _ => And.right) live inside
    rw [Budget.forLarge_iff]
    filter_upwards [isOk_checkBy_iff (steps_step _ charts) charts strict inside between_start,
      isOk_checkBy_iff (steps_walkStep _ charts) charts strict inside between_start] with
        budget byRun byElement
    rw [byRun, byElement]
    exact ⟨either, either⟩

end Terms

section Sample

open Workshop

/-- Layouts of three references to booleans in a row, and of two references to bytes in a row. -/
def Workshop.rows : Workshop :=
  let first := Job.ofShape (.array (.reference (.scalar .bool) ⟨1, .shared, .static⟩) (.exact 3))
    (.of_fits rfl)
  let second :=
    Job.ofShape (.array (.reference (.scalar (.int 1)) ⟨1, .shared, .static⟩) (.exact 2))
      (.of_fits rfl)
  second.leave (first.leave {})

theorem Workshop.filled_rows : rows.Filled := by
  unfold rows
  exact .leave _ (.leave _ .empty)

/-- Three references in a row are accepted as two, in one step or one by one. -/
theorem Terms.check_elementwise_rows : let terms : Terms := { arena := Workshop.rows.arena }
    terms.arena.Tabled ∧
      (∃ used, Budget.ForLarge fun budget =>
        ({ terms with budget }.checkBy { terms with budget }.walkStep ⟨1⟩ ⟨4⟩ {}).1 = .ok used) ∧
      Budget.ForLarge fun budget => (({ terms with budget }.check ⟨1⟩ ⟨4⟩ {}).1.isOk ↔
        ({ terms with budget }.checkBy { terms with budget }.walkStep ⟨1⟩ ⟨4⟩ {}).1.isOk) := by
  intro terms
  have tabled : terms.arena.Tabled := by decide +kernel
  have inside : terms.Inside (⟨1⟩, ⟨4⟩) := by decide +kernel
  have accepted : (terms.check ⟨1⟩ ⟨4⟩ {}).1.toOption = some ∅ := by decide +kernel
  have solid : terms.arena.Solid := by decide +kernel
  have isArena : terms.arena = Workshop.rows.arena := rfl
  have elementwise := Terms.check_elementwise Workshop.filled_rows isArena inside
  refine ⟨tabled, elementwise.1 ∅ not_mem_empty (eq_ok_of_toOption accepted), ?_⟩
  exact elementwise.2 not_mem_empty (fun _ isInside => tabled.live isInside) solid

/-- Two bytes in a row, each with an empty type with invariants behind it, and then another byte. -/
def Shape.guardedBytes : Shape :=
  .struct 3 1
    [⟨0, .array (.struct 1 1 [⟨0, .scalar (.int 1)⟩, ⟨1, .sealed "T" 0 1⟩]) (.exact 2)⟩,
      ⟨2, .scalar (.int 1)⟩]

def Shape.bytesBeforeGuard : Shape :=
  .struct 3 1 [⟨0, .array (.scalar (.int 1)) (.exact 2)⟩, ⟨2, .sealed "T" 0 1⟩,
    ⟨2, .scalar (.int 1)⟩]

def Workshop.boundaries : Workshop :=
  let first := Job.ofShape .guardedBytes (.of_fits rfl)
  let second := Job.ofShape .bytesBeforeGuard (.of_fits rfl)
  second.leave (first.leave {})

/-- The marker behind the second byte is met element by element, but missed when both are taken at
once. -/
theorem Terms.check_not_elementwise : let terms : Terms := { arena := Workshop.boundaries.arena }
    (terms.check ⟨0⟩ ⟨2⟩ {}).1.isOk = false ∧ (terms.checkBy terms.walkStep ⟨0⟩ ⟨2⟩ {}).1.isOk := by
  decide +kernel

end Sample

end Recast
