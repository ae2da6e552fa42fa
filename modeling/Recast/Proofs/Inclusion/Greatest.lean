import Recast.Proofs.Assembly.Shapes
import Recast.Proofs.Inclusion.Verdict

/-!
# The greatest relation

What a check accepts in the end, if it has enough budget, depends neither on what it has decided nor
on what is under way: it is the greatest relation whose inquiries are each accepted by one survey
that asks the relation itself about referents. The assumption of validity is left out, since with it
a survey may accept less where referents are related more.
-/

namespace Recast

open Position Budget Catalog

open Classical in
/-- Inquiries are answered by a relation, without any assumption. -/
noncomputable def Nested.ofRelation (related : Inquiry → Prop) : Nested := fun source destination =>
  if related (source, destination) then pure ∅ else throw ⟨0, .mismatch .stop .stop⟩

def Account.ofRelation (related : Inquiry → Prop) : Account where
  Sound _ := True
  Yes inquiry _ _ := related inquiry
  No inquiry _ := ¬ related inquiry
  sound_tally _ _ _ := trivial
  yes_later _ _ _ _ _ isRelated := isRelated
  no_later _ _ _ _ unrelated := unrelated

namespace Terms

variable {terms : Terms} {plot : Plot} {related asked : Inquiry → Prop} {inquiry : Inquiry}

/-- One survey accepts the inquiry, if inquiries about referents are answered by the relation. -/
def AcceptsBy (terms : Terms) (related : Inquiry → Prop) (inquiry : Inquiry) : Prop :=
  ForLarge fun budget => ∃ exercised after,
    { terms with budget }.survey ({ terms with budget }.step (.ofRelation related)) inquiry.1
      inquiry.2 {} = .ok exercised after

/-- Each inquiry of the relation is about layouts of the arena, and accepted by one survey that asks
the relation about referents. -/
def Consistent (terms : Terms) (related : Inquiry → Prop) : Prop :=
  ∀ inquiry, related inquiry → terms.Inside inquiry ∧ terms.AcceptsBy related inquiry

theorem answers_ofRelation {budgets : Filter Budget}
    (agree : ∀ other, terms.Inside other → (asked other ↔ related other)) :
    Answers (.ofRelation related) budgets terms.arena.layouts.size fun _ => .ofRelation asked := by
  intro source destination progress sourceInside destinationInside _
  have same := agree (source, destination) ⟨sourceInside, destinationInside⟩
  simp only [Nested.ofRelation]
  split
  · rename_i isAsked
    exact Check.ensures_pure trivial (same.mp isAsked)
  · rename_i notAsked
    exact Check.ensures_throw trivial (mt same.mpr notAsked)

theorem acceptsBy_iff (charts : terms.arena.Plotted plot)
    (strict : .validity ∉ terms.assumed) (inside : terms.Inside inquiry)
    (agree : ∀ other, terms.Inside other → (asked other ↔ related other)) :
    terms.AcceptsBy asked inquiry ↔ terms.Sustained True related inquiry := by
  have evaluates : terms.Evaluates (.ofRelation related) growing plot True
      fun _ => terms.step (.ofRelation asked) :=
    steps_step _ charts _ _ (answers_ofRelation agree)
  have sound : (Account.ofRelation related).Sound {} := trivial
  have surveyed := ensures_survey charts inside settled_growing evaluates sound
  simp only [AcceptsBy, step_budget]
  rw [forLarge_iff]
  rcases surveyed with ⟨⟨exercised, after⟩ | ⟨_, after⟩, eventually, _, _, outcome⟩
  · refine ⟨fun _ => ?_, fun _ => ?_⟩
    · apply outcome.sustains charts
      exact ⟨fun _ _ => id, id, fun _ _ => id, fun _ _ _ => id⟩
    · filter_upwards [eventually] with budget isResult
      exact ⟨exercised, after, isResult⟩
  · have refused := outcome.resolve_left (not_not.mpr grows_growing)
    refine ⟨fun accepts => ?_, fun sustained => ?_⟩
    · have never : ∀ᶠ budget in growing, False := by
        filter_upwards [accepts, eventually] with budget isOk isError
        rcases isOk with ⟨_, _, isOk⟩
        simp [isError] at isOk
      exact (forLarge_const.mp (forLarge_iff.mpr never)).elim
    · rcases sustained with ⟨goal, atRoots, coherent⟩
      have isLower : terms.Lower (.ofRelation related) after (terms.rules related) :=
        ⟨fun _ => id, strict, fun _ _ => id, fun _ isRelated => not_not.mpr isRelated⟩
      refine absurd ?_ (refused _ goal isLower coherent)
      rw [positions_roots]
      exact atRoots

theorem isOk_check_iff (charts : terms.arena.Plotted plot)
    (strict : .validity ∉ terms.assumed) {earlier : List Inquiry}
    (earlierInside : ∀ other ∈ earlier, terms.Inside other) (inside : terms.Inside inquiry) :
    ForLarge fun budget =>
      (({ terms with budget }.check inquiry.1 inquiry.2
        ({ terms with budget }.after earlier {})).1.isOk ↔
          terms.Upheld True (fun _ => False) inquiry) := by
  have bounds : terms.Bounds True (terms.rules (terms.Upheld True fun _ => False)) :=
    (Eased.refl terms).bounds strict
  rcases between_after charts settled_growing bounds earlierInside between_start with
    ⟨progress, isProgress, between⟩
  rw [forLarge_iff]
  filter_upwards [isProgress, isOk_checkBy_iff (steps_step _ charts) charts strict inside
    between] with budget sameProgress accepts
  rwa [sameProgress, check_eq_checkBy]

/-- In an arena that assemblies have filled, a check that does not assume validity accepts the
inquiries of the greatest consistent relation, whatever was checked before. -/
theorem check_greatest {shop : Workshop} (filled : shop.Filled)
    (isArena : terms.arena = shop.arena) (strict : .validity ∉ terms.assumed) :
    ∃ greatest : Inquiry → Prop, terms.Consistent greatest ∧
      (∀ related, terms.Consistent related → ∀ inquiry, related inquiry → greatest inquiry) ∧
      ∀ earlier inquiry, (∀ other ∈ earlier, terms.Inside other) → terms.Inside inquiry →
        Budget.ForLarge fun budget =>
          (({ terms with budget }.check inquiry.1 inquiry.2
            ({ terms with budget }.after earlier {})).1.isOk ↔ greatest inquiry) := by
  rcases filled.exists_plotted isArena with ⟨_, charts⟩
  refine ⟨fun inquiry => terms.Inside inquiry ∧ terms.Upheld True (fun _ => False) inquiry, ?_, ?_,
    ?_⟩
  · rintro _ ⟨inside, upheld⟩
    refine ⟨inside, (acceptsBy_iff charts strict inside ?_).mpr (upheld.cases.resolve_left id)⟩
    exact fun other isInside => and_iff_right isInside
  · intro related consistent inquiry isRelated
    refine ⟨(consistent inquiry isRelated).1, related, isRelated, fun other isOther => .inr ?_⟩
    rcases consistent other isOther with ⟨inside, accepts⟩
    exact (acceptsBy_iff charts strict inside fun _ _ => Iff.rfl).mp accepts
  · intro _ _ earlierInside inside
    simp only [and_iff_right inside]
    exact isOk_check_iff charts strict earlierInside inside

end Terms

section Sample

open Workshop

/-- Two kinds of chains: one of booleans and one of bytes, each link with a reference to the next.
-/
def Catalog.chains : Catalog :=
  let link (id : DefId) (number : Scalar) : Definition :=
    ⟨"Link", .struct 16 8 [⟨0, .scalar number⟩, ⟨8, .reference (.named id) ⟨8, .shared, .static⟩⟩]⟩
  { entries := [(⟨0⟩, link ⟨0⟩ .bool), (⟨1⟩, link ⟨1⟩ (.int 1))], next := 2 }

def Workshop.Job.ofChain (id : DefId) : Job where
  shape := .named id
  catalog := .chains
  machine := {}
  totalLength := none
  words := .named id
  catalogWords := .of_fits rfl
  machineWords := fitsWords_machine
  lengthWords := fitsWords_noLength

def Workshop.chains : Workshop :=
  (Job.ofChain ⟨1⟩).leave ((Job.ofChain ⟨0⟩).leave {})

theorem Workshop.filled_chains : Workshop.chains.Filled := .leave _ (.leave _ .empty)

/-- The chains of booleans are accepted as chains of bytes, but not the other way round, and so it
is with the greatest consistent relation. -/
theorem Terms.check_greatest_chains : let terms : Terms := { arena := Workshop.chains.arena }
    (terms.check ⟨2⟩ ⟨6⟩ {}).1.isOk ∧ (terms.check ⟨6⟩ ⟨2⟩ {}).1.isOk = false ∧
      ∃ greatest : Inquiry → Prop, terms.Consistent greatest ∧
        (∀ related, terms.Consistent related → ∀ inquiry, related inquiry → greatest inquiry) ∧
        ∀ earlier inquiry, (∀ other ∈ earlier, terms.Inside other) → terms.Inside inquiry →
          Budget.ForLarge fun budget =>
            (({ terms with budget }.check inquiry.1 inquiry.2
              ({ terms with budget }.after earlier {})).1.isOk ↔ greatest inquiry) := by
  intro _
  refine ⟨by decide +kernel, by decide +kernel, ?_⟩
  exact Terms.check_greatest Workshop.filled_chains rfl (by decide)

end Sample

end Recast
