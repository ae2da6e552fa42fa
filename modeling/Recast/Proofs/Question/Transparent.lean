import Recast.Proofs.Assembly.Inlined
import Recast.Proofs.Inclusion.Unshared
import Recast.Proofs.Question

/-!
# Names are transparent

With definitions in place of names, shapes are assembled to twins of the layouts that they are
assembled to with names, or fail to be for the same reason (`Setting.related_assemble`). And checks
of twins have the same outcome.
-/

namespace Recast

open List

theorem Catalog.acyclic_of_entries {catalog : Catalog}
    (earlier : ∀ entry ∈ catalog.entries, ∀ id, entry.2.shape.Mentions id →
      id.number < entry.1.number) :
    catalog.Acyclic := by
  have descends (id other : DefId) (mentions : catalog.Mentions id other) :
      other.number < id.number := by
    rcases mentions with ⟨definition, found, mentions⟩
    rcases lookup_eq_some_iff.mp found with ⟨_, _, isEntries, _⟩
    exact earlier (id, definition) (by simp [isEntries]) other mentions
  intro id reached
  have below (other : DefId) (reached : Relation.TransGen catalog.Mentions id other) :
      other.number < id.number := by
    induction reached with
    | single mentions => exact descends _ _ mentions
    | tail _ mentions ih => exact Nat.lt_trans (descends _ _ mentions) ih
  exact lt_irrefl _ (below id reached)

namespace Setting

variable {setting : Setting} {source destination : Shape} {assumed : Assumptions}

/-- The arena that assembling a shape leaves. -/
def left (setting : Setting) (shape : Shape) (totalLength : Option Nat) (arena : Arena) : Arena :=
  ((shape.build setting.catalog setting.machine totalLength).left { arena }).arena

/-- There is room for the layouts of both shapes in one arena. -/
def HasRoom (setting : Setting) (source destination : Shape) : Prop :=
  (setting.left source setting.sourceLength {}).inCapacity ∧
    ∀ first ∈ (setting.assemble source setting.sourceLength {}).toOption,
      (setting.left destination setting.destinationLength first.2).inCapacity

instance : Decidable (setting.HasRoom source destination) :=
  inferInstanceAs (Decidable (_ ∧ _))

/-- Both assemblies have left the arenas in order and made twins. -/
structure MadeTwins (arena arenaToo : Arena) (made madeToo : LayoutId × Arena) : Prop where
  indexed : made.2.WellIndexed
  indexedToo : madeToo.2.WellIndexed
  retains : arena.Retains made.2 (fun _ => False) fun _ => False
  retainsToo : arenaToo.Retains madeToo.2 (fun _ => False) fun _ => False
  twins : made.2.Twins madeToo.2 (fun _ => False) (fun _ => False) made.1 madeToo.1

/-- With definitions in place of names, a shape is assembled to a twin, or fails to be for the same
reason. -/
theorem related_assemble (acyclic : setting.catalog.Acyclic) (shape : Shape)
    (totalLength : Option Nat) {arena arenaToo : Arena} (indexed : arena.WellIndexed)
    (indexedToo : arenaToo.WellIndexed) (room : (setting.left shape totalLength arena).inCapacity)
    (roomToo : (setting.left (setting.catalog.inline shape) totalLength arenaToo).inCapacity) :
    Verdict.Related (MadeTwins arena arenaToo) (setting.assemble shape totalLength arena)
      (setting.assemble (setting.catalog.inline shape) totalLength arenaToo) := by
  have coupled := Coupling.coupled_assemble (setting.catalog.calls_eq_step setting.machine) acyclic
    indexed indexedToo shape totalLength
  rw [Shape.assembleBy_calls, Shape.assembleBy_calls] at coupled
  simp only [Coupling.Coupled] at coupled
  simp only [assemble, Shape.build, Assembly.bounded_of_room room, Assembly.bounded_of_room roomToo]
  rcases outcome : shape.assemble setting.catalog setting.machine totalLength { arena } with
    ⟨id, shop⟩ | ⟨defect, shop⟩ <;>
  rcases outcomeToo : (setting.catalog.inline shape).assemble setting.catalog setting.machine
    totalLength { arena := arenaToo } with ⟨_, shopToo⟩ | ⟨defectToo, shopToo⟩ <;>
  simp only [outcome, outcomeToo] at coupled ⊢
  · rcases coupled with ⟨⟨recalls, nameless⟩, retains, retainsToo, twins⟩
    exact .ok ⟨recalls.indexed, nameless.indexed, retains.arena, retainsToo.arena, twins⟩
  · rw [coupled.1]
    exact .error defectToo

theorem recast_of_source {defect : Defect}
    (failed : setting.assemble source setting.sourceLength {} = .error defect) :
    setting.recast source destination assumed = .error (.malformed defect) := by
  simp only [recast, failed]

theorem recast_of_destination {id : LayoutId} {middle : Arena} {defect : Defect}
    (first : setting.assemble source setting.sourceLength {} = .ok (id, middle))
    (failed : setting.assemble destination setting.destinationLength middle = .error defect) :
    setting.recast source destination assumed = .error (.malformed defect) := by
  simp only [recast, first, failed]

theorem malformed_or_assembles (acyclic : setting.catalog.Acyclic)
    (room : setting.HasRoom source destination)
    (roomToo : setting.HasRoom (setting.catalog.inline source)
      (setting.catalog.inline destination)) :
    (∃ defect, ∀ (budget : Budget) (assumed : Assumptions),
      { setting with budget }.recast source destination assumed = .error (.malformed defect) ∧
      { setting with budget }.recast (setting.catalog.inline source)
        (setting.catalog.inline destination) assumed = .error (.malformed defect)) ∨
    ∃ inquiry arena image arenaToo, setting.Assembles source destination inquiry arena ∧
      setting.Assembles (setting.catalog.inline source) (setting.catalog.inline destination) image
        arenaToo ∧
      arena.Twins arenaToo (fun _ => False) (fun _ => False) inquiry.1 image.1 ∧
      arena.Twins arenaToo (fun _ => False) (fun _ => False) inquiry.2 image.2 := by
  rcases room with ⟨room, roomBehind⟩
  rcases roomToo with ⟨roomToo, roomBehindToo⟩
  have sources := related_assemble acyclic source setting.sourceLength .empty .empty room roomToo
  rcases first : setting.assemble source setting.sourceLength {} with defect | ⟨id, middle⟩ <;>
    rcases firstToo : setting.assemble (setting.catalog.inline source) setting.sourceLength {} with
      defectToo | ⟨image, middleToo⟩ <;>
    rw [first, firstToo] at sources
  · cases sources
    exact .inl ⟨defect, fun _ _ => ⟨recast_of_source first, recast_of_source firstToo⟩⟩
  · cases sources
  · cases sources
  · have made : MadeTwins {} {} (id, middle) (image, middleToo) := by
      cases sources with
      | ok made => exact made
    have destinations :=
      related_assemble acyclic destination setting.destinationLength made.indexed made.indexedToo
        (roomBehind _ (by simp [first, Except.toOption]))
        (roomBehindToo _ (by simp [firstToo, Except.toOption]))
    rcases second : setting.assemble destination setting.destinationLength middle with
      defect | ⟨next, arena⟩ <;>
      rcases secondToo : setting.assemble (setting.catalog.inline destination)
        setting.destinationLength middleToo with
        defectToo | ⟨nextImage, arenaToo⟩ <;>
      rw [second, secondToo] at destinations
    · cases destinations
      exact .inl ⟨defect,
        fun _ _ => ⟨recast_of_destination first second, recast_of_destination firstToo secondToo⟩⟩
    · cases destinations
    · cases destinations
    · have madeThen : MadeTwins middle middleToo (next, arena) (nextImage, arenaToo) := by
        cases destinations with
        | ok made => exact made
      exact .inr ⟨(id, next), arena, (image, nextImage), arenaToo, ⟨middle, first, second⟩,
        ⟨middleToo, firstToo, secondToo⟩, made.twins.mono madeThen.retains madeThen.retainsToo,
          madeThen.twins⟩

/-- Definitions may be put in place of names until no name is left that is defined, and this does
not change the answer, as long as there is room for the layouts. -/
theorem recast_inline (acyclic : setting.catalog.Acyclic) (words : setting.FitsWords)
    (sourceWords : source.FitsWords) (destinationWords : destination.FitsWords)
    (room : setting.HasRoom source destination)
    (roomToo : setting.HasRoom (setting.catalog.inline source)
      (setting.catalog.inline destination)) :
    (∀ id definition, setting.catalog.get? id = some definition →
      setting.catalog.inline (.named id) = setting.catalog.inline definition.shape) ∧
    (∀ shape id, (setting.catalog.inline shape).Mentions id → setting.catalog.get? id = none) ∧
    Budget.ForLarge fun budget =>
      { setting with budget }.recast (setting.catalog.inline source)
        (setting.catalog.inline destination) assumed = { setting with budget }.recast source
          destination assumed := by
  refine ⟨fun id definition found => acyclic.inlined_eq found,
    fun shape id => acyclic.undefined_of_mentions, ?_⟩
  rw [Budget.forLarge_iff]
  rcases malformed_or_assembles acyclic room roomToo with ⟨defect, fails⟩ |
    ⟨inquiry, arena, image, arenaToo, assembles, assemblesToo, sourceTwins, destinationTwins⟩
  · exact .of_forall fun budget => by rw [(fails budget assumed).1, (fails budget assumed).2]
  · rcases assembles.charted words sourceWords destinationWords False.elim with ⟨⟨plot, charts⟩, _⟩
    rcases assemblesToo.charted words (acyclic.fitsWords_inline words.catalog sourceWords)
      (acyclic.fitsWords_inline words.catalog destinationWords) False.elim with
      ⟨⟨plotToo, chartsToo⟩, _⟩
    have twins : (setting.terms arena assumed).TwinInquiries arenaToo (fun _ => False)
        (fun _ => False) inquiry image :=
      ⟨sourceTwins, destinationTwins⟩
    have same := Budget.forLarge_iff.mp (Terms.check_of_twins (charts.mono fun _ _ => trivial)
      (chartsToo.mono fun _ _ => trivial) twins)
    filter_upwards [same] with budget sameOutcome
    have assembled : { setting with budget }.Assembles source destination inquiry arena := assembles
    have assembledToo : { setting with budget }.Assembles (setting.catalog.inline source)
      (setting.catalog.inline destination) image arenaToo := assemblesToo
    rw [assembled.recast_eq, assembledToo.recast_eq]
    exact congrArg (Except.mapError Refusal.rejected) sameOutcome.symm

def flags : Catalog :=
  { entries :=
      [(⟨1⟩, ⟨"Flags", .struct 2 1 [⟨0, .named ⟨0⟩⟩, ⟨1, .named ⟨0⟩⟩]⟩),
        (⟨0⟩, ⟨"Flag", .scalar .bool⟩)] }

def flagAndTwo (flag referent : Shape) : Shape :=
  .struct 24 8
    [⟨0, flag⟩, ⟨8, .reference referent ⟨1, .shared, .static⟩⟩,
    ⟨16, .reference referent ⟨1, .shared, .static⟩⟩]

theorem acyclic_flags : flags.Acyclic := by
  refine Catalog.acyclic_of_entries ?_
  rw [flags, forall_mem_cons, forall_mem_singleton]
  constructor
  · intro _ mentions
    cases mentions with
    | struct member inner =>
      simp only [mem_cons, not_mem_nil, or_false] at member
      rcases member with rfl | rfl <;> cases inner <;> decide
  · intro _ mentions
    cases mentions

/-- Two references to the named pair share a layout, and two to its definition do not. -/
theorem recast_inline_flags : let source := flagAndTwo (.named ⟨0⟩) (.named ⟨1⟩)
    let spelledOut :=
      flagAndTwo (.scalar .bool) (.struct 2 1 [⟨0, .scalar .bool⟩, ⟨1, .scalar .bool⟩])
    let destination := flagAndTwo (.scalar (.int 1)) (.scalar (.int 2))
    flags.Acyclic ∧ flags.inline source = spelledOut ∧ Budget.ForLarge fun budget =>
      Setting.recast { catalog := flags, budget } spelledOut destination ∅ =
        Setting.recast { catalog := flags, budget } source destination ∅ := by
  intro source spelledOut destination
  have isSource : flags.inline source = spelledOut := rfl
  have isDestination : flags.inline destination = destination := rfl
  have words : Setting.FitsWords { catalog := flags } := ⟨.of_fits rfl, fitsWords_default.machine,
    fitsWords_default.source, fitsWords_default.destination⟩
  have same :=
    (@recast_inline { catalog := flags } source destination ∅ acyclic_flags words (.of_fits rfl)
      (.of_fits rfl) (by decide +kernel) (by decide +kernel)).2.2
  rw [isSource, isDestination] at same
  exact ⟨acyclic_flags, isSource, same⟩

end Setting

end Recast
