import Recast.Proofs.Arena.Compiles
import Recast.Proofs.Arena.Growth
import Recast.Proofs.Arena.Indexed
import Recast.Proofs.Assembly.Unfold
import Recast.Proofs.Assembly.Verdicts

/-!
# Sound workshops

A workshop is sound if its arena can be charted and every referent is one of the arena's layouts.
Each step of assembly keeps a workshop sound, be it that the step fails, and changes nothing that
was there before. It does not fail for options that differ in size (`Assembly.Ensures`).
-/

namespace Recast

open Arena

variable {plain : Prop} {bound : Nat} {shop later : Workshop} {id : LayoutId} {name : Option DefId}
  {defect : Defect}

namespace Workshop

variable {last : Workshop}

/-- The arena can be charted, and referents are layouts. If only plain layouts are wanted, all
tokens are cells. -/
structure Sound (plain : Prop) (shop : Workshop) : Prop where
  charted : ∃ plot, shop.arena.Charts plot (Token.Admitted plain shop.size)
  indexed : shop.arena.WellIndexed
  referents : ∀ id layout, shop.referents.lookup id = some layout → layout.index < shop.size

/-- No state has changed, no layout is lost, and those below a given number are as they were, with
the names that they are the referents of. -/
structure Extends (bound : Nat) (shop later : Workshop) : Prop where
  grown : shop.size ≤ later.size
  states : ∃ more, later.arena.states = shop.arena.states ++ more
  same : ∀ id, id.index < bound → later.arena.layout id = shop.arena.layout id
  named : ∀ name id, id.index < bound →
    (later.referents.lookup name = some id ↔ shop.referents.lookup name = some id)

structure Blank (shop : Workshop) (id : LayoutId) : Prop where
  inside : id.index < shop.size
  blank : (shop.arena.layout id).size = some 0

structure Settles (id : LayoutId) (size : Option Nat) (shop later : Workshop) : Prop where
  sound : later.Sound False
  grown : shop.size ≤ later.size
  names : later.referents = shop.referents
  size : (later.arena.layout id).size = size
  same : ∀ other, other.index < shop.size → other ≠ id →
    later.arena.layout other = shop.arena.layout other

theorem Extends.refl (shop : Workshop) : shop.Extends bound shop :=
  ⟨le_rfl, ⟨#[], Array.append_empty.symm⟩, fun _ _ => rfl, fun _ _ _ => Iff.rfl⟩

theorem Extends.trans (first : shop.Extends bound later) (second : later.Extends bound last) :
    shop.Extends bound last := by
  refine ⟨le_trans first.grown second.grown, ?_, fun id inside =>
    (second.same id inside).trans (first.same id inside), fun name id inside =>
    (second.named name id inside).trans (first.named name id inside)⟩
  rcases first.states with ⟨more, isLater⟩
  rcases second.states with ⟨others, isLast⟩
  exact ⟨more ++ others, by rw [isLast, isLater, Array.append_assoc]⟩

theorem Extends.mono {less : Nat} (lower : less ≤ bound) (grows : shop.Extends bound later) :
    shop.Extends less later :=
  ⟨grows.grown, grows.states, fun id inside => grows.same id (lt_of_lt_of_le inside lower),
    fun name id inside => grows.named name id (lt_of_lt_of_le inside lower)⟩

theorem Extends.keeps (grows : shop.Extends shop.size later) : shop.arena.Keeps later.arena := by
  refine ⟨fun index inside => ?_, fun index inside => ?_⟩
  · rcases grows.states with ⟨_, isStates⟩
    rw [isStates, Array.getElem?_append_left inside]
  · have inLater : index < later.arena.layouts.size := lt_of_lt_of_le inside grows.grown
    have same := grows.same ⟨index⟩ inside
    simp only [layout, inside, inLater, Array.getElem?_eq_getElem, Option.getD_some] at same
    rw [Array.getElem?_eq_getElem inside, Array.getElem?_eq_getElem inLater, same]

theorem Sound.opened (sound : shop.Sound plain) (opened : Opened name shop later) :
    later.Sound plain ∧ later.Blank ⟨shop.size⟩ ∧ shop.Extends shop.size later := by
  have grown : shop.size ≤ later.size := by simp [opened.size]
  have inside : shop.size < later.size := by simp [opened.size]
  rcases sound.charted with ⟨plot, charts⟩
  rcases charts.reserve with ⟨largerPlot, largerCharts⟩
  refine ⟨⟨⟨largerPlot, ?_⟩, ?_, fun id layout found => ?_⟩, ⟨inside, ?_⟩, grown,
    ⟨_, congrArg states opened.arena⟩, fun id low => ?_, fun name id low => ?_⟩
  · rw [opened.arena]
    exact largerCharts.mono fun token isProper => isProper.mono grown
  · rw [opened.arena]
    exact sound.indexed.reserve
  · rcases (opened.lookup id layout).mp found with known | ⟨_, rfl⟩
    · exact Nat.lt_of_lt_of_le (sound.referents id layout known) grown
    · exact inside
  · rw [opened.arena]
    exact congrArg Layout.size layout_reserve_self
  · rw [opened.arena]
    exact layout_reserve_of_lt low
  · rw [opened.lookup, or_iff_left]
    rintro ⟨_, rfl⟩
    exact lt_irrefl _ low

theorem Blank.kept (blank : shop.Blank id) (grows : shop.Extends bound later)
    (below : id.index < bound) : later.Blank id :=
  ⟨lt_of_lt_of_le blank.inside grows.grown, by
    rw [grows.same id below]
    exact blank.blank⟩

end Workshop

namespace Assembly

variable {α β : Type}

/-- From the workshop on, the step leads to a sound workshop with all layouts below a given number
as they were, and a result meets the condition. -/
def Ensures (plain : Prop) (bound : Nat) (step : Assembly α) (shop : Workshop)
    (post : α → Workshop → Prop) : Prop :=
  match step shop with
  | .ok value later => shop.Extends bound later ∧ later.Sound plain ∧ post value later
  | .error defect later => shop.Extends bound later ∧ later.Sound plain ∧ ¬ defect.Mismatches

variable {post : α → Workshop → Prop} {final : β → Workshop → Prop}

theorem Ensures.ok {step : Assembly α} {value : α} (ensures : Ensures plain bound step shop post)
    (isOk : step shop = .ok value later)
    : shop.Extends bound later ∧ later.Sound plain ∧ post value later := by
  simpa only [Ensures, isOk] using ensures

theorem Ensures.error {step : Assembly α} (ensures : Ensures plain bound step shop post)
    (isError : step shop = .error defect later) :
    shop.Extends bound later ∧ later.Sound plain ∧ ¬ defect.Mismatches := by
  simpa only [Ensures, isError] using ensures

theorem ensures_pure {value : α} (sound : shop.Sound plain) (holds : post value shop) :
    Ensures plain bound (pure value) shop post :=
  ⟨.refl shop, sound, holds⟩

theorem ensures_throw (sound : shop.Sound plain) (fine : ¬ defect.Mismatches) :
    Ensures plain bound (throw defect) shop post :=
  ⟨.refl shop, sound, fine⟩

theorem Ensures.bind {step : Assembly α} {next : α → Assembly β}
    (first : Ensures plain bound step shop post)
    (second : ∀ value later, shop.Extends bound later → later.Sound plain → post value later →
      Ensures plain bound (next value) later final) :
    Ensures plain bound (step >>= next) shop final := by
  rcases outcome : step shop with ⟨value, later⟩ | ⟨_, later⟩
  · simp only [Ensures, Bind.bind, EStateM.bind, outcome] at first ⊢
    rcases first with ⟨grows, sound, holds⟩
    have onward := second value later grows sound holds
    simp only [Ensures] at onward
    split at onward <;> exact ⟨grows.trans onward.1, onward.2⟩
  · simpa only [Ensures, Bind.bind, EStateM.bind, outcome] using first

theorem Ensures.mono {less : Nat} {weaker : α → Workshop → Prop} {step : Assembly α}
    (ensures : Ensures plain bound step shop post) (lower : less ≤ bound)
    (imp : ∀ value later, shop.Extends bound later → post value later → weaker value later) :
    Ensures plain less step shop weaker := by
  simp only [Ensures] at ensures ⊢
  split at ensures
  · rename_i value later isOk
    exact ⟨ensures.1.mono lower, ensures.2.1, imp value later ensures.1 ensures.2.2⟩
  · exact ⟨ensures.1.mono lower, ensures.2⟩

theorem ensures_ofExcept_bind {result : Except Defect α} {next : α → Assembly β}
    (sound : shop.Sound plain) (sensible : Except.Sensible result)
    (onward : ∀ value, result = .ok value → Ensures plain bound (next value) shop final) :
    Ensures plain bound (ofExcept result >>= next) shop final := by
  cases result with
  | ok value => exact onward value rfl
  | error defect => exact ensures_throw sound (sensible defect rfl)

theorem ensures_unless {condition : Prop} [Decidable condition] {next : Assembly α}
    (sound : shop.Sound plain) (fine : ¬ defect.Mismatches)
    (otherwise : ¬ condition → Ensures plain bound next shop post) :
    Ensures plain bound (if condition then do throw defect; next else next) shop post := by
  split
  · exact ⟨.refl shop, sound, fine⟩
  · rename_i holds
    exact otherwise holds

theorem ensures_define {pattern : Pattern} (sound : shop.Sound plain) (blank : shop.Blank id)
    (above : bound ≤ id.index) (shaped : pattern.Shaped)
    (leaves : pattern.Leaves (Token.Admitted plain shop.size)) :
    Ensures plain bound (define id pattern) shop fun _ later => id.index < later.size := by
  obtain ⟨arena, defined⟩ : ∃ arena, shop.arena.define id pattern = .ok arena :=
    exists_define shaped
  simp only [Ensures, define, defined]
  rcases sound.charted with ⟨plot, charts⟩
  rcases charts.define blank.inside blank.blank shaped leaves defined with
    ⟨largerPlot, largerCharts⟩
  rcases Arena.define_eq_ok defined with ⟨fragment, _, isStates, isLayouts⟩
  have grown : shop.size ≤ arena.layouts.size := by
    simp [isLayouts, Workshop.size]
  refine ⟨⟨grown, ⟨_, isStates⟩, ?_, fun _ _ _ => Iff.rfl⟩, ⟨⟨largerPlot, ?_⟩, ?_, ?_⟩, ?_⟩
  · intro other inside
    refine (layout_define isLayouts blank.inside).2.1 other ?_ ?_
    · exact Nat.lt_trans (lt_of_lt_of_le inside above) blank.inside
    · rintro rfl
      omega
  · exact largerCharts.mono fun _ isProper => isProper.mono grown
  · exact sound.indexed.define (leaves.mono fun _ admitted => (admitted.1.mono grown).inside)
      defined
  · intro name layout found
    exact Nat.lt_of_lt_of_le (sound.referents name layout found) grown
  · exact lt_of_lt_of_le blank.inside grown

theorem exists_define {pattern : Pattern} (sound : shop.Sound False) (blank : shop.Blank id)
    (shaped : pattern.Shaped) (leaves : pattern.Leaves (Token.Admitted False shop.size)) :
    ∃ later, define id pattern shop = .ok () later ∧ shop.Settles id pattern.size later := by
  obtain ⟨arena, defined⟩ : ∃ arena, shop.arena.define id pattern = .ok arena :=
    Arena.exists_define shaped
  have outcome : define id pattern shop = .ok () { shop with arena } := by
    simp only [define, defined]
  have ensures := (ensures_define sound blank le_rfl shaped leaves).ok outcome
  rcases Arena.define_eq_ok defined with ⟨_, _, _, isLayouts⟩
  rcases Arena.layout_define isLayouts blank.inside with ⟨isRecord, same, _⟩
  exact ⟨_, outcome, ensures.2.1, ensures.1.grown, rfl, congrArg Layout.size isRecord, same⟩

theorem Ensures.opened {step filling : Assembly α} {started : Workshop}
    (ensures : Ensures plain shop.size filling started post)
    (begins : shop.Extends shop.size started) (same : step shop = filling started) :
    Ensures plain shop.size step shop post := by
  simp only [Ensures, same] at ensures ⊢
  split at ensures <;> exact ⟨begins.trans ensures.1, ensures.2⟩

end Assembly

end Recast
