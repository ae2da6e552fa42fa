import Recast.Proofs.Assembly.Builds

/-!
# Assembly after a history

A workshop remembers the layouts of named referents, also of those whose assembly has failed. As
long as all definitions that it remembers build, no assembly can tell the workshop from a fresh one
(`Shape.verdict_resumed`). Two runs over a shape differ only where the first one remembers a
referent that the second one has to assemble; as the definitions remembered ask for no others, that
succeeds.
-/

namespace Recast

open Assembly Catalog Shape List Bond

variable {shop : Workshop}

/-- Success, or the defect. -/
def Assembly.verdict {α : Type} (step : Assembly α) (shop : Workshop) : Except Defect Unit :=
  match step shop with
  | .ok _ _ => .ok ()
  | .error defect _ => .error defect

section Afresh

variable {catalog : Catalog} {machine : Machine} {later : Workshop} {id : DefId} {shape : Shape}
  {totalLength : Option Nat}

/-- A workshop in which shapes from one catalog have been assembled, or not: some may have failed.
The arena may have been filled before. -/
inductive Workshop.Resumed (catalog : Catalog) (machine : Machine) : Workshop → Prop
  | begun {shop : Workshop} (filled : shop.Filled) :
      Resumed catalog machine { arena := shop.arena }
  | next {shop : Workshop} {shape : Shape} {totalLength : Option Nat} (words : shape.FitsWords)
      (lengthWords : ∀ length, totalLength = some length → length ≤ Extent.cap)
      (resumed : Resumed catalog machine shop) :
      Resumed catalog machine ((shape.build catalog machine totalLength).left shop)

/-- What a workshop remembers is finished, and asks for nothing that it does not remember. -/
structure Workshop.Rounded (catalog : Catalog) (machine : Machine) (shop : Workshop) : Prop where
  tells : shop.Tells catalog machine []
  asked : ∀ id, shop.Knows id → ∃ definition, catalog.get? id = some definition ∧
    ∀ other, definition.shape.AsksFor catalog other → shop.Knows other

theorem Workshop.Rounded.closes (rounded : shop.Rounded catalog machine) :
    catalog.Closes shop.Knows := by
  intro id _ known found
  rcases rounded.asked id known with ⟨_, foundToo, asked⟩
  rw [found, Option.some.injEq] at foundToo
  exact foundToo ▸ asked

theorem Workshop.Rounded.of_passes (rounded : shop.Rounded catalog machine)
    (passes : shop.Passes catalog (fun _ => True) later) (tells : later.Tells catalog machine []) :
    later.Rounded catalog machine := by
  refine ⟨tells, fun id known => ?_⟩
  rcases passes.assembled id known with old | ⟨_, definition, found, cleared⟩
  · exact (rounded.asked id old).imp fun definition both =>
      ⟨both.1, fun other asks => passes.knows (both.2 other asks)⟩
  · exact ⟨definition, found, cleared.asked⟩

section Abreast

/-- How a workshop that remembers some definitions from the start and one that does not are related.
-/
structure Workshop.Abreast (catalog : Catalog) (machine : Machine) (names : DefId → Prop)
    (pending : List DefId) (underway underwayToo : Underway) (few : Nat) (first second : Workshop) :
    Prop where
  tells : first.Tells catalog machine underway
  tellsToo : second.Tells catalog machine underwayToo
  remembered : ∀ id, names id → first.Knows id
  subset : ∀ id, second.Knows id → first.Knows id
  only : ∀ id, first.Knows id → second.Knows id ∨ names id
  waits : ∀ id ∈ pending, first.Waits id ∧ second.Waits id
  asked : ∀ id, first.Knows id → id ∈ pending ∨ ∃ definition, catalog.get? id = some definition ∧
    ∀ other, definition.shape.AsksFor catalog other → first.Knows other
  pending : ∀ id layout, (some id, layout) ∈ underway ∨ (some id, layout) ∈ underwayToo →
    id ∈ pending
  few : catalog.unknown second < few

variable {names : DefId → Prop} {pending : List DefId} {underway underwayToo : Underway} {few : Nat}
  {first second last : Workshop} {layout other : LayoutId}

namespace Workshop.Abreast

section Abreast

variable (abreast : Abreast catalog machine names pending underway underwayToo few first second)
include abreast

theorem of_agrees (agrees : first.Agrees later) (agreesToo : second.Agrees last) :
    Abreast catalog machine names pending underway underwayToo few later last where
  tells := abreast.tells.of_agrees agrees
  tellsToo := abreast.tellsToo.of_agrees agreesToo
  remembered id isName := agrees.knows.mpr (abreast.remembered id isName)
  subset id known := agrees.knows.mpr (abreast.subset id (agreesToo.knows.mp known))
  only id known := (abreast.only id (agrees.knows.mp known)).imp_left agreesToo.knows.mpr
  waits id member := (abreast.waits id member).imp (·.of_agrees agrees) (·.of_agrees agreesToo)
  pending := abreast.pending
  asked id known := by
    simp only [agrees.knows] at known ⊢
    exact abreast.asked id known
  few := Nat.lt_of_le_of_lt (catalog.unknown_mono fun _ => agreesToo.knows.mpr) abreast.few

theorem size_eq_none_iff (found : first.referents.lookup id = some layout)
    (foundToo : second.referents.lookup id = some other) :
    (first.arena.layout layout).size = none ↔ (second.arena.layout other).size = none := by
  by_cases waiting : id ∈ pending
  · rcases abreast.waits id waiting with ⟨⟨_, isLayout, size⟩, _, isOther, sizeToo⟩
    rw [found, Option.some.injEq] at isLayout
    rw [foundToo, Option.some.injEq] at isOther
    rw [isLayout, isOther, size, sizeToo]
  · have finished : (some id, layout) ∉ underway := fun member =>
      waiting (abreast.pending id layout (.inl member))
    have finishedToo : (some id, other) ∉ underwayToo := fun member =>
      waiting (abreast.pending id other (.inr member))
    refine ⟨fun unsized => ?_, fun unsized => ?_⟩
    · exact abreast.tellsToo.sized id other foundToo finishedToo
        (abreast.tells.unsized id layout found unsized)
    · exact abreast.tells.sized id layout found finished
        (abreast.tellsToo.unsized id other foundToo unsized)

theorem extend {known knownToo : DefId → Prop} (sound : first.Sound False)
    (soundToo : second.Sound False)
    (finds : first.Finds catalog machine known underway id layout later)
    (findsToo : second.Finds catalog machine knownToo underwayToo id other last)
    (subset : ∀ id, last.Knows id → later.Knows id)
    (only : ∀ id, later.Knows id → last.Knows id ∨ names id) :
    Abreast catalog machine names pending underway underwayToo few later last where
  tells := finds.tells
  tellsToo := findsToo.tells
  remembered id isName := finds.passes.knows (abreast.remembered id isName)
  subset := subset
  only := only
  waits id member :=
    (abreast.waits id member).imp (·.extend sound finds.grows) (·.extend soundToo findsToo.grows)
  pending := abreast.pending
  asked id isKnown := by
    rcases finds.passes.assembled id isKnown with old | ⟨_, definition, found, cleared⟩
    · exact (abreast.asked id old).imp_right fun ⟨definition, found, asked⟩ =>
        ⟨definition, found, fun other asks => finds.passes.knows (asked other asks)⟩
    · exact .inr ⟨definition, found, cleared.asked⟩
  few := Nat.lt_of_le_of_lt (catalog.unknown_mono fun _ => findsToo.passes.knows) abreast.few

end Abreast

theorem begun {definition : Definition}
    (abreast : Abreast catalog machine names pending underway underwayToo (few + 1) first second)
    (sound : first.Sound False) (soundToo : second.Sound False)
    (unknown : first.referents.lookup id = none) (unknownToo : second.referents.lookup id = none)
    (found : catalog.get? id = some definition) :
    Abreast catalog machine names (id :: pending) ((some id, ⟨first.size⟩) :: underway)
      ((some id, ⟨second.size⟩) :: underwayToo) few (first.begun id) (second.begun id) where
  tells := abreast.tells.opened sound (opened_begun unknown)
  tellsToo := abreast.tellsToo.opened soundToo (opened_begun unknownToo)
  remembered name isName := knows_begun.mpr (.inr (abreast.remembered name isName))
  subset name known := knows_begun.mpr ((knows_begun.mp known).imp_right (abreast.subset name))
  only name known := by
    rcases knows_begun.mp known with isNew | old
    · exact .inl (knows_begun.mpr (.inl isNew))
    · exact (abreast.only name old).imp_left fun known => knows_begun.mpr (.inr known)
  waits name member := by
    rcases mem_cons.mp member with rfl | old
    · exact ⟨waits_begun sound unknown, waits_begun soundToo unknownToo⟩
    · exact (abreast.waits name old).imp (·.extend sound (sound.opened (opened_begun unknown)).2.2)
        (·.extend soundToo (soundToo.opened (opened_begun unknownToo)).2.2)
  pending name layout member := by
    simp only [mem_cons, Prod.mk.injEq, Option.some.injEq] at member ⊢
    rcases member with (isNew | old) | (isNew | old)
    · exact .inl isNew.1
    · exact .inr (abreast.pending name layout (.inl old))
    · exact .inl isNew.1
    · exact .inr (abreast.pending name layout (.inr old))
  asked name known := by
    rw [mem_cons, or_assoc]
    refine (knows_begun.mp known).imp_right fun old => (abreast.asked name old).imp_right ?_
    exact fun ⟨definition, found, asked⟩ => ⟨definition, found, fun other asks =>
      knows_begun.mpr (.inr (asked other asks))⟩
  few :=
    Nat.lt_of_lt_of_le (catalog.unknown_begun_lt unknownToo found) (Nat.le_of_lt_succ abreast.few)

end Workshop.Abreast

theorem Workshop.Rounded.abreast (rounded : shop.Rounded catalog machine) :
    Abreast catalog machine shop.Knows [] [] [] (catalog.size + 1) shop {} where
  tells := rounded.tells
  tellsToo := by constructor <;> simp
  remembered _ known := known
  subset := by rintro id ⟨_, ⟨⟩⟩
  only _ known := .inr known
  waits := by simp
  pending := by simp
  asked id known := .inr (rounded.asked id known)
  few := Nat.lt_succ_of_le catalog.unknown_le_size

/-- Both runs succeed, or both fail for the same reason. A failure leaves unfinished layouts only
together with a definition that does not build. -/
def Bond.abreast (catalog : Catalog) (machine : Machine) (names : DefId → Prop)
    (pending : List DefId) (underway underwayToo : Underway) (few : Nat) : Bond where
  strict := True
  link := Workshop.Abreast catalog machine names pending underway underwayToo few
  slack _ := False
  ruin later := pending = [] → underway = [] → (∀ id, later.Knows id → catalog.Builds machine id) →
    later.Rounded catalog machine
  not_slack _ := not_false
  ruin_of_link abreast := by
    rintro rfl rfl _
    exact ⟨abreast.tells, fun id known => (abreast.asked id known).resolve_left not_mem_nil⟩
  link_of_agrees abreast agrees agreesToo := abreast.of_agrees agrees agreesToo

variable (machineWords : machine.FitsWords) (catalogWords : catalog.FitsWords)

include machineWords catalogWords

/-- Where the first workshop remembers a referent that the second one assembles, they stay abreast.
-/
theorem Workshop.Abreast.recall (closes : catalog.Closes names)
    (abreast : Abreast catalog machine names pending underway underwayToo few first second)
    (sound : first.Sound False) (soundToo : second.Sound False)
    (found : first.referents.lookup id = some layout)
    (isOkToo : catalog.referent machine catalog.size id second = .ok other last) :
    last.Sound False ∧ Abreast catalog machine names pending underway underwayToo few first last ∧
      ((first.arena.layout layout).size = none ↔ (last.arena.layout other).size = none) := by
  rcases foundToo : second.referents.lookup id with _ | known
  · have isName : names id := by
      rcases abreast.only id ⟨layout, found⟩ with ⟨_, isOther⟩ | isName
      · rw [foundToo] at isOther
        cases isOther
      · exact isName
    have isOk : catalog.referent machine catalog.size id first = .ok layout first :=
      referent_of_known found
    have finds :=
      catalog.finds_referent machineWords catalogWords closes isName sound abreast.tells isOk
    have findsToo := catalog.finds_referent machineWords catalogWords closes isName soundToo
      abreast.tellsToo isOkToo
    have extended := abreast.extend sound soundToo finds findsToo (fun name known => by
        rcases findsToo.passes.assembled name known with old | ⟨isName, _⟩
        · exact abreast.subset name old
        · exact abreast.remembered name isName)
      (fun name known => (abreast.only name known).imp_left findsToo.passes.knows)
    exact ⟨findsToo.sound, extended, extended.size_eq_none_iff found findsToo.lookup⟩
  · rw [referent_of_known foundToo] at isOkToo
    cases isOkToo
    exact ⟨soundToo, abreast, abreast.size_eq_none_iff found foundToo⟩

/-- Where both workshops assemble a referent, they are abreast again once it is finished. -/
theorem Workshop.Abreast.filled {fewer : Nat} {opened openedToo : Underway}
    {filled filledToo : Workshop} {size sizeToo : Option Nat}
    (abreast : Abreast catalog machine names pending underway underwayToo few first second)
    (sound : first.Sound False) (soundToo : second.Sound False)
    (ends : Abreast catalog machine names (id :: pending) opened openedToo fewer filled filledToo)
    (isOk : catalog.referent machine catalog.size id first = .ok layout later)
    (isOkToo : catalog.referent machine catalog.size id second = .ok other last)
    (settles : filled.Settles layout size later)
    (settlesToo : filledToo.Settles other sizeToo last) :
    Abreast catalog machine names pending underway underwayToo few later last := by
  have all : catalog.Closes fun _ => True := fun _ _ _ _ _ _ => trivial
  have finds :=
    catalog.finds_referent machineWords catalogWords all trivial sound abreast.tells isOk
  have findsToo :=
    catalog.finds_referent machineWords catalogWords all trivial soundToo abreast.tellsToo isOkToo
  have knows (name : DefId) : later.Knows name ↔ filled.Knows name := by
    rw [Knows, Knows, settles.names]
  have knowsToo (name : DefId) : last.Knows name ↔ filledToo.Knows name := by
    rw [Knows, Knows, settlesToo.names]
  refine abreast.extend sound soundToo finds findsToo (fun name known => ?_) fun name known => ?_
  · exact (knows name).mpr (ends.subset name ((knowsToo name).mp known))
  · exact (ends.only name ((knows name).mp known)).imp_left (knowsToo name).mpr

/-- Where both runs have to assemble a definition, the bond between them holds once it is finished.
-/
theorem Catalog.runs_begun {bond : Bond} {definition : Definition} (inner : Bond)
    (found : catalog.get? id = some definition) (unknown : first.referents.lookup id = none)
    (unknownToo : second.referents.lookup id = none) (sound : first.Sound False)
    (soundToo : second.Sound False) (link : inner.link (first.begun id) (second.begun id))
    (pairs : ∀ name, inner.PairsReferents (catalog.referent machine catalog.size name))
    (strict : bond.strict → inner.strict) (slack : ∀ last, inner.slack last → bond.slack last)
    (ruin : ∀ defect later, catalog.referent machine catalog.size id first = .error defect later →
      bond.ruin later)
    (ends : ∀ filled filledToo layout other later last size sizeToo, inner.link filled filledToo →
      catalog.referent machine catalog.size id first = .ok layout later →
      catalog.referent machine catalog.size id second = .ok other last →
      filled.Settles layout size later → filledToo.Settles other sizeToo last →
        bond.link later last) :
    bond.Runs (catalog.referent machine catalog.size id) (catalog.referent machine catalog.size id)
      first second
      bond.NoWider := by
  have words := catalogWords id definition found
  have scopeWords : Scope.FitsWords { inPlace := [id], underWay := [id] } := by
    simp [Scope.FitsWords]
  rcases sound.opened (Workshop.opened_begun unknown) with ⟨begunSound, blank, _⟩
  rcases soundToo.opened (Workshop.opened_begun unknownToo) with ⟨begunSoundToo, blankToo, _⟩
  have linked : inner.Linked (first.begun id) (second.begun id) := ⟨begunSound, begunSoundToo, link⟩
  have runs := pairs_planIn machineWords catalogWords words scopeWords (.inl rfl)
    (fun name _ => pairs name) 0 0 (fun _ => rfl) _ _ linked
  refine runs_fill (sound_planIn machineWords catalogWords words False.elim) scopeWords
    (referent_of_found unknown found) (referent_of_found unknownToo found) blank blankToo linked
    runs strict slack (fun defect later failed _ => ruin defect later failed) ?_
  intro _ _ _ _ _ _ laterLinked _ _
  exact ends _ _ _ _ _ _ _ _ laterLinked.link

theorem Catalog.pairsReferents_abreast (closes : catalog.Closes names)
    (builds : ∀ id, names id → catalog.Builds machine id) :
    PairsReferents (.abreast catalog machine names pending underway underwayToo few)
      (catalog.referent machine catalog.size id) := by
  induction few generalizing id pending underway underwayToo with
  | zero => exact fun first second linked => absurd linked.link.few (Nat.not_lt_zero _)
  | succ few ih =>
    rintro first second ⟨sound, soundToo, abreast⟩
    rcases known : first.referents.lookup id with _ | layout
    · have unknownToo : second.referents.lookup id = none := by
        rw [← Workshop.not_knows_iff] at known ⊢
        exact fun isKnown => known (abreast.subset id isKnown)
      rcases found : catalog.get? id with _ | _
      · exact runs_of_error (referent_of_undefined known found)
          (referent_of_undefined unknownToo found) (ruin_of_link _ abreast)
      refine catalog.runs_begun machineWords catalogWords
        (.abreast catalog machine names (id :: pending) ((some id, ⟨first.size⟩) :: underway)
        ((some id, ⟨second.size⟩) :: underwayToo) few) found known unknownToo sound soundToo
        (abreast.begun sound soundToo known unknownToo found) (fun _ => ih) (fun strict => strict)
        (fun _ slack => slack) (fun defect later failed _ _ laterBuilds => ?_)
        fun _ _ _ _ _ _ _ _ => abreast.filled machineWords catalogWords sound soundToo
      have all : catalog.Closes fun _ => True := fun _ _ _ _ _ _ => trivial
      rcases catalog.follows_referent machineWords catalogWords all trivial found sound
        abreast.tells with
        ⟨_, _, isOk⟩ | ⟨_, _, isError, other, isKnown, _, fails⟩
      · cases failed.symm.trans isOk
      · cases failed.symm.trans isError
        exact absurd (laterBuilds other isKnown) fails
    · have isOkToo : ∃ other last, catalog.referent machine catalog.size id second =
          .ok other last := by
        rcases abreast.only id ⟨layout, known⟩ with ⟨other, foundToo⟩ | isName
        · exact ⟨other, second, referent_of_known foundToo⟩
        · exact catalog.exists_referent_of_builds machineWords catalogWords closes builds isName
            soundToo abreast.tellsToo
      rcases isOkToo with ⟨_, _, isOkToo⟩
      rcases abreast.recall machineWords catalogWords closes sound soundToo known isOkToo with
        ⟨lastSound, link, iff⟩
      exact runs_of_ok (referent_of_known known) isOkToo ⟨sound, lastSound, link⟩
        ⟨iff.mpr, fun _ => iff.mp⟩

section

variable (words : shape.FitsWords)
  (lengthWords : ∀ length, totalLength = some length → length ≤ Extent.cap)
  (sound : shop.Sound False)
include words lengthWords sound

theorem Shape.runs_resumed (rounded : shop.Rounded catalog machine)
    (builds : ∀ id, shop.Knows id → catalog.Builds machine id) :
    Runs (.abreast catalog machine shop.Knows [] [] [] (catalog.size + 1))
      (shape.planIn catalog machine { totalLength } 0)
        (shape.planIn catalog machine { totalLength } 0) shop {}
      fun draft other _ _ =>
        Matches (.abreast catalog machine shop.Knows [] [] [] (catalog.size + 1)) draft other := by
  have pairs : Pairs (.abreast catalog machine shop.Knows [] [] [] (catalog.size + 1))
      (shape.planIn catalog machine) { totalLength } :=
    pairs_planIn machineWords catalogWords words lengthWords (.inr trivial)
      fun _ _ => catalog.pairsReferents_abreast machineWords catalogWords rounded.closes builds
  exact pairs 0 0 (fun _ => rfl) _ _ ⟨sound, Workshop.sound_empty, rounded.abreast⟩

theorem Shape.rounded_build
    (rounded : (∀ id, shop.Knows id → catalog.Builds machine id) → shop.Rounded catalog machine) :
    let later := (shape.build catalog machine totalLength).left shop
    later.Sound False ∧
      ((∀ id, later.Knows id → catalog.Builds machine id) → later.Rounded catalog machine) := by
  rw [build, left_bounded, left]
  have refers := refers_assemble machineWords catalogWords words lengthWords
    (False.elim : False → shape.Plain catalog) shop sound
  rcases planned : shape.planIn catalog machine { totalLength } 0 shop with
    ⟨draft, later⟩ | ⟨defect, later⟩
  · rcases exists_assemble machineWords catalogWords words lengthWords sound planned with
      ⟨_, last, isOk, names⟩
    rw [isOk]
    refine ⟨(refers.ok isOk).2.1, fun builds => ?_⟩
    replace rounded := rounded fun id known => builds id ((refers.ok isOk).1.knows sound known)
    have tells :=
      (ensures_assemble_tells (Draft.passes_measures machineWords) machineWords catalogWords words
        lengthWords sound rounded.tells).ok isOk
    have passes : shop.Passes catalog (fun _ => True) last :=
      (passes_planIn planned).1.trans (.of_referents names)
    exact rounded.of_passes passes tells.2.2
  · have failed : shape.assemble catalog machine totalLength shop = .error defect later :=
      bind_of_error planned
    rw [failed]
    refine ⟨(refers.error failed).2.1, fun builds => ?_⟩
    have before (id : DefId) (known : shop.Knows id) :=
      builds id ((refers.error failed).1.knows sound known)
    have runs :=
      runs_resumed machineWords catalogWords words lengthWords sound (rounded before) before
    simp only [Runs, planned] at runs
    exact (runs trivial).1 rfl rfl builds

end

theorem Workshop.Resumed.rounded (resumed : shop.Resumed catalog machine) :
    shop.Sound False ∧
      ((∀ id, shop.Knows id → catalog.Builds machine id) → shop.Rounded catalog machine) := by
  induction resumed with
  | begun filled =>
    exact ⟨filled.sound.renewed, fun _ => ⟨by constructor <;> simp, by rintro _ ⟨_, ⟨⟩⟩⟩⟩
  | next words lengthWords _ ih =>
    exact rounded_build machineWords catalogWords words lengthWords ih.1 ih.2

/-- If all definitions with a referent build, and there is room in the arenas, an assembly ends as
it does in a fresh workshop. -/
theorem Shape.verdict_resumed (words : shape.FitsWords)
    (lengthWords : ∀ length, totalLength = some length → length ≤ Extent.cap)
    (resumed : shop.Resumed catalog machine)
    (builds : ∀ id, shop.Knows id → catalog.Builds machine id)
    (room : ((shape.build catalog machine totalLength).left shop).arena.inCapacity)
    (roomAfresh : ((shape.build catalog machine totalLength).left {}).arena.inCapacity) :
    (shape.build catalog machine totalLength).verdict shop =
      (shape.build catalog machine totalLength).verdict {} := by
  have same : (shape.build catalog machine totalLength).verdict shop =
      (shape.assemble catalog machine totalLength).verdict shop := by
    rw [verdict, verdict, build, bounded_of_room room]
  have sameAfresh : (shape.build catalog machine totalLength).verdict {} =
      (shape.assemble catalog machine totalLength).verdict {} := by
    rw [verdict, verdict, build, bounded_of_room roomAfresh]
  rw [same, sameAfresh]
  rcases resumed.rounded machineWords catalogWords with ⟨sound, rounded⟩
  have runs :=
    runs_resumed machineWords catalogWords words lengthWords sound (rounded builds) builds
  rcases planned : shape.planIn catalog machine { totalLength } 0 shop with
    ⟨draft, later⟩ | ⟨defect, later⟩ <;>
    rcases plannedToo : shape.planIn catalog machine { totalLength } 0 {} with
      ⟨_, last⟩ | ⟨_, last⟩ <;>
    simp only [Runs, planned, plannedToo] at runs
  · rcases exists_assemble machineWords catalogWords words lengthWords sound planned with
      ⟨_, _, isOk, _⟩
    rcases exists_assemble machineWords catalogWords words lengthWords Workshop.sound_empty
      plannedToo with
      ⟨_, _, isOkToo, _⟩
    rw [verdict, verdict, isOk, isOkToo]
  · exact runs.elim
  · rcases (runs trivial).2 with ⟨_, ⟨⟩⟩
  · rcases (runs trivial).2 with ⟨_, ⟨⟩⟩
    rw [verdict, verdict, assemble, bind_of_error planned, bind_of_error plannedToo]

end Abreast

end Afresh

section Sample

open Workshop

theorem Assembly.exists_of_verdict {α : Type} {step : Assembly α}
    (isOk : step.verdict shop = .ok ()) : ∃ value later, step shop = .ok value later := by
  rw [verdict] at isOk
  split at isOk
  · rename_i value later outcome
    exact ⟨value, later, outcome⟩
  · cases isOk

def Catalog.flawed : Catalog :=
  let link : Shape := .struct 8 8 [⟨0, .reference (.named ⟨0⟩) ⟨8, .shared, .static⟩⟩]
  let odd : Shape := .struct 1 3 []
  { entries := [(⟨0⟩, ⟨"Link", link⟩), (⟨1⟩, ⟨"Odd", odd⟩)], next := 2 }

def Shape.toFlawed (id : DefId) : Shape :=
  .reference (.named id) ⟨1, .shared, .static⟩

def Shape.cramped : Shape :=
  .struct 4 1 [⟨0, .toFlawed ⟨0⟩⟩]

/-- Where a definition that builds has got a referent in the course of a failure, a reference to the
other one meets the defect that it meets in a fresh workshop. -/
theorem Shape.verdict_resumed_cramped : let shop := (cramped.build .flawed {} none).left {}
    (cramped.build .flawed {} none).verdict {} = .error (.fieldOverrun 0 8 4) ∧
      shop.Knows ⟨0⟩ ∧
      ((toFlawed ⟨1⟩).build .flawed {} none).verdict shop =
        ((toFlawed ⟨1⟩).build .flawed {} none).verdict {} ∧
      ((toFlawed ⟨1⟩).build .flawed {} none).verdict {} = .error (.badAlignment 3) := by
  intro shop
  have names : shop.referents = [(⟨0⟩, ⟨0⟩)] := by decide +kernel
  have builds (id : DefId) (known : shop.Knows id) : flawed.Builds {} id := by
    rcases known with ⟨layout, found⟩
    rw [names, lookup_cons] at found
    split at found
    · rename_i same
      rw [beq_iff_eq] at same
      subst same
      exact exists_of_verdict (by decide +kernel)
    · cases found
  have resumed : shop.Resumed .flawed {} := .next (.of_fits rfl) fitsWords_noLength (.begun .empty)
  refine ⟨by decide +kernel, ⟨⟨0⟩, by rw [names]; rfl⟩, ?_, by decide +kernel⟩
  exact verdict_resumed fitsWords_machine (.of_fits rfl) (.of_fits rfl)
    fitsWords_noLength resumed builds (by decide +kernel) (by decide +kernel)

/-- A second attempt at what has failed succeeds: the layout left behind is taken for a finished
one. -/
theorem Shape.not_verdict_resumed : let shop := ((toFlawed ⟨1⟩).build .flawed {} none).left {}
    shop.Resumed .flawed {} ∧
      ((toFlawed ⟨1⟩).build .flawed {} none).verdict {} = .error (.badAlignment 3) ∧
      ((toFlawed ⟨1⟩).build .flawed {} none).verdict shop = .ok () :=
  ⟨.next (.of_fits rfl) fitsWords_noLength (.begun .empty), by decide +kernel, by decide +kernel⟩

end Sample

end Recast
