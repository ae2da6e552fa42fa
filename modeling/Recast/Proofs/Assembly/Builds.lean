import Recast.Proofs.Assembly.Tandem

/-!
# Definitions that build

A definition that builds in a fresh workshop can be assembled in other workshops too, unless that
comes upon a definition that does not build (`Catalog.follows_referent`): there the references in it
are no wider, since a layout under assembly counts as one of a fixed size.
-/

namespace Recast

open Assembly Catalog Workshop Bond

variable {shop later : Workshop} {id : DefId}

namespace Workshop

theorem Extends.knows (grows : shop.Extends shop.size later) (sound : shop.Sound False)
    (known : shop.Knows id) : later.Knows id :=
  known.imp fun layout found => (grows.named id layout (sound.referents id layout found)).mpr found

/-- The definition has a layout without bytes, as it does while it is under assembly. -/
def Waits (shop : Workshop) (id : DefId) : Prop :=
  ∃ layout, shop.referents.lookup id = some layout ∧ (shop.arena.layout layout).size = some 0

theorem Waits.of_agrees (waits : shop.Waits id) (agrees : shop.Agrees later) : later.Waits id := by
  rcases waits with ⟨layout, found, size⟩
  exact ⟨layout, by rw [agrees.names, found], by rw [agrees.same id layout found, size]⟩

theorem Waits.extend (waits : shop.Waits id) (sound : shop.Sound False)
    (grows : shop.Extends shop.size later) : later.Waits id := by
  rcases waits with ⟨layout, found, size⟩
  have inside := sound.referents id layout found
  exact ⟨layout, (grows.named id layout inside).mpr found, by rw [grows.same layout inside, size]⟩

theorem waits_begun (sound : shop.Sound False) (unknown : shop.referents.lookup id = none) :
    (shop.begun id).Waits id :=
  ⟨_, by rw [lookup_begun, if_pos rfl], (sound.opened (opened_begun unknown)).2.1.blank⟩

/-- What becomes of a workshop in which a referent is found, be it that it was known. -/
structure Finds (catalog : Catalog) (machine : Machine) (names : DefId → Prop) (underway : Underway)
    (id : DefId) (layout : LayoutId) (shop later : Workshop) : Prop where
  grows : shop.Extends shop.size later
  sound : later.Sound False
  tells : later.Tells catalog machine underway
  passes : shop.Passes catalog names later
  lookup : later.referents.lookup id = some layout

end Workshop

section Referents

variable {catalog : Catalog} {machine : Machine} {underway : Underway} {name : DefId}
  {layout : LayoutId} {definition : Definition} {names : DefId → Prop}

/-- The definition can be assembled as a referent in a fresh workshop. -/
def Catalog.Builds (catalog : Catalog) (machine : Machine) (id : DefId) : Prop :=
  ∃ layout later, catalog.referent machine catalog.size id {} = .ok layout later

theorem Catalog.referent_of_known (known : shop.referents.lookup id = some layout) :
    catalog.referent machine catalog.size id shop = .ok layout shop := by
  rw [catalog.referent_eq_step]
  exact step_of_known known

theorem Catalog.referent_of_undefined (unknown : shop.referents.lookup id = none)
    (undefined : catalog.get? id = none) :
    catalog.referent machine catalog.size id shop = .error (.unknownDefinition id) shop := by
  rw [catalog.referent_eq_step]
  exact step_of_undefined unknown undefined

theorem Catalog.referent_of_found (unknown : shop.referents.lookup id = none)
    (found : catalog.get? id = some definition) :
    catalog.referent machine catalog.size id shop = (definition.shape.planIn catalog machine).fill
      { inPlace := [id], underWay := [id] } ⟨shop.size⟩ (shop.begun id) := by
  rw [catalog.referent_eq_step]
  exact step_of_found unknown found

theorem Catalog.Builds.defined (builds : catalog.Builds machine id) :
    ∃ definition, catalog.get? id = some definition := by
  rcases builds with ⟨_, _, isOk⟩
  rw [catalog.referent_eq_step] at isOk
  rcases step_referent_eq_ok isOk with ⟨⟨⟩, _⟩ | ⟨_, definition, found, _⟩
  exact ⟨definition, found⟩

/-- How a workshop trails a fresh one while both assemble the body of a definition. -/
structure Workshop.Trails (catalog : Catalog) (machine : Machine) (id : DefId) (underway : Underway)
    (few : Nat) (first second : Workshop) : Prop where
  tells : first.Tells catalog machine [(some id, ⟨({} : Workshop).size⟩)]
  defined : ∀ other, first.Knows other → ∃ definition, catalog.get? other = some definition
  tellsToo : second.Tells catalog machine underway
  waits : second.Waits id
  few : catalog.unknown second < few

/-- Wherever a fresh run succeeds, a later one does so too, unless a referent is at fault. -/
def Bond.asFresh (catalog : Catalog) (machine : Machine) (id : DefId) (underway : Underway)
    (few : Nat) (slack : Workshop → Prop) : Bond where
  strict := False
  link := Trails catalog machine id underway few
  slack := slack
  ruin _ := True
  not_slack := False.elim
  ruin_of_link _ := trivial
  link_of_agrees trails agrees agreesToo := {
    tells := trails.tells.of_agrees agrees
    defined := fun other known => trails.defined other (agrees.knows.mp known)
    tellsToo := trails.tellsToo.of_agrees agreesToo
    waits := trails.waits.of_agrees agreesToo
    few := Nat.lt_of_le_of_lt (catalog.unknown_mono fun _ => agreesToo.knows.mpr) trails.few }

variable (machineWords : machine.FitsWords) (catalogWords : catalog.FitsWords)

include machineWords catalogWords

section

variable (closes : catalog.Closes names)
include closes

theorem Catalog.finds_referent (isName : names id) (sound : shop.Sound False)
    (tells : shop.Tells catalog machine underway)
    (isOk : catalog.referent machine catalog.size id shop = .ok layout later) :
    shop.Finds catalog machine names underway id layout later := by
  have draws := draws_calls (Draft.passes_measures machineWords) machineWords catalogWords
  rcases ((draws.referent id).tells underway shop sound tells).ok isOk with
    ⟨grows, laterSound, laterTells, _⟩
  rcases (passing_calls closes).referent _ _ _ _ isName isOk with ⟨passes, lookup⟩
  exact ⟨grows, laterSound, laterTells, passes, lookup⟩

theorem Catalog.pairsReferents_asFresh {few : Nat} {slack : Workshop → Prop} (isName : names name)
    (follows : ∀ definition second, catalog.get? name = some definition → second.Sound False →
      second.Tells catalog machine underway → catalog.unknown second < few →
      (∃ layout later, catalog.referent machine catalog.size name second = .ok layout later) ∨
        ∃ defect later, catalog.referent machine catalog.size name second = .error defect later ∧
          slack later) :
    (asFresh catalog machine id underway few slack).PairsReferents
      (catalog.referent machine catalog.size name) := by
  rintro first second ⟨sound, soundToo, trails⟩
  rcases isOk : catalog.referent machine catalog.size name first with
    ⟨recorded, after⟩ | ⟨defect, after⟩
  · have finds := finds_referent machineWords catalogWords closes isName sound trails.tells isOk
    have defined (other : DefId) (known : after.Knows other) :
        ∃ definition, catalog.get? other = some definition := by
      rcases finds.passes.assembled other known with old | ⟨_, definition, found, _⟩
      · exact trails.defined other old
      · exact ⟨definition, found⟩
    rcases defined name ⟨_, finds.lookup⟩ with ⟨definition, found⟩
    rcases follows definition second found soundToo trails.tellsToo trails.few with
      ⟨layout, last, isOkToo⟩ | ⟨defect, last, failed, isSlack⟩
    · have findsToo :=
        finds_referent machineWords catalogWords closes isName soundToo trails.tellsToo isOkToo
      have waits := trails.waits.extend soundToo findsToo.grows
      have few :=
        Nat.lt_of_le_of_lt (catalog.unknown_mono fun _ => findsToo.grows.knows soundToo) trails.few
      refine runs_of_ok isOk isOkToo ⟨finds.sound, findsToo.sound,
        ⟨finds.tells, defined, findsToo.tells, waits, few⟩⟩ ⟨fun unsized => ?_, False.elim⟩
      -- The definition itself is under assembly in both runs; the others are not in the fresh one.
      have notOwn : name ≠ id := by
        rintro rfl
        rcases waits with ⟨own, isOwn, size⟩
        rw [findsToo.lookup, Option.some.injEq] at isOwn
        rw [isOwn, size] at unsized
        cases unsized
      exact finds.tells.sized name recorded finds.lookup (by simp [notOwn])
        (findsToo.tells.unsized name layout findsToo.lookup unsized)
    · simp only [Runs, isOk, failed]
      exact isSlack
  · simp only [Runs, isOk]
    exact False.elim

/-- If the assembly of a referent fails, it has come upon a definition that does not build. -/
theorem Catalog.follows_referent (isName : names id) (found : catalog.get? id = some definition)
    (sound : shop.Sound False) (tells : shop.Tells catalog machine underway) :
    (∃ layout later, catalog.referent machine catalog.size id shop = .ok layout later) ∨
      ∃ defect later, catalog.referent machine catalog.size id shop = .error defect later ∧
        ∃ other, later.Knows other ∧ names other ∧ ¬ catalog.Builds machine other := by
  induction isFew : catalog.unknown shop using Nat.strong_induction_on
    generalizing id definition shop underway with
  | _ few fewer =>
  rcases unknown : shop.referents.lookup id with _ | layout
  · have opened := opened_begun unknown
    rcases sound.opened opened with ⟨begunSound, blank, _⟩
    have isStep : catalog.referent machine _ id shop = _ := referent_of_found unknown found
    have scopeWords : Scope.FitsWords { inPlace := [id], underWay := [id] } := by
      simp [Scope.FitsWords]
    have words := catalogWords id definition found
    have isSound := Shape.sound_planIn machineWords catalogWords words False.elim
    rcases planned : definition.shape.planIn catalog machine { inPlace := [id], underWay := [id] } 0
        (shop.begun id) with ⟨draft, last⟩ | ⟨defect, last⟩
    · rcases isSound.exists_fill scopeWords begunSound blank planned with ⟨final, isOk, _⟩
      exact .inl ⟨_, final, isStep.trans isOk⟩
    refine .inr ⟨defect, last, isStep.trans (bind_of_error planned), ?_⟩
    by_cases builds : catalog.Builds machine id
    · rcases builds with ⟨_, stop, isStop⟩
      rw [referent_of_found rfl found] at isStop
      rcases Plan.fill_eq_ok isStop with ⟨_, sample, final, sampled, _⟩
      have freshSound : Sound False {} := sound_empty
      have openedFresh : Opened (some id) {} (begun {} id) := opened_begun rfl
      have freshTells : Tells catalog machine [] {} := by constructor <;> simp
      let begunUnderway : Underway := (some id, ⟨shop.size⟩) :: underway
      have trails : Trails catalog machine id begunUnderway few (begun {} id) (shop.begun id) := {
        tells := freshTells.opened freshSound openedFresh
        defined := by
          intro other known
          rcases knows_begun.mp known with rfl | ⟨_, ⟨⟩⟩
          exact ⟨definition, found⟩
        tellsToo := tells.opened sound opened
        waits := waits_begun sound unknown
        few := isFew ▸ unknown_begun_lt unknown found }
      let fault (later : Workshop) : Prop :=
        ∃ other, later.Knows other ∧ names other ∧ ¬ catalog.Builds machine other
      have pairs : (asFresh catalog machine id begunUnderway few fault).Pairs _ _ :=
        Shape.pairs_planIn machineWords catalogWords words scopeWords (.inl rfl) fun name asks =>
          have isNameToo := closes id definition isName found name asks
          pairsReferents_asFresh machineWords catalogWords closes isNameToo
            fun _ second foundToo secondSound secondTells less =>
            fewer _ less isNameToo foundToo secondSound secondTells rfl
      have runs :=
        pairs 0 0 (fun _ => rfl) _ _ ⟨(freshSound.opened openedFresh).1, begunSound, trails⟩
      simp only [Runs, sampled, planned] at runs
      exact runs
    · have grows := ((isSound _ 0 _ scopeWords begunSound).error planned).1
      exact ⟨id, grows.knows begunSound (knows_begun.mpr (.inl rfl)), isName, builds⟩
  · exact .inl ⟨layout, shop, referent_of_known unknown⟩

theorem Catalog.exists_referent_of_builds (builds : ∀ id, names id → catalog.Builds machine id)
    (isName : names id) (sound : shop.Sound False) (tells : shop.Tells catalog machine underway) :
    ∃ layout later, catalog.referent machine catalog.size id shop = .ok layout later := by
  rcases (builds id isName).defined with ⟨_, found⟩
  rcases follows_referent machineWords catalogWords closes isName found sound tells with
    isOk | ⟨_, _, _, other, _, isOther, fails⟩
  · exact isOk
  · exact absurd (builds other isOther) fails

end

end Referents

end Recast
