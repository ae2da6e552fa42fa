import Mathlib.Logic.Function.Iterate
import Recast.Proofs.Assembly.Recipe

/-!
# How far assembly goes

A definition is refused in place while it is under way, and a referent that has a layout already is
not assembled again. This is what ends the assembly: in `n` definitions no more than `(n + 1) * (n +
1)` calls are ever within each other, and what would be done beyond does not matter
(`Catalog.iterate_step`). So the numbers of expansions and of referents that the assembly goes by
are never used up (`Catalog.calls_eq_step`).
-/

namespace Recast

open Catalog List Shape

variable {shop later : Workshop} {scope : Scope} {layout : LayoutId}

theorem bind_eq_ok {ε σ α β : Type} {step : EStateM ε σ α} {next : α → EStateM ε σ β}
    {state last : σ} {value : β} : (step >>= next) state = .ok value last ↔
      ∃ first middle, step state = .ok first middle ∧ next first middle = .ok value last := by
  simp only [bind, EStateM.bind]
  cases step state <;> simp

namespace Assembly

variable {α β : Type} {step : Assembly α} {next : α → Assembly β}

theorem bind_of_ok {value : α} (outcome : step shop = .ok value later) :
    (step >>= next) shop = next value later := by
  simp only [Bind.bind, EStateM.bind, outcome]

theorem bind_of_error {defect : Defect} (outcome : step shop = .error defect later) :
    (step >>= next) shop = .error defect later := by
  simp only [Bind.bind, EStateM.bind, outcome]

theorem ofExcept_bind_eq_ok {verdict : Except Defect α} {value : β}
    (isOk : (ofExcept verdict >>= next) shop = .ok value later) :
    ∃ given, verdict = .ok given ∧ next given shop = .ok value later := by
  cases verdict with
  | ok given => exact ⟨given, rfl, isOk⟩
  | error => cases isOk

/-- The workshop that a step leaves, whether it succeeds or not. -/
def left (step : Assembly α) (shop : Workshop) : Workshop :=
  match step shop with
  | .ok _ later | .error _ later => later

theorem left_bounded : step.bounded.left shop = step.left shop := by
  simp only [left, bounded]
  cases step shop with
  | ok _ later => by_cases room : later.arena.inCapacity <;> simp [room]
  | error => rfl

/-- Where there is room, the capacity does not matter. -/
theorem bounded_of_room (room : (step.bounded.left shop).arena.inCapacity) :
    step.bounded shop = step shop := by
  rw [left_bounded] at room
  simp only [left, bounded] at room ⊢
  cases outcome : step shop <;> simp only [outcome] at room <;> simp [room]

theorem bounded_eq_ok {value : α} : step.bounded shop = .ok value later ↔
    step shop = .ok value later ∧ later.arena.inCapacity := by
  simp only [bounded]
  cases step shop with
  | ok found last =>
    by_cases room : last.arena.inCapacity
    · simpa [room] using fun _ same => same ▸ room
    · simpa [room] using fun _ same => same ▸ Bool.eq_false_iff.mpr room
  | error => simp

theorem lookup_bind {id : DefId} {next : Option LayoutId → Assembly α} :
    (referent? id >>= next) shop = next (shop.referents.lookup id) shop :=
  rfl

theorem define_eq_ok {id : LayoutId} {pattern : Pattern}
    (defined : define id pattern shop = .ok () later) :
    shop.arena.define id pattern = .ok later.arena ∧ later.referents = shop.referents := by
  simp only [define] at defined
  split at defined
  · rename_i arena isArena
    cases defined
    exact ⟨isArena, rfl⟩
  · cases defined

end Assembly

namespace Workshop

variable {id other : DefId}

def size (shop : Workshop) : Nat :=
  shop.arena.layouts.size

/-- The name has a layout. -/
def Knows (shop : Workshop) (id : DefId) : Prop :=
  ∃ layout, shop.referents.lookup id = some layout

def reserved (shop : Workshop) : Workshop :=
  { shop with arena := shop.arena.reserve.2 }

def begun (shop : Workshop) (id : DefId) : Workshop :=
  { shop.reserved with referents := (id, ⟨shop.size⟩) :: shop.referents }

theorem lookup_begun :
    (shop.begun id).referents.lookup other =
      if other = id then some ⟨shop.size⟩ else shop.referents.lookup other := by
  simp only [begun, lookup_cons]
  by_cases same : other = id
  · simp [same]
  · have differs : (other == id) = false := by simpa using same
    simp [same, differs]

theorem knows_begun : (shop.begun id).Knows other ↔ other = id ∨ shop.Knows other := by
  simp only [Knows, lookup_begun]
  by_cases same : other = id <;> simp [same]

theorem not_knows_iff : ¬ shop.Knows id ↔ shop.referents.lookup id = none := by
  rw [Knows, ← Option.isSome_iff_exists, Option.not_isSome_iff_eq_none]

/-- A layout has been reserved, for a referent with a name or without. -/
structure Opened (name : Option DefId) (shop later : Workshop) : Prop where
  arena : later.arena = shop.arena.reserve.2
  lookup : ∀ id layout, later.referents.lookup id = some layout ↔
    shop.referents.lookup id = some layout ∨ name = some id ∧ layout = ⟨shop.size⟩

theorem Opened.size {name : Option DefId} (opened : Opened name shop later) :
    later.size = shop.size + 1 := by
  simp [Workshop.size, opened.arena, Arena.reserve]

theorem opened_reserved (shop : Workshop) : Opened none shop shop.reserved :=
  ⟨rfl, by simp [reserved]⟩

theorem opened_begun (unknown : shop.referents.lookup id = none) :
    Opened (some id) shop (shop.begun id) := by
  refine ⟨rfl, fun other _ => ?_⟩
  rw [lookup_begun]
  by_cases same : other = id
  · simp [same, unknown, eq_comm]
  · simp [same, Ne.symm same]

end Workshop

open Assembly

/-- What is done for names: in place, and for referents. -/
@[ext]
structure Calls where
  expand : DefId → Plan
  referent : DefId → Assembly LayoutId

def Calls.failing : Calls where
  expand _ _ _ := throw .tooLarge
  referent _ := throw .tooLarge

namespace Catalog

variable (catalog : Catalog) (machine : Machine)

def step (calls : Calls) : Calls where
  expand id := fun scope offset => do
    let definition ← Assembly.ofExcept (catalog.find id)
    if id ∈ scope.inPlace then
      throw (.infiniteSize definition.name)
    if id ∈ scope.underWay then
      throw (.unnamedRecursion definition.name)
    definition.shape.plan machine calls.expand calls.referent
      { scope with inPlace := id :: scope.inPlace, underWay := id :: scope.underWay } offset
  referent id := do
    match ← Assembly.referent? id with
    | some layout => return layout
    | none =>
      let definition ← Assembly.ofExcept (catalog.find id)
      let layout ← Assembly.reserve
      Assembly.recordReferent id layout
      let draft ← definition.shape.plan machine calls.expand
          calls.referent { inPlace := [id], underWay := [id] } 0
      Assembly.define layout draft.pattern
      return layout

/-- What the assembly does for names, with at most so many referents and expansions within each
other. -/
def callsWithin (referents expansions : Nat) : Calls where
  expand := catalog.expand machine (catalog.referent machine referents) expansions
  referent := catalog.referent machine referents

def calls : Calls :=
  catalog.callsWithin machine catalog.size catalog.size

def idle (underWay : List DefId) : Nat :=
  catalog.entries.countP fun entry => entry.1 ∉ underWay

def unknown (shop : Workshop) : Nat :=
  catalog.entries.countP fun entry => (shop.referents.lookup entry.1).isNone

end Catalog

def Shape.assembleBy (shape : Shape) (machine : Machine) (calls : Calls)
    (totalLength : Option Nat) : Assembly LayoutId := do
  let draft ← shape.plan machine calls.expand calls.referent { totalLength } 0
  let id ← reserve
  define id draft.pattern
  return id

def Shape.referent (machine : Machine) (expand : DefId → Plan)
    (referentOf : DefId → Assembly LayoutId) : Shape → Scope → Assembly LayoutId
  | .named id, _ => referentOf id
  | shape, scope => Plan.anonymousReferent (shape.plan machine expand referentOf) scope

/-- How wide references are to referents of a fixed size, and to those that differ in length. -/
def Machine.referenceWidth (machine : Machine) : (size : Option Nat) → Nat
  | some _ => machine.pointerSize
  | none => Extent.satMul machine.pointerSize 2

def Plan.fill (plan : Plan) (scope : Scope) (layout : LayoutId) : Assembly LayoutId := do
  let draft ← plan scope 0
  define layout draft.pattern
  return layout

section Outcomes

variable {machine : Machine} {plan : Plan} {id : LayoutId}

theorem Plan.reference_eq_ok {guarantee : Guarantee} {referent : Assembly LayoutId} {draft : Draft}
    (isOk : reference machine guarantee referent shop = .ok draft later) :
    ∃ layout, referent shop = .ok layout later ∧
      draft.pattern = .leaf (.reference { guarantee with
        referent := layout
        width := machine.referenceWidth (later.arena.layout layout).size }) := by
  rcases ofExcept_bind_eq_ok isOk with ⟨_, _, onward⟩
  rcases bind_eq_ok.mp onward with ⟨layout, _, isLayout, ⟨⟩⟩
  exact ⟨layout, isLayout, rfl⟩

theorem Plan.anonymousReferent_eq (plan : Plan) (scope : Scope) (shop : Workshop) :
    anonymousReferent plan scope shop =
      plan.fill { scope with inPlace := [], totalLength := none } ⟨shop.size⟩ shop.reserved :=
  rfl

theorem Plan.fill_eq_ok (isOk : plan.fill scope layout shop = .ok id later) :
    id = layout ∧ ∃ draft middle, plan scope 0 shop = .ok draft middle ∧
      define layout draft.pattern middle = .ok () later := by
  rcases bind_eq_ok.mp isOk with ⟨draft, middle, isDraft, onward⟩
  rcases bind_eq_ok.mp onward with ⟨_, _, defined, ⟨⟩⟩
  exact ⟨rfl, draft, middle, isDraft, defined⟩

end Outcomes

namespace Shape

variable {machine : Machine} {expand : DefId → Plan} {referentOf : DefId → Assembly LayoutId}

theorem plan_reference_eq (referent : Shape) (guarantee : Guarantee) :
    (reference referent guarantee).plan machine expand referentOf = fun scope _ =>
      Plan.reference machine guarantee (referent.referent machine expand referentOf scope) := by
  cases referent <;> rfl

theorem referent_of_not_named {shape : Shape} (notNamed : ¬ ∃ id, shape = .named id)
    (scope : Scope) :
    shape.referent machine expand referentOf scope =
      Plan.anonymousReferent (shape.plan machine expand referentOf) scope := by
  cases shape with
  | named id => exact absurd ⟨id, rfl⟩ notNamed
  | _ => rfl

theorem assemble_eq_ok {shape : Shape} {catalog : Catalog} {totalLength : Option Nat}
    {id : LayoutId} (assembled : shape.assemble catalog machine totalLength shop = .ok id later) :
    ∃ draft planned, shape.planIn catalog machine { totalLength } 0 shop = .ok draft planned ∧
      id = ⟨planned.size⟩ ∧ planned.arena.reserve.2.define id draft.pattern = .ok later.arena := by
  rcases bind_eq_ok.mp assembled with ⟨draft, planned, isDraft, onward⟩
  rcases bind_eq_ok.mp onward with ⟨_, _, ⟨⟩, onwardThen⟩
  rcases bind_eq_ok.mp onwardThen with ⟨_, _, defined, ⟨⟩⟩
  exact ⟨draft, planned, isDraft, rfl, (define_eq_ok defined).1⟩

end Shape

namespace Catalog

variable {catalog : Catalog} {machine : Machine} {id : DefId} {definition : Definition}
  {calls : Calls} {underWay : List DefId}

theorem find_eq_ok (found : catalog.find id = .ok definition) :
    catalog.get? id = some definition := by
  simp only [find] at found
  split at found
  · rename_i known isKnown
    rw [isKnown, Except.ok.inj found]
  · simp at found

theorem step_of_known (known : shop.referents.lookup id = some layout) :
    (catalog.step machine calls).referent id shop = .ok layout shop := by
  simp only [step]
  rw [lookup_bind, known]
  rfl

theorem step_of_undefined (unknown : shop.referents.lookup id = none)
    (undefined : catalog.get? id = none) :
    (catalog.step machine calls).referent id shop = .error (.unknownDefinition id) shop := by
  simp only [step]
  rw [lookup_bind, unknown]
  simp only [find, undefined]
  rfl

theorem step_of_found (unknown : shop.referents.lookup id = none)
    (found : catalog.get? id = some definition) :
    (catalog.step machine calls).referent id shop =
      (definition.shape.plan machine calls.expand calls.referent).fill
        { inPlace := [id], underWay := [id] } ⟨shop.size⟩ (shop.begun id) := by
  simp only [step]
  rw [lookup_bind, unknown]
  simp only [find, found]
  rfl

theorem step_expand_eq_ok {offset : Nat} {draft : Draft}
    (isOk : (catalog.step machine calls).expand id scope offset shop = .ok draft later) :
    ∃ definition, catalog.get? id = some definition ∧ id ∉ scope.underWay ∧
      definition.shape.plan machine calls.expand calls.referent
        { scope with inPlace := id :: scope.inPlace, underWay := id :: scope.underWay } offset
          shop = .ok draft later := by
  rcases ofExcept_bind_eq_ok isOk with ⟨definition, isDefinition, onward⟩
  dsimp only at onward
  split at onward
  · cases onward
  split at onward
  · cases onward
  · rename_i isIdle
    exact ⟨definition, find_eq_ok isDefinition, isIdle, onward⟩

theorem step_referent_eq_ok
    (isOk : (catalog.step machine calls).referent id shop = .ok layout later) :
    shop.referents.lookup id = some layout ∧ later = shop ∨
      shop.referents.lookup id = none ∧ ∃ definition, catalog.get? id = some definition ∧
        (definition.shape.plan machine calls.expand calls.referent).fill
          { inPlace := [id], underWay := [id] } ⟨shop.size⟩ (shop.begun id) = .ok layout later := by
  rcases known : shop.referents.lookup id with _ | _
  · rcases found : catalog.get? id with _ | definition
    · rw [step_of_undefined known found] at isOk
      cases isOk
    · rw [step_of_found known found] at isOk
      exact .inr ⟨rfl, definition, rfl, isOk⟩
  · rw [step_of_known known] at isOk
    cases isOk
    exact .inl ⟨rfl, rfl⟩

theorem referent_succ {left : Nat} : catalog.referent machine (left + 1) =
    (catalog.step machine (catalog.callsWithin machine left catalog.size)).referent := by
  funext id
  rw [referent]
  rfl

theorem idle_le_size : catalog.idle underWay ≤ catalog.size := countP_le_length

theorem unknown_le_size : catalog.unknown shop ≤ catalog.size := countP_le_length

theorem countP_lt (test fewer : DefId → Bool) (found : catalog.get? id = some definition)
    (imp : ∀ other, fewer other → test other) (held : test id) (dropped : fewer id = false) :
    catalog.entries.countP (fun entry => fewer entry.1) < catalog.entries.countP fun entry =>
      test entry.1 := by
  have few (entries : List (DefId × Definition)) :
      entries.countP (fun entry => fewer entry.1) ≤ entries.countP fun entry => test entry.1 :=
    countP_mono_left fun entry _ => imp entry.1
  rcases lookup_eq_some_iff.mp found with ⟨before, after, isEntries, _⟩
  have front := few before
  have back := few after
  simp only [isEntries, countP_append, countP_cons, held, dropped, if_true, Bool.false_eq_true,
    if_false]
  omega

theorem idle_cons_lt (found : catalog.get? id = some definition) (isIdle : id ∉ underWay) :
    catalog.idle (id :: underWay) < catalog.idle underWay :=
  countP_lt (fun other => decide (other ∉ underWay)) (fun other => decide (other ∉ id :: underWay))
    found (by simp) (by simpa using isIdle) (by simp)

theorem unknown_mono (kept : ∀ other, shop.Knows other → later.Knows other) :
    catalog.unknown later ≤ catalog.unknown shop := by
  refine countP_mono_left fun _ _ isUnknown => ?_
  rw [Option.isNone_iff_eq_none, ← Workshop.not_knows_iff] at isUnknown ⊢
  exact fun known => isUnknown (kept _ known)

theorem unknown_begun_lt (unknown : shop.referents.lookup id = none)
    (found : catalog.get? id = some definition) :
    catalog.unknown (shop.begun id) < catalog.unknown shop := by
  refine countP_lt (fun other => (shop.referents.lookup other).isNone)
    (fun other => ((shop.begun id).referents.lookup other).isNone) found ?_ ?_ ?_
  · intro _ isUnknown
    rw [Workshop.lookup_begun] at isUnknown
    split at isUnknown
    · simp at isUnknown
    · exact isUnknown
  · simp [unknown]
  · simp [Workshop.lookup_begun]

section Same

variable {α β : Type} {few : Nat} {step image : Assembly α}

/-- Both do the same, and leave no more than the given number of definitions without a referent. -/
def Same (catalog : Catalog) (few : Nat) (step image : Assembly α) (shop : Workshop) : Prop :=
  step shop = image shop ∧ ∀ value later, step shop = .ok value later → catalog.unknown later ≤ few

theorem Same.bind {next nextToo : α → Assembly β} (same : catalog.Same few step image shop)
    (onward : ∀ value later, catalog.unknown later ≤ few →
      catalog.Same few (next value) (nextToo value) later) :
    catalog.Same few (step >>= next) (image >>= nextToo) shop := by
  rcases outcome : step shop with ⟨value, later⟩ | ⟨_, later⟩
  · rw [Same, bind_of_ok outcome, bind_of_ok (same.1 ▸ outcome)]
    exact onward value later (same.2 value later outcome)
  · rw [Same, bind_of_error outcome, bind_of_error (same.1 ▸ outcome)]
    exact ⟨rfl, nofun⟩

theorem same_self (fewNow : catalog.unknown shop ≤ few)
    (kept : ∀ value later, step shop = .ok value later → later.referents = shop.referents) :
    catalog.Same few step step shop := by
  refine ⟨rfl, fun value later outcome => ?_⟩
  rwa [unknown, kept value later outcome]

theorem same_ofExcept {verdict : Except Defect α} (fewNow : catalog.unknown shop ≤ few) :
    catalog.Same few (Assembly.ofExcept verdict) (Assembly.ofExcept verdict) shop := by
  refine same_self fewNow fun _ _ outcome => ?_
  cases verdict with
  | ok =>
    cases outcome
    rfl
  | error => cases outcome

theorem same_fill {plan planToo : Plan}
    (same : catalog.Same few (plan scope 0) (planToo scope 0) shop) :
    catalog.Same few (plan.fill scope layout) (planToo.fill scope layout) shop := by
  refine same.bind fun _ _ fewThen => Same.bind ?_ fun _ _ fewLater =>
    same_self fewLater (by rintro _ _ ⟨⟩; rfl)
  exact same_self fewThen fun ⟨⟩ _ defined => (define_eq_ok defined).2

end Same

section Plans

variable {unknown idle referents expansions : Nat} {other : Calls}

/-- Both do the same for names while no more than the given number of definitions are without a
referent, and no more than the given number are not under way. -/
structure Alike (catalog : Catalog) (unknown idle : Nat) (calls other : Calls) : Prop where
  expand : ∀ id scope offset shop, catalog.idle scope.underWay ≤ idle →
    catalog.unknown shop ≤ unknown → catalog.Same unknown (calls.expand id scope offset)
      (other.expand id scope offset) shop
  referent : ∀ id shop, catalog.unknown shop ≤ unknown →
    catalog.Same unknown (calls.referent id) (other.referent id) shop

theorem same_run {α : Type} {recipe : Recipe α} {planOf planToo : Shape → Plan}
    (all : recipe.All fun part => ∀ offset shop, catalog.unknown shop ≤ unknown →
      catalog.Same unknown (planOf part scope offset) (planToo part scope offset) shop)
    (few : catalog.unknown shop ≤ unknown) :
    catalog.Same unknown (recipe.run planOf scope) (recipe.run planToo scope) shop := by
  induction recipe generalizing shop with
  | done => exact same_ofExcept few
  | draw _ offset _ ih =>
    exact (all.1 offset shop few).bind fun draft _ fewThen => ih draft (all.2 draft) fewThen

theorem Alike.plan (machine : Machine) (alike : catalog.Alike unknown idle calls other)
    (shape : Shape) (scope : Scope) (offset : Nat) (shop : Workshop)
    (fewScope : catalog.idle scope.underWay ≤ idle) (few : catalog.unknown shop ≤ unknown) :
    catalog.Same unknown (shape.plan machine calls.expand calls.referent scope offset)
      (shape.plan machine other.expand other.referent scope offset) shop := by
  induction shape using recipe_induction generalizing scope offset shop with
  | direct _ inside each =>
    rw [plan_eq_run, plan_eq_run]
    exact same_run (all_recipe inside fun part member offset shop few =>
      each part member scope offset shop fewScope few) few
  | reference referent _ ih =>
    simp only [plan_reference_eq, Plan.reference]
    refine (same_ofExcept few).bind fun _ middle fewThen => Same.bind ?_ fun id _ fewLater =>
      same_self fewLater (by rintro _ _ ⟨⟩; rfl)
    by_cases isNamed : ∃ id, referent = .named id
    · rcases isNamed with ⟨id, rfl⟩
      exact alike.referent id middle fewThen
    · rw [referent_of_not_named isNamed, referent_of_not_named isNamed]
      rw [Same, Plan.anonymousReferent_eq, Plan.anonymousReferent_eq]
      exact same_fill (ih { underWay := scope.underWay } 0 middle.reserved fewScope fewThen)
  | named id => exact alike.expand id scope offset shop fewScope few

theorem same_expand (few : idle ≤ expansions) (inner : 0 < idle →
      catalog.Alike unknown (idle - 1) (catalog.callsWithin machine referents (expansions - 1))
        calls)
    (id : DefId) (scope : Scope) (offset : Nat) (shop : Workshop)
    (fewScope : catalog.idle scope.underWay ≤ idle) (fewNow : catalog.unknown shop ≤ unknown) :
    catalog.Same unknown ((catalog.callsWithin machine referents expansions).expand id scope offset)
      ((catalog.step machine calls).expand id scope offset) shop := by
  simp only [callsWithin]
  rw [expand]
  simp only [step]
  rcases found : catalog.find id with defect | definition
  · exact ⟨rfl, nofun⟩
  by_cases isInPlace : id ∈ scope.inPlace
  · simp only [if_pos isInPlace]
    exact ⟨rfl, nofun⟩
  by_cases isUnderWay : id ∈ scope.underWay
  · simp only [if_neg isInPlace, if_pos isUnderWay]
    cases expansions <;> exact ⟨rfl, nofun⟩
  · simp only [if_neg isInPlace, if_neg isUnderWay]
    have fewer := idle_cons_lt (find_eq_ok found) isUnderWay
    cases expansions with
    | zero => omega
    | succ left =>
      refine (inner (by omega)).plan machine definition.shape _ offset shop ?_ fewNow
      exact Nat.le_sub_one_of_lt (lt_of_lt_of_le fewer fewScope)

theorem same_referent (few : unknown ≤ referents) (inner : 0 < unknown →
      catalog.Alike (unknown - 1) catalog.size
        (catalog.callsWithin machine (referents - 1) catalog.size) calls)
    (id : DefId) (shop : Workshop) (fewNow : catalog.unknown shop ≤ unknown) :
    catalog.Same unknown (catalog.referent machine referents id)
      ((catalog.step machine calls).referent id)
      shop := by
  rcases known : shop.referents.lookup id with _ | layout
  · rcases found : catalog.get? id with _ | definition
    · rw [Same, step_of_undefined known found, referent, lookup_bind, known]
      simp only [find, found]
      exact ⟨rfl, nofun⟩
    · have fewer := unknown_begun_lt known found
      cases referents with
      | zero => omega
      | succ left =>
        have plans :=
          (inner (by omega)).plan machine definition.shape { inPlace := [id], underWay := [id] } 0
            (shop.begun id) idle_le_size (by omega)
        rw [Same, referent_succ, step_of_found known found, step_of_found known found]
        refine And.imp_right (fun kept value later outcome => ?_) (same_fill plans)
        exact Nat.le_trans (kept value later outcome) (Nat.sub_le _ 1)
  · rw [Same, step_of_known known, referent, lookup_bind, known]
    refine ⟨rfl, ?_⟩
    rintro _ _ ⟨⟩
    exact fewNow

end Plans

/-- As many rounds as there are definitions without a referent, each with as many expansions as
there are definitions, lead to an end, whatever would come after them. -/
theorem alike_iterate (beyond : Calls) (depth unknown idle referents expansions : Nat)
    (fewUnknown : unknown ≤ referents) (fewIdle : idle ≤ expansions)
    (deep : unknown * (catalog.size + 1) + idle < depth) :
    catalog.Alike unknown idle (catalog.callsWithin machine referents expansions)
      ((catalog.step machine)^[depth] beyond) := by
  induction depth generalizing unknown idle referents expansions with
  | zero => omega
  | succ depth ih =>
    rw [Function.iterate_succ_apply']
    constructor
    · exact same_expand fewIdle fun some =>
        ih unknown (idle - 1) referents (expansions - 1) fewUnknown (by omega) (by omega)
    · refine same_referent fewUnknown fun some => ?_
      have rounds : (unknown - 1) * (catalog.size + 1) + (catalog.size + 1) =
          unknown * (catalog.size + 1) := by
        rw [← Nat.succ_mul, Nat.succ_eq_add_one, Nat.sub_add_cancel some]
      exact ih (unknown - 1) catalog.size (referents - 1) catalog.size (by omega) le_rfl (by omega)

/-- The assembly does for names what is done in enough rounds, whatever would come after them. -/
theorem iterate_step (catalog : Catalog) (machine : Machine) (beyond : Calls) {depth : Nat}
    (deep : (catalog.size + 1) * (catalog.size + 1) ≤ depth) :
    (catalog.step machine)^[depth] beyond = catalog.calls machine := by
  have enough : catalog.size * (catalog.size + 1) + catalog.size < depth := by
    calc
      catalog.size * (catalog.size + 1) + catalog.size <
          (catalog.size + 1) * (catalog.size + 1) := by
        rw [Nat.succ_mul]
        omega
      _ ≤ depth := deep
  have alike : catalog.Alike catalog.size catalog.size (catalog.calls machine) _ :=
    alike_iterate beyond depth catalog.size catalog.size _ _ le_rfl le_rfl enough
  refine (Calls.ext (funext fun id => ?_) (funext fun id => ?_)).symm
  · funext scope offset shop
    exact (alike.expand id scope offset shop idle_le_size unknown_le_size).1
  · funext shop
    exact (alike.referent id shop unknown_le_size).1

theorem calls_induction (catalog : Catalog) (machine : Machine) {holds : Calls → Prop}
    (start : holds .failing) (step : ∀ calls, holds calls → holds (catalog.step machine calls)) :
    holds (catalog.calls machine) := by
  rw [← catalog.iterate_step machine .failing le_rfl]
  exact Function.Iterate.rec holds start step _

/-- What the assembly does for names, it does in terms of itself. -/
theorem calls_eq_step (catalog : Catalog) (machine : Machine) :
    catalog.calls machine = catalog.step machine (catalog.calls machine) := by
  have enough := catalog.iterate_step machine (catalog.calls machine) le_rfl
  have more := catalog.iterate_step machine (catalog.calls machine) (Nat.le_succ _)
  rw [Nat.succ_eq_add_one, Function.iterate_succ_apply', enough] at more
  exact more.symm

theorem referent_eq_step (catalog : Catalog) (machine : Machine) :
    catalog.referent machine catalog.size =
      (catalog.step machine (catalog.calls machine)).referent := by
  rw [← calls_eq_step]
  rfl

end Catalog

theorem Shape.assembleBy_calls (shape : Shape) (catalog : Catalog) (machine : Machine)
    (totalLength : Option Nat) :
    shape.assembleBy machine (catalog.calls machine) totalLength =
      shape.assemble catalog machine totalLength :=
  rfl

end Recast
