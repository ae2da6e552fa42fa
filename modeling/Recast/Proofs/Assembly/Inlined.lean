import Recast.Proofs.Assembly.Coupled
import Recast.Proofs.Assembly.Inline
import Recast.Proofs.Inclusion.Twins

/-!
# Assembly with definitions in place of names

In place, a name and its definition differ only in what is noted as under way. A named referent has
one layout, where each mention of its definition makes another one. All these are twins of the one
layout (`Arena.Twins`), which is remembered as one whose twin can be made at any time
(`Catalog.Remembers`).
-/

namespace Recast

open Assembly Catalog Workshop Arena Relation

variable {shop later other started : Workshop} {hidden hiddenToo : LayoutId → Prop}
  {layout : LayoutId} {pattern : Pattern} {name : Option DefId} {busy live : DefId → Prop}
  {id : DefId} {arena : Arena} {scopeToo : Scope}

namespace Workshop

/-- References in the arena can be followed, and what is hidden is there. -/
structure Tidy (hidden : LayoutId → Prop) (shop : Workshop) : Prop where
  indexed : shop.arena.WellIndexed
  old : ∀ layout, hidden layout → layout.index < shop.size

structure Nameless (hidden : LayoutId → Prop) (shop : Workshop) : Prop extends Tidy hidden shop
    where
  names : shop.referents = []

structure Retains (shop later : Workshop) : Prop where
  arena : shop.arena.Retains later.arena (fun _ => False) fun _ => False
  named : ∀ id layout, shop.referents.lookup id = some layout →
    later.referents.lookup id = some layout

variable {last : Workshop}

theorem Retains.refl (shop : Workshop) : shop.Retains shop :=
  ⟨.refl _ _, fun _ _ known => known⟩

theorem Retains.trans (retains : shop.Retains later) (retainsThen : later.Retains last) :
    shop.Retains last :=
  ⟨retains.arena.trans retainsThen.arena, fun id layout known =>
    retainsThen.named id layout (retains.named id layout known)⟩

theorem Tidy.opened (tidy : shop.Tidy hidden) (opened : Opened name shop later) :
    later.Tidy (veil ⟨shop.size⟩ hidden) := by
  refine ⟨opened.arena ▸ tidy.indexed.reserve, ?_⟩
  rintro layout (isHidden | rfl) <;> rw [opened.size]
  · exact Nat.lt_succ_of_lt (tidy.old layout isHidden)
  · exact Nat.lt_succ_self _

theorem Nameless.reserved (nameless : shop.Nameless hidden) :
    shop.reserved.Nameless (veil ⟨shop.size⟩ hidden) :=
  ⟨nameless.toTidy.opened shop.opened_reserved, nameless.names⟩

theorem Opened.retains_define {made : Workshop} (opened : Opened name shop started)
    (retains : started.Retains made) (defined : made.arena.define ⟨shop.size⟩ pattern = .ok arena) :
    shop.Retains { made with arena } := by
  refine ⟨?_, fun id layout known => retains.named id layout
    ((opened.lookup id layout).mpr (.inl known))⟩
  have reserves : shop.arena.Retains started.arena (fun _ => False)
      (veil ⟨shop.size⟩ fun _ => False) :=
    opened.arena ▸ .reserve _ _
  exact (reserves.trans (retains.arena.hide _)).trans (.define _ defined)

theorem Tidy.define {made : Workshop} (tidy : shop.Tidy hidden) (opened : Opened name shop started)
    (retains : started.Retains made) (defined : made.arena.define ⟨shop.size⟩ pattern = .ok arena)
    (indexed : arena.WellIndexed) :
    Tidy hidden { made with arena } :=
  ⟨indexed, fun layout isHidden =>
    Nat.lt_of_lt_of_le (tidy.old layout isHidden)
      (opened.retains_define retains defined).arena.layouts_le⟩

end Workshop

namespace Catalog

variable (catalog : Catalog) (machine : Machine) (calls : Calls)

/-- What stands for the name makes a twin of the layout, wherever it is assembled without names. -/
def Remembers (hidden : LayoutId → Prop) (shop : Workshop) (id : DefId) (layout : LayoutId) :
    Prop :=
  ∀ (hiddenToo : LayoutId → Prop) (other : Workshop) (scope : Scope), other.Nameless hiddenToo →
    ∃ image later, (catalog.inlined catalog.size id).referent machine calls.expand calls.referent
      scope other =
        .ok image later ∧
      later.Nameless hiddenToo ∧ other.Retains later ∧
      shop.arena.Twins later.arena hidden hiddenToo layout image

/-- The layouts of named referents are remembered, but for the busy ones, which are still to be
defined. -/
structure Recalls (busy : DefId → Prop) (hidden : LayoutId → Prop) (shop : Workshop) : Prop
    extends shop.Tidy hidden where
  remembers : ∀ id layout, shop.referents.lookup id = some layout →
    busy id ∨ catalog.Remembers machine calls hidden shop id layout

variable {catalog machine calls} {fewer : LayoutId → Prop}

theorem Remembers.mono (retains : shop.arena.Retains later.arena hidden fewer)
    (remembers : catalog.Remembers machine calls hidden shop id layout) :
    catalog.Remembers machine calls fewer later id layout := by
  intro hiddenToo other scope nameless
  rcases remembers hiddenToo other scope nameless with
    ⟨image, made, outcome, namelessThen, retainsToo, twins⟩
  exact ⟨image, made, outcome, namelessThen, retainsToo, twins.mono retains (.refl _ _)⟩

theorem Recalls.reserved (recalls : catalog.Recalls machine calls busy hidden shop) :
    catalog.Recalls machine calls busy (veil ⟨shop.size⟩ hidden) shop.reserved where
  toTidy := recalls.toTidy.opened shop.opened_reserved
  remembers id layout known := (recalls.remembers id layout known).imp_right fun remembers =>
    remembers.mono (.reserve _ _)

theorem Recalls.begun (recalls : catalog.Recalls machine calls busy hidden shop)
    (unknown : shop.referents.lookup id = none) :
    catalog.Recalls machine calls (fun other => busy other ∨ other = id) (veil ⟨shop.size⟩ hidden)
      (shop.begun id) where
  toTidy := recalls.toTidy.opened (opened_begun unknown)
  remembers other layout known := by
    rw [lookup_begun] at known
    split at known
    · rename_i same
      exact .inl (.inr same)
    · exact (recalls.remembers other layout known).imp .inl fun remembers =>
        remembers.mono (.reserve _ _)

theorem Recalls.ends
    (recalls : catalog.Recalls machine calls (fun other => busy other ∨ other = id) hidden shop)
    (known : shop.referents.lookup id = some layout)
    (remembers : catalog.Remembers machine calls hidden shop id layout) :
    catalog.Recalls machine calls busy hidden shop where
  toTidy := recalls.toTidy
  remembers other otherLayout knownToo := by
    rcases recalls.remembers other otherLayout knownToo with (isBusy | rfl) | remembered
    · exact .inl isBusy
    · rw [known, Option.some.injEq] at knownToo
      exact .inr (knownToo ▸ remembers)
    · exact .inr remembered

end Catalog

namespace Coupling

/-- Assemblies with names and with definitions in place of them. Names that are live may still
occur; those which are busy have a referent under way. -/
def inlining (catalog : Catalog) (machine : Machine) (calls : Calls) (live busy : DefId → Prop)
    (hidden hiddenToo : LayoutId → Prop) : Coupling where
  linked shop other := catalog.Recalls machine calls busy hidden shop ∧ other.Nameless hiddenToo
  failed _ _ := True
  twins shop other := shop.arena.Twins other.arena hidden hiddenToo
  grows := Retains
  scopes scope scopeToo := scope.totalLength = scopeToo.totalLength ∧
    ∀ id, live id → id ∉ scope.inPlace ∧ id ∉ scope.underWay
  failed_of_linked _ := trivial
  grows_refl := .refl
  grows_trans := .trans
  twins_mono grows growsToo := .mono (grows.arena.hide _) (growsToo.arena.hide _)
  size_eq _ twins := twins.size_eq
  totalLength_eq scopes := scopes.1

section Define

variable {catalog : Catalog} {machine : Machine} {calls : Calls} {startedToo : Workshop}
  {nameToo : Option DefId}

theorem coupled_define {plan image : Assembly Draft} (liveToo : DefId → Prop)
    (tidy : shop.Tidy hidden) (tidyToo : other.Tidy hiddenToo) (opened : Opened name shop started)
    (openedToo : Opened nameToo other startedToo)
    (coupled : (inlining catalog machine calls live busy (veil ⟨shop.size⟩ hidden)
      (veil ⟨other.size⟩ hiddenToo)).Draws plan image started startedToo) :
    (inlining catalog machine calls liveToo busy hidden hiddenToo).Coupled
      (fun later laterToo layout twin => later.arena.Twins laterToo.arena hidden hiddenToo layout
        twin ∧ layout = ⟨shop.size⟩ ∧ ∀ id known, started.referents.lookup id = some known →
          later.referents.lookup id = some known)
      (fun _ => (plan >>= fun draft => define ⟨shop.size⟩ draft.pattern >>= fun _ =>
        pure ⟨shop.size⟩) started)
      (fun _ => (image >>= fun draft => define ⟨other.size⟩ draft.pattern >>= fun _ =>
        pure ⟨other.size⟩) startedToo)
      shop other := by
  simp only [Coupled] at coupled ⊢
  rcases outcome : plan started with ⟨draft, made⟩ | ⟨defect, made⟩ <;>
    rcases outcomeToo : image startedToo with ⟨draftToo, madeToo⟩ | ⟨defectToo, madeToo⟩ <;>
    simp only [outcome, outcomeToo] at coupled
  · rw [bind_of_ok outcome, bind_of_ok outcomeToo]
    rcases coupled with ⟨⟨recalls, nameless⟩, retains, retainsToo, drafts⟩
    have mirrors := drafts.pattern
    have related : Verdict.Related (fun _ _ => True) (made.arena.define ⟨shop.size⟩ draft.pattern)
      (madeToo.arena.define ⟨other.size⟩ draftToo.pattern) := related_define mirrors
    rcases defined : made.arena.define ⟨shop.size⟩ draft.pattern with defect | arena <;>
      rcases definedToo : madeToo.arena.define ⟨other.size⟩ draftToo.pattern with
        defectToo | arenaToo <;>
      rw [defined, definedToo] at related
    · cases related
      simp only [Assembly.define, Bind.bind, EStateM.bind, defined, definedToo]
      exact ⟨trivial, trivial⟩
    · cases related
    · cases related
    · simp only [Assembly.define, Bind.bind, EStateM.bind, defined, definedToo]
      have flipped := mirrors.symm.mono fun _ _ twins => Twins.symm twins
      have indexed := recalls.indexed.define_of_mirrors defined mirrors
      have indexedToo := nameless.indexed.define_of_mirrors definedToo flipped
      refine ⟨⟨⟨tidy.define opened retains defined indexed, fun id layout known => ?_⟩,
        tidyToo.define openedToo retainsToo definedToo indexedToo, nameless.names⟩,
        opened.retains_define retains defined, openedToo.retains_define retainsToo definedToo,
        ?_, rfl, retains.named⟩
      · exact (recalls.remembers id layout known).imp_right fun remembers =>
          remembers.mono (.define hidden defined)
      · have shown : ¬ hidden ⟨shop.size⟩ := fun isHidden => lt_irrefl _ (tidy.old _ isHidden)
        have shownToo : ¬ hiddenToo ⟨other.size⟩ :=
          fun isHidden => lt_irrefl _ (tidyToo.old _ isHidden)
        exact .define recalls.indexed nameless.indexed (recalls.old _ (.inr rfl))
          (nameless.old _ (.inr rfl)) mirrors defined definedToo shown shownToo
          (fun layout isHidden => recalls.old layout (.inl isHidden)) fun layout isHidden =>
          nameless.old layout (.inl isHidden)
  · rw [bind_of_error outcome, bind_of_error outcomeToo]
    exact ⟨coupled.1, trivial⟩

theorem coupled_anonymous {plan image : Plan}
    (plans : ∀ hidden hiddenToo, (inlining catalog machine calls live busy hidden hiddenToo).Plans
      plan image)
    {scope : Scope}
    (scopes : (inlining catalog machine calls live busy hidden hiddenToo).scopes scope scopeToo)
    (linked : (inlining catalog machine calls live busy hidden hiddenToo).linked shop other) :
    (inlining catalog machine calls live busy hidden hiddenToo).Refers
      (Plan.anonymousReferent plan scope) (Plan.anonymousReferent image scopeToo) shop other := by
  rcases linked with ⟨recalls, nameless⟩
  have coupled := plans _ _ { scope with inPlace := [], totalLength := none }
    { scopeToo with inPlace := [], totalLength := none }
    ⟨rfl, fun id isLive => ⟨List.not_mem_nil, (scopes.2 id isLive).2⟩⟩ 0 shop.reserved
    other.reserved ⟨recalls.reserved, nameless.reserved⟩
  exact (coupled_define live recalls.toTidy nameless.toTidy shop.opened_reserved
    other.opened_reserved coupled).imp fun _ _ _ _ made => made.1

end Define

end Coupling

namespace Catalog

/-- The plan of the definition is coupled to that of what stands for its name. -/
def Inlines (catalog : Catalog) (machine : Machine) (calls : Calls) (id : DefId) : Prop :=
  ∀ definition, catalog.get? id = some definition → ∀ busy : DefId → Prop,
    (∀ other, TransGen catalog.Mentions id other → ¬ busy other) → ∀ hidden hiddenToo,
      (Coupling.inlining catalog machine calls (TransGen catalog.Mentions id) busy hidden
        hiddenToo).Plans (definition.shape.plan machine calls.expand calls.referent)
        ((catalog.inlined catalog.size id).plan machine calls.expand calls.referent)

end Catalog

namespace Coupling

variable {catalog : Catalog} {machine : Machine} {calls : Calls}

theorem coupled_of_made (made : ∀ hiddenToo other scope, other.Nameless hiddenToo →
      (inlining catalog machine calls live (fun other => busy other ∨ other = id) hidden
        hiddenToo).Coupled (fun later laterToo layout image =>
          later.arena.Twins laterToo.arena hidden hiddenToo layout image ∧
            later.referents.lookup id = some layout)
        (calls.referent id)
        ((catalog.inlined catalog.size id).referent machine calls.expand calls.referent scope) shop
          other)
    (nameless : other.Nameless hiddenToo) :
    (inlining catalog machine calls live busy hidden hiddenToo).Refers (calls.referent id)
      ((catalog.inlined catalog.size id).referent machine calls.expand calls.referent scopeToo) shop
        other := by
  have here := made hiddenToo other scopeToo nameless
  simp only [Coupled] at here ⊢
  rcases outcome : calls.referent id shop with ⟨_, later⟩ | ⟨defect, later⟩ <;>
    rcases outcomeToo : (catalog.inlined catalog.size id).referent machine calls.expand
      calls.referent scopeToo other with ⟨_, laterToo⟩ | ⟨_, laterToo⟩ <;>
    simp only [outcome, outcomeToo] at here ⊢
  · rcases here with ⟨⟨recalls, namelessThen⟩, retains, retainsToo, twins, known⟩
    refine ⟨⟨recalls.ends known ?_, namelessThen⟩, retains, retainsToo, twins⟩
    intro hiddenThird third scope namelessThird
    have there := made hiddenThird third scope namelessThird
    simp only [Coupled, outcome] at there
    rcases outcomeThird : (catalog.inlined catalog.size id).referent machine calls.expand
      calls.referent scope third with ⟨twin, last⟩ | ⟨_, last⟩ <;> simp only [outcomeThird] at there
    rcases there with ⟨⟨_, namelessLast⟩, _, retainsLast, twinsLast, _⟩
    exact ⟨twin, last, rfl, namelessLast, retainsLast, twinsLast⟩
  · exact here

section Names

variable (tied : calls = catalog.step machine calls)

include tied

theorem expand_of_undefined (undefined : catalog.get? id = none) (scope : Scope) (offset : Nat) :
    calls.expand id scope offset = throw (.unknownDefinition id) := by
  rw [tied]
  simp only [step, find, undefined]
  rfl

theorem referent_of_undefined (undefined : catalog.get? id = none)
    (unknown : shop.referents.lookup id = none) :
    calls.referent id shop = .error (.unknownDefinition id) shop := by
  rw [tied]
  exact step_of_undefined unknown undefined

variable (acyclic : catalog.Acyclic) (inlines : catalog.Inlines machine calls id)
  (closed : ∀ other, TransGen catalog.Mentions id other → live other)
  (free : ∀ other, live other → ¬ busy other)

include acyclic inlines closed free

theorem plans_expand (isLive : live id) :
    (inlining catalog machine calls live busy hidden hiddenToo).Plans (calls.expand id)
      ((catalog.inlined catalog.size id).plan machine calls.expand calls.referent) := by
  intro scope scopeToo scopes offset shop other linked
  rcases found : catalog.get? id with _ | definition
  · rw [inlined_of_undefined found, Shape.plan, expand_of_undefined tied found,
      expand_of_undefined tied found]
    exact coupled_throw linked
  · have expands : calls.expand id scope offset =
        definition.shape.plan machine calls.expand calls.referent { scope with
          inPlace := id :: scope.inPlace, underWay := id :: scope.underWay } offset := by
      conv_lhs => rw [tied]
      simp only [step, find, found, if_neg (scopes.2 id isLive).1, if_neg (scopes.2 id isLive).2]
      rfl
    rw [expands]
    have plans :=
      inlines definition found busy (fun other reached => free other (closed other reached)) hidden
        hiddenToo
    refine plans { scope with inPlace := id :: scope.inPlace, underWay := id :: scope.underWay }
      scopeToo ⟨scopes.1, fun next reached => ?_⟩ offset shop other linked
    have differs : next ≠ id := by
      rintro rfl
      exact acyclic next reached
    have outside := scopes.2 next (closed next reached)
    simp only [List.mem_cons, not_or]
    exact ⟨⟨differs, outside.1⟩, differs, outside.2⟩

theorem coupled_newReferent {definition : Definition} (found : catalog.get? id = some definition)
    (unknown : shop.referents.lookup id = none)
    (linked : (inlining catalog machine calls live busy hidden hiddenToo).linked shop other) :
    (inlining catalog machine calls live busy hidden hiddenToo).Refers (calls.referent id)
      ((catalog.inlined catalog.size id).referent machine calls.expand calls.referent scopeToo) shop
        other := by
  rcases linked with ⟨recalls, nameless⟩
  have outcome : calls.referent id shop =
      (definition.shape.plan machine calls.expand
        calls.referent { inPlace := [id], underWay := [id] } 0 >>= fun draft =>
        define ⟨shop.size⟩ draft.pattern >>= fun _ => pure ⟨shop.size⟩) (shop.begun id) := by
    conv_lhs => rw [tied]
    exact Catalog.step_of_found unknown found
  have plans := inlines definition found (fun other => busy other ∨ other = id) (by
    rintro next reached (isBusy | rfl)
    · exact free next (closed next reached) isBusy
    · exact acyclic next reached)
  have coupled {hiddenToo : LayoutId → Prop} {other : Workshop}
      (nameless : other.Nameless hiddenToo) (scopeToo : Scope) :=
      plans (veil ⟨shop.size⟩ hidden) (veil ⟨other.size⟩ hiddenToo)
    { inPlace := [id], underWay := [id] } { scopeToo with inPlace := [], totalLength := none }
    ⟨rfl, fun next reached => by
      have differs : next ≠ id := by
        rintro rfl
        exact acyclic next reached
      simp [differs]⟩ 0 (shop.begun id) other.reserved ⟨recalls.begun unknown, nameless.reserved⟩
  by_cases named : ∃ next, catalog.inlined catalog.size id = .named next
  · -- A definition that comes to nothing but an unknown name fails like that name.
    rcases named with ⟨next, isNext⟩
    have isLeft : (catalog.inline (.named id)).Mentions next := by
      rw [Catalog.inline, Shape.replace, isNext]
      exact .named
    have undefined := acyclic.undefined_of_mentions isLeft
    have unknownToo : other.referents.lookup next = none := by
      rw [nameless.names]
      rfl
    have here := coupled nameless scopeToo
    rw [isNext, Shape.plan, expand_of_undefined tied undefined] at here
    simp only [Coupled] at here ⊢
    rw [isNext, Shape.referent, referent_of_undefined tied undefined unknownToo, outcome]
    rcases planned : definition.shape.plan machine calls.expand calls.referent
        { inPlace := [id], underWay := [id] } 0 (shop.begun id) with
        ⟨draft, later⟩ | ⟨defect, later⟩ <;>
      simp only [planned] at here
    · exact here.elim
    · rw [bind_of_error planned]
      exact ⟨here.1, trivial⟩
  · refine coupled_of_made (fun _ other scope nameless => ?_) nameless
    have made := coupled_define live recalls.toTidy nameless.toTidy (opened_begun unknown)
      other.opened_reserved (coupled nameless scope)
    have isBegun : (shop.begun id).referents.lookup id = some ⟨shop.size⟩ := by
      rw [lookup_begun, if_pos rfl]
    simp only [Coupled]
    rw [outcome, Shape.referent_of_not_named named]
    exact made.imp fun _ _ _ _ both => ⟨both.1, both.2.1 ▸ both.2.2 id _ isBegun⟩

theorem coupled_referent (isLive : live id)
    (linked : (inlining catalog machine calls live busy hidden hiddenToo).linked shop other) :
    (inlining catalog machine calls live busy hidden hiddenToo).Refers (calls.referent id)
      ((catalog.inlined catalog.size id).referent machine calls.expand calls.referent scopeToo) shop
        other := by
  rcases known : shop.referents.lookup id with _ | layout
  · rcases found : catalog.get? id with _ | definition
    · have unknownToo : other.referents.lookup id = none := by
        rw [linked.2.names]
        rfl
      rw [inlined_of_undefined found]
      simp only [Coupled, Shape.referent, referent_of_undefined tied found known,
        referent_of_undefined tied found unknownToo]
      exact ⟨trivial, trivial⟩
    · exact coupled_newReferent tied acyclic inlines closed free found known linked
  · rcases linked with ⟨recalls, nameless⟩
    rcases recalls.remembers id layout known with isBusy | remembers
    · exact absurd isBusy (free id isLive)
    · rcases remembers hiddenToo other scopeToo nameless with
        ⟨_, _, outcomeToo, namelessThen, retains, twins⟩
      have outcome : calls.referent id shop = .ok layout shop := by
        rw [tied]
        exact step_of_known known
      simp only [Coupled, outcome, outcomeToo]
      exact ⟨⟨recalls, namelessThen⟩, .refl _, retains, twins⟩

end Names

section Shapes

variable (tied : calls = catalog.step machine calls) (acyclic : catalog.Acyclic)

include tied acyclic

theorem plans_inline_of_inlines {shape : Shape} (within : ∀ id, shape.Mentions id → live id)
    (closed : ∀ id other, live id → TransGen catalog.Mentions id other → live other)
    (free : ∀ id, live id → ¬ busy id)
    (inlines : ∀ id, shape.Mentions id → catalog.Inlines machine calls id)
    (hidden hiddenToo : LayoutId → Prop) :
    (inlining catalog machine calls live busy hidden hiddenToo).Plans
      (shape.plan machine calls.expand calls.referent)
      ((catalog.inline shape).plan machine calls.expand calls.referent) := by
  let couplings (veils : (LayoutId → Prop) × (LayoutId → Prop)) : Coupling :=
    inlining catalog machine calls live busy veils.1 veils.2
  refine @plans_replace machine calls.expand calls.expand calls.referent calls.referent
    (catalog.inlined catalog.size) _ couplings shape.Mentions ?_ ?_ ?_ shape
    (fun _ mentions => mentions) (hidden, hiddenToo)
  · intro _ id mentions
    have isLive := within id mentions
    exact plans_expand tied acyclic (inlines id mentions) (fun other => closed id other isLive) free
      isLive
  · intro _ id mentions _ _ _ _ other linked
    have isLive := within id mentions
    exact coupled_referent tied acyclic (inlines id mentions) (fun other => closed id other isLive)
      free isLive linked
  · intro _ _ plans _ _ _ scopes _ _ linked
    exact coupled_anonymous (fun hidden hiddenToo => plans (hidden, hiddenToo)) scopes linked

theorem inlines (id : DefId) : catalog.Inlines machine calls id := by
  refine acyclic.induction (motive := fun _ id => catalog.Inlines machine calls id)
    (fun _ id undefined => ?_) (fun _ id definition found ih => ?_) id le_rfl
  · intro definition found
    rw [undefined] at found
    cases found
  · intro definitionToo foundToo busy free hidden hiddenToo
    rw [found, Option.some.injEq] at foundToo
    subst foundToo
    rw [acyclic.inlined_eq found]
    exact plans_inline_of_inlines tied acyclic
      (fun other mentions => .single ⟨definition, found, mentions⟩)
      (fun _ _ reached more => reached.trans more) free ih hidden hiddenToo

theorem coupled_assemble {arenaToo : Arena} (indexed : arena.WellIndexed)
    (indexedToo : arenaToo.WellIndexed) (shape : Shape) (totalLength : Option Nat) :
    (inlining catalog machine calls (fun _ => True) (fun _ => False) (fun _ => False) fun _ =>
      False).Coupled
        (fun later laterToo => later.arena.Twins laterToo.arena (fun _ => False) fun _ => False)
      (shape.assembleBy machine calls totalLength)
        ((catalog.inline shape).assembleBy machine calls totalLength)
      { arena } { arena := arenaToo } := by
  have plans : (inlining catalog machine calls (fun _ => True) (fun _ => False) (fun _ => False)
      fun _ => False).Plans (shape.plan machine calls.expand calls.referent)
      ((catalog.inline shape).plan machine calls.expand calls.referent) :=
    plans_inline_of_inlines tied acyclic (fun _ _ => trivial) (fun _ _ _ _ => trivial)
      (fun _ _ => not_false) (fun id _ => inlines tied acyclic id) _ _
  have linked : (inlining catalog machine calls (fun _ => True) (fun _ => False) (fun _ => False)
      fun _ => False).linked { arena } { arena := arenaToo } :=
    ⟨⟨⟨indexed, fun _ => False.elim⟩, fun _ _ known => by cases known⟩,
      ⟨indexedToo, fun _ => False.elim⟩, rfl⟩
  apply (plans { totalLength } { totalLength }
    ⟨rfl, fun _ _ => ⟨List.not_mem_nil, List.not_mem_nil⟩⟩ 0 _ _ linked).bind
  rintro draft draftToo later laterToo ⟨recalls, nameless⟩ _ _ drafts
  have drafted : draft.Mirrors (later.reserved.arena.Twins laterToo.reserved.arena
      (veil ⟨later.size⟩ fun _ => False) (veil ⟨laterToo.size⟩ fun _ => False)) draftToo :=
    ⟨drafts.pattern.mono fun _ _ twins => twins.mono (.reserve _ _) (.reserve _ _), drafts.align,
      drafts.hasTail⟩
  have pures : (inlining catalog machine calls (fun _ => True) (fun _ => False)
      (veil ⟨later.size⟩ fun _ => False) (veil ⟨laterToo.size⟩ fun _ => False)).Draws
        (pure draft) (pure draftToo) later.reserved laterToo.reserved :=
    coupled_pure ⟨recalls.reserved, nameless.reserved⟩ drafted
  exact (coupled_define _ recalls.toTidy nameless.toTidy later.opened_reserved
    laterToo.opened_reserved pures).imp fun _ _ _ _ made => made.1

end Shapes

end Coupling

end Recast
