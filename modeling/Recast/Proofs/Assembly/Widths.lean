import Recast.Proofs.Assembly.Inline
import Recast.Proofs.Assembly.Tells
import Recast.Proofs.Assembly.Written

/-!
# Widths of references

The record of a referent changes only once, when the layout is defined, and until then it counts as
one of a fixed size. So a reference has the width that the finished record asks for, or it was made
on the way through its own referent (`Workshop.Suits`), and then that is a definition that leads
back to itself (`Shape.referenceWidth_of_assemble`).
-/

namespace Recast

open Assembly List Shape Workshop Arena

variable {catalog : Catalog} {machine : Machine} {underway : Underway} {shop later : Workshop}
  {layout id : LayoutId} {name : Option DefId} {shape : Shape} {totalLength : Option Nat}

def Underway.Reaches (catalog : Catalog) (underway : Underway) (id : DefId) : Prop :=
  ∀ name layout, (some name, layout) ∈ underway → Relation.TransGen catalog.Mentions name id

namespace Workshop

variable {last : Workshop} {token : Token}

/-- The workshop has grown, and what was there before is as it was. -/
structure Grows (shop later : Workshop) : Prop where
  grown : shop.size ≤ later.size
  layout : ∀ id : LayoutId, id.index < shop.size → later.arena.layout id = shop.arena.layout id
  names : ∀ id layout, shop.referents.lookup id = some layout →
    later.referents.lookup id = some layout

theorem Grows.refl (shop : Workshop) : shop.Grows shop :=
  ⟨le_rfl, fun _ _ => rfl, fun _ _ found => found⟩

theorem Grows.trans (first : shop.Grows later) (second : later.Grows last) : shop.Grows last where
  grown := le_trans first.grown second.grown
  layout id inside :=
    (second.layout id (lt_of_lt_of_le inside first.grown)).trans (first.layout id inside)
  names id layout found := second.names id layout (first.names id layout found)

def Recurs (catalog : Catalog) (shop : Workshop) (layout : LayoutId) : Prop :=
  ∃ name, shop.referents.lookup name = some layout ∧ Relation.TransGen catalog.Mentions name name

/-- The reference is as wide as the record of its referent asks for, which is complete, or its
referent recurs and the reference is a single pointer. -/
def SuitsReference (catalog : Catalog) (machine : Machine) (underway : Underway) (shop : Workshop)
    (target : Reference) : Prop :=
  (∀ name, (name, target.referent) ∉ underway) ∧
      target.width = machine.referenceWidth (shop.arena.layout target.referent).size ∨
    target.width = machine.pointerSize ∧ shop.Recurs catalog target.referent

/-- The token may stand on an edge while some referents are under assembly. -/
def Suits (catalog : Catalog) (machine : Machine) (underway : Underway) (shop : Workshop)
    (token : Token) : Prop :=
  ∀ target, token = .reference target →
    target.referent.index < shop.size ∧ shop.SuitsReference catalog machine underway target

theorem Recurs.grows (recurs : shop.Recurs catalog layout) (grows : shop.Grows later) :
    later.Recurs catalog layout := by
  rcases recurs with ⟨name, known, cyclic⟩
  exact ⟨name, grows.names name layout known, cyclic⟩

theorem Suits.grows (suits : shop.Suits catalog machine underway token) (grows : shop.Grows later) :
    later.Suits catalog machine underway token := by
  rintro target rfl
  rcases suits target rfl with ⟨inside, suitsTarget⟩
  refine ⟨lt_of_lt_of_le inside grows.grown, ?_⟩
  rcases suitsTarget with ⟨apart, width⟩ | ⟨width, recurs⟩
  · exact .inl ⟨apart, by rw [width, grows.layout _ inside]⟩
  · exact .inr ⟨width, recurs.grows grows⟩

theorem ne_of_inside (inside : layout.index < shop.size) : layout ≠ ⟨shop.size⟩ := by
  rintro rfl
  exact lt_irrefl _ inside

theorem Suits.opened (suits : shop.Suits catalog machine underway token) (grows : shop.Grows later)
    (name : Option DefId) :
    later.Suits catalog machine ((name, ⟨shop.size⟩) :: underway) token := by
  rintro target rfl
  rcases suits.grows grows target rfl with ⟨inside, ⟨apart, width⟩ | recurs⟩
  · refine ⟨inside, .inl ⟨fun other member => ?_, width⟩⟩
    rcases mem_cons.mp member with isNew | before
    · exact ne_of_inside (suits target rfl).1 (Prod.mk.inj isNew).2
    · exact apart other before
  · exact ⟨inside, .inr recurs⟩

/-- All tokens on edges suit the workshop, and it can be told what is under assembly. -/
structure Orderly (catalog : Catalog) (machine : Machine) (underway : Underway) (shop : Workshop) :
    Prop where
  bears : shop.arena.Bears (shop.Suits catalog machine underway)
  /-- What is under assembly counts as something of a fixed size. -/
  waits : ∀ name layout, (name, layout) ∈ underway →
    layout.index < shop.size ∧ ∃ size, (shop.arena.layout layout).size = some size
  inside : ∀ id layout, shop.referents.lookup id = some layout → layout.index < shop.size
  own : ∀ id layout name, shop.referents.lookup id = some layout → (name, layout) ∈ underway →
    name = some id

theorem orderly_empty (catalog : Catalog) (machine : Machine) : Orderly catalog machine [] {} where
  bears := bears_empty
  waits _ _ member := absurd member not_mem_nil
  inside _ _ known := by simp at known
  own _ _ _ known := by simp at known

theorem Opened.grows (opened : Opened name shop later) : shop.Grows later where
  grown := by simp [opened.size]
  layout id inside := by
    rw [opened.arena]
    exact layout_reserve_of_lt inside
  names id layout known := (opened.lookup id layout).mpr (.inl known)

theorem Orderly.opened (orderly : shop.Orderly catalog machine underway)
    (opened : Opened name shop later) :
    later.Orderly catalog machine ((name, ⟨shop.size⟩) :: underway) := by
  refine ⟨?_, ?_, ?_, ?_⟩
  · rw [opened.arena]
    exact orderly.bears.reserve.mono fun _ suits => suits.opened opened.grows name
  · intro other layout member
    rcases mem_cons.mp member with isNew | before
    · cases isNew
      refine ⟨by simp [opened.size], 0, ?_⟩
      rw [opened.arena, size, layout_reserve_self]
      rfl
    · rcases orderly.waits other layout before with ⟨inside, isSized⟩
      rw [opened.grows.layout layout inside]
      exact ⟨lt_of_lt_of_le inside opened.grows.grown, isSized⟩
  · intro id layout known
    rw [opened.size]
    rcases (opened.lookup id layout).mp known with before | ⟨_, rfl⟩
    · exact Nat.lt_succ_of_lt (orderly.inside id layout before)
    · exact Nat.lt_succ_self _
  · intro id layout other known member
    rcases (opened.lookup id layout).mp known with before | ⟨isName, rfl⟩
    · rcases mem_cons.mp member with isNew | inUnderway
      · exact absurd (Prod.mk.inj isNew).2 (ne_of_inside (orderly.inside id layout before))
      · exact orderly.own id layout other before inUnderway
    · rcases mem_cons.mp member with isNew | inUnderway
      · rw [(Prod.mk.inj isNew).1, isName]
      · exact absurd (orderly.waits other _ inUnderway).1 (lt_irrefl _)

theorem Orderly.closed {pattern : Pattern}
    (orderly : shop.Orderly catalog machine ((name, layout) :: underway))
    (fresh : ∀ other, (other, layout) ∉ underway)
    (leaves : pattern.Leaves (shop.Suits catalog machine ((name, layout) :: underway)))
    (defined : define layout pattern shop = .ok () later) :
    later.Orderly catalog machine underway ∧ shop.size ≤ later.size ∧
      ∀ other : LayoutId, other.index < shop.size → other ≠ layout →
        later.arena.layout other = shop.arena.layout other := by
  rcases define_eq_ok defined with ⟨isArena, isReferents⟩
  rcases define_eq_ok isArena with ⟨_, _, _, isLayouts⟩
  have grown : shop.size ≤ later.size := by
    simp [size, isLayouts]
  have inside := (orderly.waits name layout mem_cons_self).1
  have others := (layout_define isLayouts inside).2.1
  have suits (token : Token)
      (before : shop.Suits catalog machine ((name, layout) :: underway) token) : later.Suits catalog
      machine underway token := by
    rintro target rfl
    rcases before target rfl with ⟨low, ⟨apart, width⟩ | ⟨width, recurs⟩⟩
    · refine ⟨lt_of_lt_of_le low grown, .inl ⟨fun other member => ?_, ?_⟩⟩
      · exact apart other (mem_cons_of_mem _ member)
      · have different : target.referent ≠ layout := by
          intro same
          exact apart name (same ▸ mem_cons_self)
        rw [width, others _ low different]
    · refine ⟨lt_of_lt_of_le low grown, .inr ⟨width, ?_⟩⟩
      rw [Recurs, isReferents]
      exact recurs
  refine ⟨⟨?_, ?_, ?_, ?_⟩, grown, others⟩
  · exact (orderly.bears.mono suits).define (leaves.mono suits) isArena
  · intro other id member
    rcases orderly.waits other id (mem_cons_of_mem _ member) with ⟨low, isSized⟩
    have different : id ≠ layout := by
      rintro rfl
      exact fresh other member
    rw [others id low different]
    exact ⟨lt_of_lt_of_le low grown, isSized⟩
  · intro id recorded known
    rw [isReferents] at known
    exact Nat.lt_of_lt_of_le (orderly.inside id recorded known) grown
  · intro id recorded other known member
    rw [isReferents] at known
    exact orderly.own id recorded other known (mem_cons_of_mem _ member)

/-- A reference to the layout may be made: it is complete, or it counts as one of a fixed size and
recurs. -/
def Offers (catalog : Catalog) (underway : Underway) (shop : Workshop) (layout : LayoutId) : Prop :=
  layout.index < shop.size ∧ ((∀ name, (name, layout) ∉ underway) ∨
    (∃ size, (shop.arena.layout layout).size = some size) ∧ shop.Recurs catalog layout)

theorem Offers.suits (offers : shop.Offers catalog underway layout) (guarantee : Guarantee) :
    shop.Suits catalog machine underway (.reference { guarantee with
      referent := layout
      width := machine.referenceWidth (shop.arena.layout layout).size }) := by
  rintro _ ⟨⟩
  rcases offers with ⟨inside, apart | ⟨⟨_, isSized⟩, recurs⟩⟩
  · exact ⟨inside, .inl ⟨apart, rfl⟩⟩
  · exact ⟨inside, .inr ⟨by rw [isSized, Machine.referenceWidth], recurs⟩⟩

end Workshop

/-- While some referents are under assembly, workshops stay orderly, and references suit them. -/
def Ledger.widths (catalog : Catalog) (machine : Machine) (underway : Underway) : Ledger where
  good := Orderly catalog machine underway
  grows := Grows
  apt := Suits catalog machine underway
  refl := Grows.refl
  trans := Grows.trans
  mono grows suits := suits.grows grows
  cell _ _ _ isReference := nomatch isReference

/-- Wherever the step succeeds, the layout that it leads to may be referred to. -/
def Assembly.LeadsTo (catalog : Catalog) (machine : Machine) (underway : Underway)
    (step : Assembly LayoutId) : Prop :=
  ∀ shop layout later, shop.Orderly catalog machine underway → step shop = .ok layout later →
    later.Orderly catalog machine underway ∧ shop.Grows later ∧ later.Offers catalog underway layout

section Referents

variable {started middle : Workshop} {plan : Plan} {scope : Scope}

theorem Workshop.Orderly.filled (orderly : shop.Orderly catalog machine underway)
    (opened : shop.Opened name started)
    (writes : plan.Writes (.widths catalog machine ((name, ⟨shop.size⟩) :: underway)))
    (isOk : plan.fill scope ⟨shop.size⟩ started = .ok layout later) :
    later.Orderly catalog machine underway ∧ shop.Grows later ∧
    later.Offers catalog underway layout := by
  rcases Plan.fill_eq_ok isOk with ⟨rfl, _, middle, isDraft, isDefined⟩
  have fresh (other : Option DefId) : (other, (⟨shop.size⟩ : LayoutId)) ∉ underway := by
    intro member
    exact lt_irrefl _ (orderly.waits other _ member).1
  rcases writes _ _ _ _ _ (orderly.opened opened) isDraft with ⟨planned, grows, leaves⟩
  rcases planned.closed fresh leaves isDefined with ⟨closed, grown, others⟩
  have sofar : shop.Grows middle := opened.grows.trans grows
  refine ⟨closed, ⟨le_trans sofar.grown grown, fun id low => ?_, fun id layout known => ?_⟩, ?_,
    .inl fresh⟩
  · rw [others id (lt_of_lt_of_le low sofar.grown) (ne_of_inside low), sofar.layout id low]
  · rw [(define_eq_ok isDefined).2]
    exact sofar.names id layout known
  · exact Nat.lt_of_lt_of_le (planned.waits name _ mem_cons_self).1 grown

end Referents

section Shapes

variable {calls : Calls}

/-- For names that everything under assembly leads to, references get suitable widths. -/
structure Calls.Suit (catalog : Catalog) (machine : Machine) (calls : Calls) : Prop where
  expand : ∀ underway id, underway.Reaches catalog id →
    (calls.expand id).Writes (.widths catalog machine underway)
  referent : ∀ underway id, underway.Reaches catalog id →
    (calls.referent id).LeadsTo catalog machine underway

theorem Shape.writes_widths (suit : calls.Suit catalog machine) (shape : Shape)
    (reaches : ∀ id, shape.Mentions id → underway.Reaches catalog id) :
    (shape.plan machine calls.expand calls.referent).Writes (.widths catalog machine underway) := by
  induction shape using recipe_induction generalizing underway with
  | direct _ inside ih =>
    refine writes_of_parts inside (fun part isPart => ?_) fun _ _ _ _ _ _ isReference =>
      nomatch isReference
    exact ih part isPart fun id inner => reaches id (inner.of_part isPart)
  | reference referent guarantee ih =>
    have leads (scope : Scope) :
        (referent.referent machine calls.expand calls.referent scope).LeadsTo catalog machine
        underway := by
      by_cases isNamed : ∃ id, referent = .named id
      · rcases isNamed with ⟨id, rfl⟩
        exact suit.referent underway id (reaches id (.referent .named))
      · rw [referent_of_not_named isNamed]
        intro shop _ _ orderly isOk
        rw [Plan.anonymousReferent_eq] at isOk
        refine orderly.filled shop.opened_reserved (ih fun id inner => ?_) isOk
        -- What is added to the layouts under assembly has no name, so it has nothing to lead to.
        intro name other member
        rcases mem_cons.mp member with isNew | before
        · simp at isNew
        · exact reaches id (.referent inner) name other before
    intro scope _ shop _ later orderly isOk
    rw [plan_reference_eq] at isOk
    rcases Plan.reference_eq_ok isOk with ⟨layout, isLayout, isPattern⟩
    rcases leads scope shop layout later orderly isLayout with ⟨orderlyThen, grows, offers⟩
    rw [isPattern]
    exact ⟨orderlyThen, grows, offers.suits guarantee⟩
  | named id => exact suit.expand underway id (reaches id .named)

/-- A referent that is known already may be referred to. If it is under assembly, then its name has
been reached from its own definition. -/
theorem Workshop.Orderly.offers {id : DefId} (orderly : shop.Orderly catalog machine underway)
    (reaches : underway.Reaches catalog id) (known : shop.referents.lookup id = some layout)
    : shop.Offers catalog underway layout := by
  refine ⟨orderly.inside id layout known, ?_⟩
  by_cases isOpen : ∃ name, (name, layout) ∈ underway
  · rcases isOpen with ⟨name, member⟩
    have isOwn := orderly.own id layout name known member
    subst isOwn
    exact .inr ⟨(orderly.waits (some id) layout member).2, id, known, reaches id layout member⟩
  · exact .inl (not_exists.mp isOpen)

theorem Catalog.suit_step (suit : calls.Suit catalog machine) :
    (catalog.step machine calls).Suit catalog machine := by
  refine ⟨fun underway id reaches scope offset shop draft later orderly isOk => ?_,
    fun underway id reaches shop layout later orderly isOk => ?_⟩
  · rcases Catalog.step_expand_eq_ok isOk with ⟨definition, found, _, isDraft⟩
    refine writes_widths suit definition.shape (fun other mentions => ?_) _ _ _ _ _ orderly isDraft
    exact fun name layout member => (reaches name layout member).tail ⟨definition, found, mentions⟩
  · rcases Catalog.step_referent_eq_ok isOk with
      ⟨known, rfl⟩ | ⟨unknown, definition, found, isFilled⟩
    · exact ⟨orderly, .refl _, orderly.offers reaches known⟩
    refine orderly.filled (opened_begun unknown) (writes_widths suit definition.shape ?_) isFilled
    intro other mentions name layout member
    rcases mem_cons.mp member with isNew | before
    · rw [Option.some.inj (Prod.mk.inj isNew).1]
      exact .single ⟨definition, found, mentions⟩
    · exact (reaches name layout before).tail ⟨definition, found, mentions⟩

theorem Shape.orderly_assemble (orderly : shop.Orderly catalog machine [])
    (isOk : shape.assemble catalog machine totalLength shop = .ok id later) :
    later.Orderly catalog machine [] := by
  rcases bind_eq_ok.mp isOk with ⟨_, planned, isDraft, onward⟩
  rcases bind_eq_ok.mp onward with ⟨_, _, ⟨⟩, onwardThen⟩
  rcases bind_eq_ok.mp onwardThen with ⟨_, _, isDefined, ⟨⟩⟩
  have suit : (catalog.calls machine).Suit catalog machine :=
    catalog.calls_induction machine ⟨fun _ _ _ _ _ _ _ _ _ => nofun, fun _ _ _ _ _ _ _ => nofun⟩
      fun _ => Catalog.suit_step
  have writes := writes_widths suit shape fun _ _ _ _ member => absurd member not_mem_nil
  rcases writes _ _ _ _ _ orderly isDraft with ⟨orderlyThen, _, leaves⟩
  have opened := planned.opened_reserved
  have leavesThen := leaves.mono fun _ suits => suits.opened opened.grows none
  exact ((orderlyThen.opened opened).closed (fun _ => not_mem_nil) leavesThen isDefined).1

end Shapes

namespace Shape

/-- Every reference that is assembled has the width that its referent's record asks for, but for
those within a definition of no fixed size that lead back to it: these are single pointers. -/
theorem referenceWidth_of_assemble
    (assembled : shape.assemble catalog machine totalLength {} = .ok id later) {state : State}
    (isState : state ∈ later.arena.states) {edge : Edge} (member : edge ∈ state.edges)
    {target : Reference} (isReference : edge.label = .token (.reference target)) :
    target.width = machine.referenceWidth (later.arena.layout target.referent).size ∨
      target.width = machine.pointerSize ∧ (later.arena.layout target.referent).size = none ∧
        ∃ name, later.referents.lookup name = some target.referent ∧
          Relation.TransGen catalog.Mentions name name := by
  have orderly := orderly_assemble (orderly_empty catalog machine) assembled
  rcases (orderly.bears state isState edge member _ isReference target rfl).2 with
    ⟨_, width⟩ | ⟨width, recurs⟩
  · exact .inl width
  · rcases isSize : (later.arena.layout target.referent).size with _ | _
    · exact .inr ⟨width, rfl, recurs⟩
    · exact .inl width

end Shape

/-- A reference to the same definition, in two words, and behind it any number of bytes. -/
def Catalog.spine : Catalog where
  entries :=
    [(⟨0⟩, ⟨"Spine", .struct 16 8 [⟨0, .reference (.named ⟨0⟩) ⟨8, .shared, .static⟩⟩,
      ⟨16, .array (.scalar (.int 1)) (.atLeast 0)⟩]⟩)]
  next := 1

def Shape.toSpine : Shape :=
  .reference (.named ⟨0⟩) ⟨8, .shared, .static⟩

def Workshop.spine : Workshop :=
  match toSpine.assemble .spine {} none {} with
  | .ok _ later | .error _ later => later

def Reference.withinSpine : Reference :=
  { align := 8, access := .shared, lifetime := .static, referent := ⟨0⟩, width := 8 }

theorem Shape.assemble_toSpine : ∃ id, toSpine.assemble .spine {} none {} = .ok id .spine := by
  have succeeds : ((toSpine.assemble .spine {} none).run' {}).isSome := by decide +kernel
  rcases outcome : toSpine.assemble .spine {} none {} with ⟨id, later⟩ | ⟨_, later⟩
  · exact ⟨id, by rw [spine, outcome]⟩
  · delta EStateM.run' EStateM.run at succeeds
    simp [outcome] at succeeds

theorem Workshop.edge_spine :
    ∃ state ∈ spine.arena.states, ∃ edge ∈ state.edges,
      edge.label = .token (.reference .withinSpine) := by
  decide +kernel

/-- The reference within the definition is a single pointer, as the definition leads back to itself.
-/
theorem Shape.referenceWidth_of_assemble_toSpine : let target := Reference.withinSpine
    (∃ id, toSpine.assemble .spine {} none {} = .ok id .spine) ∧
      (target.width = Machine.referenceWidth {} (Workshop.spine.arena.layout target.referent).size ∨
        target.width = 8 ∧ (Workshop.spine.arena.layout target.referent).size = none ∧
          ∃ name, Workshop.spine.referents.lookup name = some target.referent ∧
            Relation.TransGen Catalog.spine.Mentions name name) := by
  intro _
  rcases assemble_toSpine with ⟨id, assembled⟩
  rcases edge_spine with ⟨_, isState, _, member, isReference⟩
  exact ⟨⟨id, assembled⟩, referenceWidth_of_assemble assembled isState member isReference⟩

/-- But it is a reference to values that differ in length, and has no room for that. -/
theorem Shape.narrow_within_spine :
    (∃ id, toSpine.assemble .spine {} none {} = .ok id .spine) ∧
      (∃ state ∈ Workshop.spine.arena.states, ∃ edge ∈ state.edges,
        edge.label = .token (.reference .withinSpine)) ∧
      (Workshop.spine.arena.layout Reference.withinSpine.referent).size = none ∧
      Reference.withinSpine.width ≠ Machine.referenceWidth {} none :=
  ⟨assemble_toSpine, edge_spine, by decide +kernel, by decide⟩

end Recast
