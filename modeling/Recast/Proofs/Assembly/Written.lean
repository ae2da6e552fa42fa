import Recast.Proofs.Assembly.Reentry

/-!
# Tokens of drafts

A ledger says which tokens may be written at a time, and how workshops may go on: what was written
before has to stay right. Where a plan succeeds, all tokens of its draft are ones that may be
written, if that is so of the plans of its parts (`Shape.writes_of_parts`).
-/

namespace Recast

open Assembly Shape

variable {machine : Machine}

/-- Which tokens may be written into drafts while workshops go on in a certain way. -/
structure Ledger where
  good : Workshop → Prop
  grows : Workshop → Workshop → Prop
  apt : Workshop → Token → Prop
  refl : ∀ shop, grows shop shop
  trans : ∀ {shop later last}, grows shop later → grows later last → grows shop last
  mono : ∀ {shop later token}, grows shop later → apt shop token → apt later token
  cell : ∀ shop contents, apt shop (.cell contents)

/-- Wherever the plan succeeds, the workshop has gone on well, and the draft has tokens that may be
written. -/
def Plan.Writes (ledger : Ledger) (plan : Plan) : Prop :=
  ∀ scope offset shop draft later, ledger.good shop →
    plan scope offset shop = .ok draft later →
    ledger.good later ∧ ledger.grows shop later ∧ draft.pattern.Leaves (ledger.apt later)

section Shapes

variable {ledger : Ledger} {expand : DefId → Plan} {referentOf : DefId → Assembly LayoutId}

/-- How workshops go on by the ledger, with drafts of tokens that may be written. -/
def Ledger.course (ledger : Ledger) : Course where
  good := ledger.good
  grows := ledger.grows
  holds later _ draft := draft.pattern.Leaves (ledger.apt later)
  refl := ledger.refl
  trans := ledger.trans
  mono grows leaves := leaves.mono fun _ => ledger.mono grows

theorem Shape.writes_of_parts {shape : Shape} (inside : ¬ shape.IsLink)
    (parts : ∀ part ∈ shape.parts, Plan.Writes ledger (part.plan machine expand referentOf))
    (marked : ∀ name size align, shape = .sealed name size align →
      ∀ shop, ledger.apt shop (.marker name)) :
    Plan.Writes ledger (shape.plan machine expand referentOf) := by
  intro scope offset _ _ later good isOk
  have leads (part : Shape) (isPart : shape.Part {} part) (offset : Nat) :
      ledger.course.Leads part (part.plan machine expand referentOf scope offset) :=
    parts part (isPart.mem_parts inside) scope offset
  rcases plan_eq_ok inside leads good isOk with ⟨laterGood, grows, composed⟩
  exact ⟨laterGood, grows, composed.leaves (ledger.cell later _) (fun _ _ => ledger.cell later _)
    (fun name size align same => marked name size align same later) fun _ _ leaves => leaves⟩

end Shapes

/-- The shape has references and regions under invariants by value only if these are allowed. What
it refers to may be anything. -/
inductive Shape.Allows (catalog : Catalog) (references regions : Prop) : Shape → Prop
  | scalar (number : Scalar) : Allows catalog references regions (.scalar number)
  | struct {size align : Nat} {fields : List (Placed Shape)}
      (each : ∀ field ∈ fields, Allows catalog references regions field.content) :
      Allows catalog references regions (.struct size align fields)
  | union {size align : Nat} {fields : List (Placed Shape)}
      (each : ∀ field ∈ fields, Allows catalog references regions field.content) :
      Allows catalog references regions (.union size align fields)
  | tagged {size align : Nat} {slot : TagSlot} {variants : List (Variant Shape)}
      {others : Option (List (Placed Shape))}
      (each : ∀ variant ∈ variants, ∀ field ∈ variant.fields,
        Allows catalog references regions field.content)
      (rest : ∀ fields, others = some fields →
        ∀ field ∈ fields, Allows catalog references regions field.content) :
      Allows catalog references regions (.tagged size align slot variants others)
  | array {element : Shape} {count : Count} (inner : Allows catalog references regions element) :
      Allows catalog references regions (.array element count)
  | reference (isAllowed : references) (referent : Shape) (guarantee : Guarantee) :
      Allows catalog references regions (.reference referent guarantee)
  | sealed (isAllowed : regions) (name : String) (size align : Nat) :
      Allows catalog references regions (.sealed name size align)
  | named {id : DefId} (each : ∀ definition, catalog.get? id = some definition →
      Allows catalog references regions definition.shape) :
      Allows catalog references regions (.named id)

def Token.Allowed (references regions : Prop) : Token → Prop
  | .cell _ => True
  | .reference _ => references
  | .marker _ => regions

/-- Only allowed tokens are written, and nothing happens to the workshop but for the sake of
references. -/
def Ledger.byValue (references regions : Prop) : Ledger where
  good _ := True
  grows shop later := references ∨ later = shop
  apt _ := Token.Allowed references regions
  refl _ := .inr rfl
  trans first second := by
    rcases first with isAllowed | rfl
    · exact .inl isAllowed
    · exact second
  mono _ := id
  cell _ _ := trivial

theorem Shape.Allows.writes {catalog : Catalog} {references regions : Prop} {shape : Shape}
    (allows : shape.Allows catalog references regions) :
    (shape.planIn catalog machine).Writes (.byValue references regions) := by
  induction allows with
  | scalar => exact writes_of_parts not_false (List.forall_mem_nil _) nofun
  | struct _ ih | union _ ih => exact writes_of_parts not_false (List.forall_mem_map.mpr ih) nofun
  | tagged _ _ ihEach ihRest =>
    exact writes_of_parts not_false (forall_parts_tagged.mpr ⟨ihEach, ihRest⟩) nofun
  | array _ ih => exact writes_of_parts not_false (List.forall_mem_singleton.mpr ih) nofun
  | reference isAllowed referent guarantee =>
    intro scope offset shop draft later _ isOk
    rw [planIn, plan_reference_eq] at isOk
    rcases Plan.reference_eq_ok isOk with ⟨layout, _, isPattern⟩
    rw [isPattern]
    exact ⟨trivial, .inl isAllowed, isAllowed⟩
  | sealed isAllowed =>
    exact writes_of_parts not_false (List.forall_mem_nil _) fun _ _ _ _ _ => isAllowed
  | @named id _ ih =>
    intro scope offset shop draft later _ isOk
    change (catalog.calls machine).expand id scope offset shop = _ at isOk
    rw [Catalog.calls_eq_step] at isOk
    rcases Catalog.step_expand_eq_ok isOk with ⟨definition, found, _, isDraft⟩
    exact ih definition found _ _ _ _ _ trivial isDraft

end Recast
