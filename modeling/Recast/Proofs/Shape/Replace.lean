import Recast.Shape

/-!
# Shapes in place of names

A name can be replaced by a shape wherever it stands, in place or behind a reference. Properties of
shapes are shown part by part (`Shape.parts_induction`).
-/

namespace Recast.Shape

open List

mutual

/-- Shapes in place of names. -/
def replace (names : DefId → Shape) : Shape → Shape
  | .scalar number => .scalar number
  | .struct size align fields => .struct size align (replaceFields names fields)
  | .union size align fields => .union size align (replaceFields names fields)
  | .tagged size align slot variants others =>
    .tagged size align slot (replaceVariants names variants) (replaceOthers names others)
  | .array element count => .array (element.replace names) count
  | .reference referent guarantee => .reference (referent.replace names) guarantee
  | .sealed name size align => .sealed name size align
  | .named id => names id

def replaceFields (names : DefId → Shape) : List (Placed Shape) → List (Placed Shape)
  | [] => []
  | ⟨offset, shape⟩ :: rest => ⟨offset, shape.replace names⟩ :: replaceFields names rest

def replaceVariants (names : DefId → Shape) : List (Variant Shape) → List (Variant Shape)
  | [] => []
  | ⟨tag, fields⟩ :: rest => ⟨tag, replaceFields names fields⟩ :: replaceVariants names rest

def replaceOthers (names : DefId → Shape) :
    Option (List (Placed Shape)) → Option (List (Placed Shape))
  | none => none
  | some fields => some (replaceFields names fields)

end

/-- The name stands somewhere in the shape, in place or behind a reference. -/
inductive Mentions (id : DefId) : Shape → Prop
  | named : Mentions id (.named id)
  | struct {size align : Nat} {fields : List (Placed Shape)} {field : Placed Shape}
      (member : field ∈ fields) (inner : Mentions id field.content) :
        Mentions id (.struct size align fields)
  | union {size align : Nat} {fields : List (Placed Shape)} {field : Placed Shape}
      (member : field ∈ fields) (inner : Mentions id field.content) :
        Mentions id (.union size align fields)
  | variant {size align : Nat} {slot : TagSlot} {variants : List (Variant Shape)}
      {others : Option (List (Placed Shape))} {variant : Variant Shape} {field : Placed Shape}
      (isVariant : variant ∈ variants) (member : field ∈ variant.fields)
        (inner : Mentions id field.content) :
      Mentions id (.tagged size align slot variants others)
  | others {size align : Nat} {slot : TagSlot} {variants : List (Variant Shape)}
      {fields : List (Placed Shape)} {field : Placed Shape} (member : field ∈ fields)
        (inner : Mentions id field.content) :
      Mentions id (.tagged size align slot variants (some fields))
  | element {element : Shape} {count : Count} (inner : Mentions id element) :
      Mentions id (.array element count)
  | referent {referent : Shape} {guarantee : Guarantee} (inner : Mentions id referent) :
      Mentions id (.reference referent guarantee)

/-- What holds of a shape whenever it holds of its parts holds of all shapes. -/
@[elab_as_elim]
theorem parts_induction {motive : Shape → Prop} (scalar : ∀ number, motive (.scalar number))
    (struct : ∀ size align fields, (∀ field ∈ fields, motive field.content) →
      motive (.struct size align fields))
    (union : ∀ size align fields, (∀ field ∈ fields, motive field.content) →
      motive (.union size align fields))
    (tagged : ∀ size align slot variants others,
      (∀ variant ∈ variants, ∀ field ∈ variant.fields, motive field.content) →
      (∀ fields, others = some fields → ∀ field ∈ fields, motive field.content) →
      motive (.tagged size align slot variants others))
    (array : ∀ element count, motive element → motive (.array element count))
    (reference : ∀ referent guarantee, motive referent → motive (.reference referent guarantee))
    (sealed : ∀ name size align, motive (.sealed name size align))
    (named : ∀ id, motive (.named id)) (shape : Shape) : motive shape :=
  @Shape.rec motive (fun fields => ∀ field ∈ fields, motive field.content)
    (fun variants => ∀ variant ∈ variants, ∀ field ∈ variant.fields, motive field.content)
    (fun others => ∀ fields, others = some fields → ∀ field ∈ fields, motive field.content)
    (fun field => motive field.content) (fun variant => ∀ field ∈ variant.fields,
    motive field.content) scalar struct union tagged array reference sealed named (forall_mem_nil _)
    (fun _ _ first rest => forall_mem_cons.mpr ⟨first, rest⟩) (forall_mem_nil _)
    (fun _ _ first rest => forall_mem_cons.mpr ⟨first, rest⟩) (fun _ isNone => nomatch isNone)
    (fun _ each _ isSome => Option.some.inj isSome ▸ each) (fun _ _ held => held)
    (fun _ _ held => held) shape

section Parts

variable (names : DefId → Shape)

theorem replaceFields_eq_map (fields : List (Placed Shape)) :
    replaceFields names fields = fields.map fun field =>
      ⟨field.offset, field.content.replace names⟩ := by
  induction fields with
  | nil => rfl
  | cons _ _ ih => rw [replaceFields, ih, map_cons]

theorem replaceVariants_eq_map (variants : List (Variant Shape)) :
    replaceVariants names variants = variants.map fun variant =>
      ⟨variant.tag, replaceFields names variant.fields⟩ := by
  induction variants with
  | nil => rfl
  | cons _ _ ih => rw [replaceVariants, ih, map_cons]

theorem replaceOthers_eq_map (others : Option (List (Placed Shape))) :
    replaceOthers names others = others.map (replaceFields names) := by
  cases others <;> rfl

end Parts

section Names

variable {names others : DefId → Shape}

theorem replaceFields_congr {fields : List (Placed Shape)}
    (each : ∀ field ∈ fields, field.content.replace names = field.content.replace others) :
    replaceFields names fields = replaceFields others fields := by
  rw [replaceFields_eq_map, replaceFields_eq_map]
  exact map_congr_left fun field member => by rw [each field member]

theorem replaceVariants_congr {variants : List (Variant Shape)}
    (each : ∀ variant ∈ variants, ∀ field ∈ variant.fields,
      field.content.replace names = field.content.replace others) :
    replaceVariants names variants = replaceVariants others variants := by
  rw [replaceVariants_eq_map, replaceVariants_eq_map]
  exact map_congr_left fun variant member => by rw [replaceFields_congr (each variant member)]

theorem replace_congr (shape : Shape) (same : ∀ id, shape.Mentions id → names id = others id) :
    shape.replace names = shape.replace others := by
  induction shape using parts_induction with
  | scalar | sealed => rfl
  | named id => exact same id .named
  | struct _ _ _ ih =>
    rw [replace, replace, replaceFields_congr fun field member =>
      ih field member fun id inner => same id (.struct member inner)]
  | union _ _ _ ih =>
    rw [replace, replace, replaceFields_congr fun field member =>
      ih field member fun id inner => same id (.union member inner)]
  | tagged _ _ _ variants rest ihEach ihRest =>
    have sameVariants := replaceVariants_congr fun variant isVariant field member =>
        ihEach variant isVariant field member fun id inner =>
          same id (.variant isVariant member inner)
    have sameRest : replaceOthers names rest = replaceOthers others rest := by
      cases rest with
      | none => rfl
      | some fields =>
        rw [replaceOthers, replaceOthers, replaceFields_congr fun field member =>
          ihRest fields rfl field member fun id inner => same id (.others member inner)]
    rw [replace, replace, sameVariants, sameRest]
  | array _ _ ih => rw [replace, replace, ih fun id inner => same id (.element inner)]
  | reference _ _ ih => rw [replace, replace, ih fun id inner => same id (.referent inner)]

theorem exists_mentions_of_replace (shape : Shape) {id : DefId}
    (mentions : (shape.replace names).Mentions id) :
    ∃ other, shape.Mentions other ∧ (names other).Mentions id := by
  have within {fields : List (Placed Shape)} {holds : DefId → Prop}
      (ih : ∀ field ∈ fields, (field.content.replace names).Mentions id →
        ∃ other, field.content.Mentions other ∧ (names other).Mentions id)
      (covers : ∀ field ∈ fields, ∀ other, field.content.Mentions other → holds other)
      {field : Placed Shape} (member : field ∈ replaceFields names fields)
      (inner : field.content.Mentions id) : ∃ other, holds other ∧ (names other).Mentions id := by
    rw [replaceFields_eq_map, mem_map] at member
    rcases member with ⟨origin, isOrigin, rfl⟩
    rcases ih origin isOrigin inner with ⟨other, mentionsOther, found⟩
    exact ⟨other, covers origin isOrigin other mentionsOther, found⟩
  induction shape using parts_induction with
  | scalar | sealed => cases mentions
  | named other => exact ⟨other, .named, mentions⟩
  | struct _ _ _ ih =>
    cases mentions with
    | struct member inner => exact within ih (fun _ isField _ => .struct isField) member inner
  | union _ _ _ ih =>
    cases mentions with
    | union member inner => exact within ih (fun _ isField _ => .union isField) member inner
  | tagged _ _ _ _ rest ihEach ihRest =>
    rw [replace, replaceVariants_eq_map, replaceOthers_eq_map] at mentions
    generalize isRest : rest.map (replaceFields names) = replaced at mentions
    cases mentions with
    | variant isVariant member inner =>
      rcases mem_map.mp isVariant with ⟨variant, isOrigin, rfl⟩
      exact within (ihEach variant isOrigin) (fun _ isField _ => .variant isOrigin isField) member
        inner
    | others member inner =>
      rcases Option.map_eq_some_iff.mp isRest with ⟨fields, rfl, rfl⟩
      exact within (ihRest fields rfl) (fun _ isField _ => .others isField) member inner
  | array _ _ ih =>
    cases mentions with
    | element inner =>
      rcases ih inner with ⟨other, mentionsOther, found⟩
      exact ⟨other, .element mentionsOther, found⟩
  | reference _ _ ih =>
    cases mentions with
    | referent inner =>
      rcases ih inner with ⟨other, mentionsOther, found⟩
      exact ⟨other, .referent mentionsOther, found⟩

end Names

theorem replaceFields_named (fields : List (Placed Shape))
    (each : ∀ field ∈ fields, field.content.replace .named = field.content) :
    replaceFields .named fields = fields := by
  induction fields with
  | nil => rfl
  | cons _ _ ih =>
    rw [forall_mem_cons] at each
    rw [replaceFields, each.1, ih each.2]

theorem replace_named (shape : Shape) : shape.replace .named = shape := by
  induction shape using parts_induction with
  | scalar | sealed | named => rfl
  | struct _ _ _ ih | union _ _ _ ih => rw [replace, replaceFields_named _ ih]
  | tagged _ _ _ variants others ihEach ihRest =>
    have sameVariants : replaceVariants .named variants = variants := by
      clear ihRest
      induction variants with
      | nil => rfl
      | cons _ _ ih =>
        rw [forall_mem_cons] at ihEach
        rw [replaceVariants, replaceFields_named _ ihEach.1, ih ihEach.2]
    have sameOthers : replaceOthers .named others = others := by
      cases others with
      | none => rfl
      | some fields => rw [replaceOthers, replaceFields_named _ (ihRest fields rfl)]
    rw [replace, sameVariants, sameOthers]
  | array _ _ ih | reference _ _ ih => rw [replace, ih]

theorem not_named_replace {names : DefId → Shape} {shape : Shape}
    (notNamed : ¬ ∃ id, shape = .named id) :
    ¬ ∃ id, shape.replace names = .named id := by
  rintro ⟨_, same⟩
  cases shape with
  | named other => exact notNamed ⟨other, rfl⟩
  | _ => simp [replace] at same

end Recast.Shape
