import Mathlib.Data.List.Forall2
import Recast.Proofs.Pattern.Ranges

/-!
# Mirrored patterns

Two patterns mirror each other if they are the same but for the layouts of referents, where it is
given which ones stand for each other. Such patterns have the same size and the same traits, and
whatever is made of them in the same way mirrors each other again.
-/

namespace Recast

open List Pattern

theorem exists_of_mem_left {α β : Type} {related : α → β → Prop} {items : List α} {others : List β}
    (each : Forall₂ related items others) {item : α} (member : item ∈ items) :
    ∃ other ∈ others, related item other := by
  induction each with
  | nil => cases member
  | cons first _ ih =>
    rcases mem_cons.mp member with rfl | later
    · exact ⟨_, mem_cons_self, first⟩
    · rcases ih later with ⟨other, isOther, isRelated⟩
      exact ⟨other, mem_cons_of_mem _ isOther, isRelated⟩

section Mirrors

variable (layouts : LayoutId → LayoutId → Prop)

inductive Token.Mirrors : Token → Token → Prop
  | cell (contents : Cell) : Mirrors (.cell contents) (.cell contents)
  | reference {source destination : Reference} (same : source.toGuarantee = destination.toGuarantee)
      (width : source.width = destination.width)
      (referent : layouts source.referent destination.referent) :
      Mirrors (.reference source) (.reference destination)
  | marker (name : String) : Mirrors (.marker name) (.marker name)

mutual

/-- The same patterns but for the layouts of referents. -/
inductive Pattern.Mirrors : Pattern → Pattern → Prop
  | leaf {token image : Token} (mirrors : token.Mirrors layouts image) :
      Mirrors (.leaf token) (.leaf image)
  | seq {parts images : List Pattern} (each : MirrorEach parts images) :
      Mirrors (.seq parts) (.seq images)
  | alt {options images : List Pattern} (each : MirrorEach options images) :
      Mirrors (.alt options) (.alt images)
  | rep {body image : Pattern} (mirrors : Mirrors body image) (count : Count) :
      Mirrors (.rep body count) (.rep image count)

inductive Pattern.MirrorEach : List Pattern → List Pattern → Prop
  | nil : MirrorEach [] []
  | cons {part image : Pattern} {rest images : List Pattern} (first : Mirrors part image)
      (others : MirrorEach rest images) : MirrorEach (part :: rest) (image :: images)

end

end Mirrors

variable {layouts more : LayoutId → LayoutId → Prop} {token image : Token}

theorem Token.Mirrors.width_eq (mirrors : token.Mirrors layouts image) :
    token.width = image.width := by
  cases mirrors with
  | cell => rfl
  | reference _ width => exact width
  | marker => rfl

theorem Token.Mirrors.mono (imp : ∀ layout other, layouts layout other → more layout other)
    (mirrors : token.Mirrors layouts image) : token.Mirrors more image := by
  cases mirrors with
  | cell contents => exact .cell contents
  | reference same width referent => exact .reference same width (imp _ _ referent)
  | marker name => exact .marker name

theorem Token.Mirrors.symm (mirrors : token.Mirrors layouts image) :
    image.Mirrors (flip layouts) token := by
  cases mirrors with
  | cell contents => exact .cell contents
  | reference same width referent => exact .reference same.symm width.symm referent
  | marker name => exact .marker name

theorem Token.Mirrors.self (each : ∀ layout other, layouts layout other → more layout layout)
    (mirrors : token.Mirrors layouts image) : token.Mirrors more token := by
  cases mirrors with
  | cell contents => exact .cell contents
  | reference _ _ referent => exact .reference rfl rfl (each _ _ referent)
  | marker name => exact .marker name

namespace Pattern

variable {pattern image : Pattern} {patterns images : List Pattern}

theorem mirrorEach_iff :
    MirrorEach layouts patterns images ↔ Forall₂ (Mirrors layouts) patterns images := by
  constructor
  · intro each
    induction patterns generalizing images with
    | nil =>
      cases each
      exact .nil
    | cons _ _ ih =>
      cases each with
      | cons first others => exact .cons first (ih others)
  · intro each
    induction each with
    | nil => exact .nil
    | cons first _ ih => exact .cons first ih

mutual

theorem Mirrors.mono (imp : ∀ layout other, layouts layout other → more layout other) :
    {pattern image : Pattern} → pattern.Mirrors layouts image → pattern.Mirrors more image
  | .leaf _, _, .leaf mirrors => .leaf (mirrors.mono imp)
  | .seq _, _, .seq each => .seq (each.mono imp)
  | .alt _, _, .alt each => .alt (each.mono imp)
  | .rep _ _, _, .rep mirrors count => .rep (mirrors.mono imp) count

theorem MirrorEach.mono (imp : ∀ layout other, layouts layout other → more layout other) :
    {patterns images : List Pattern} → MirrorEach layouts patterns images →
    MirrorEach more patterns images
  | [], _, .nil => .nil
  | _ :: _, _, .cons first others => .cons (first.mono imp) (others.mono imp)

end

mutual

theorem Mirrors.symm :
    {pattern image : Pattern} → pattern.Mirrors layouts image → image.Mirrors (flip layouts) pattern
  | .leaf _, _, .leaf mirrors => .leaf mirrors.symm
  | .seq _, _, .seq each => .seq each.symm
  | .alt _, _, .alt each => .alt each.symm
  | .rep _ _, _, .rep mirrors count => .rep mirrors.symm count

theorem MirrorEach.symm :
    {patterns images : List Pattern} → MirrorEach layouts patterns images →
    MirrorEach (flip layouts) images patterns
  | [], _, .nil => .nil
  | _ :: _, _, .cons first others => .cons first.symm others.symm

end

mutual

theorem Mirrors.leaves {holds : Token → Prop}
    (each : ∀ token other : Token, token.Mirrors layouts other → holds token) :
    {pattern image : Pattern} → pattern.Mirrors layouts image → pattern.Leaves holds
  | .leaf _, _, .leaf mirrors => each _ _ mirrors
  | .seq _, _, .seq parts => parts.leaves each
  | .alt _, _, .alt options => options.leaves each
  | .rep body _, _, .rep mirrors _ =>
    have inner : body.Leaves holds := mirrors.leaves each
    inner

theorem MirrorEach.leaves {holds : Token → Prop}
    (each : ∀ token other : Token, token.Mirrors layouts other → holds token) :
    {patterns images : List Pattern} → MirrorEach layouts patterns images →
    LeavesOfAll holds patterns
  | [], _, .nil => trivial
  | _ :: _, _, .cons first others => ⟨first.leaves each, others.leaves each⟩

end

mutual

theorem mirrors_self :
    {pattern : Pattern} → pattern.Leaves (fun token => token.Mirrors layouts token) →
    pattern.Mirrors layouts pattern
  | .leaf _, leaves => .leaf leaves
  | .seq _, leaves => .seq (mirrorEach_self leaves)
  | .alt _, leaves => .alt (mirrorEach_self leaves)
  | .rep body count, leaves =>
    have inner : body.Leaves (fun token => token.Mirrors layouts token) := leaves
    .rep (mirrors_self inner) count

theorem mirrorEach_self : {patterns : List Pattern} →
    LeavesOfAll (fun token => token.Mirrors layouts token) patterns →
    MirrorEach layouts patterns patterns
  | [], _ => .nil
  | _ :: _, leaves => .cons (mirrors_self leaves.1) (mirrorEach_self leaves.2)

end

theorem Mirrors.self (each : ∀ layout other, layouts layout other → more layout layout)
    (mirrors : pattern.Mirrors layouts image) : pattern.Mirrors more pattern :=
  mirrors_self (mirrors.leaves fun _ _ same => same.self each)

mutual

theorem Mirrors.size_eq :
    {pattern image : Pattern} → pattern.Mirrors layouts image → pattern.size = image.size
  | .leaf _, _, .leaf mirrors => congrArg some mirrors.width_eq
  | .seq _, _, .seq each => each.sumOfSizes_eq
  | .alt _, _, .alt each => each.largestSize_eq
  | .rep _ _, _, .rep mirrors (.exact _) => by simp only [size, mirrors.size_eq]
  | .rep _ _, _, .rep _ (.atLeast _) => rfl

theorem MirrorEach.sumOfSizes_eq :
    {patterns images : List Pattern} → MirrorEach layouts patterns images →
      sumOfSizes patterns = sumOfSizes images
  | [], _, .nil => rfl
  | _ :: _, _, .cons first others => by simp only [sumOfSizes, first.size_eq, others.sumOfSizes_eq]

theorem MirrorEach.largestSize_eq :
    {patterns images : List Pattern} → MirrorEach layouts patterns images →
      largestSize patterns = largestSize images
  | [], _, .nil => rfl
  | _ :: _, _,
      .cons first others => by simp only [largestSize, first.size_eq, others.largestSize_eq]

end

mutual

theorem Mirrors.hasValue_eq :
    {pattern image : Pattern} → pattern.Mirrors layouts image → pattern.hasValue = image.hasValue
  | .leaf _, _, .leaf _ => rfl
  | .seq _, _, .seq each => each.allHaveValue_eq
  | .alt _, _, .alt each => each.anyHasValue_eq
  | .rep _ _, _, .rep mirrors _ => by simp only [hasValue, mirrors.hasValue_eq]

theorem MirrorEach.allHaveValue_eq :
    {patterns images : List Pattern} → MirrorEach layouts patterns images →
      allHaveValue patterns = allHaveValue images
  | [], _, .nil => rfl
  | _ :: _, _,
      .cons first others => by simp only [allHaveValue, first.hasValue_eq, others.allHaveValue_eq]

theorem MirrorEach.anyHasValue_eq :
    {patterns images : List Pattern} → MirrorEach layouts patterns images →
      anyHasValue patterns = anyHasValue images
  | [], _, .nil => rfl
  | _ :: _, _,
      .cons first others => by simp only [anyHasValue, first.hasValue_eq, others.anyHasValue_eq]

end

theorem mirrors_cell (contents : Cell) : (byte contents).Mirrors layouts (byte contents) :=
  .leaf (.cell contents)

theorem Mirrors.parts (mirrors : pattern.Mirrors layouts image) :
    Forall₂ (Mirrors layouts) pattern.parts image.parts := by
  cases mirrors with
  | leaf mirrors => exact .cons (.leaf mirrors) .nil
  | seq each => exact mirrorEach_iff.mp each
  | alt each => exact .cons (.alt each) .nil
  | rep mirrors count => exact .cons (.rep mirrors count) .nil

theorem Mirrors.andThen {next other : Pattern} (first : pattern.Mirrors layouts image)
    (second : next.Mirrors layouts other) :
    (pattern.andThen next).Mirrors layouts (image.andThen other) :=
  .seq (mirrorEach_iff.mpr (rel_append first.parts second.parts))

theorem mirrors_concat (each : Forall₂ (Mirrors layouts) patterns images) :
    (concat patterns).Mirrors layouts (concat images) := by
  refine .seq (mirrorEach_iff.mpr ?_)
  induction each with
  | nil => exact .nil
  | cons first _ ih =>
    simp only [flatMap_cons]
    exact rel_append first.parts ih

theorem mirrors_alt (each : Forall₂ (Mirrors layouts) patterns images) :
    (alt patterns).Mirrors layouts (alt images) :=
  .alt (mirrorEach_iff.mpr each)

theorem Mirrors.replicate (mirrors : pattern.Mirrors layouts image) (count : Count) :
    (pattern.replicate count).Mirrors layouts (image.replicate count) := by
  simp only [Pattern.replicate, mirrors.size_eq, mirrors.hasValue_eq]
  split
  · exact .seq .nil
  · split
    · split
      · exact .seq .nil
      · exact .alt .nil
    · split
      · exact mirrors
      · exact .rep mirrors count

theorem mirrors_padding (width : Nat) : (padding width).Mirrors layouts (padding width) :=
  (mirrors_cell _).replicate _

theorem mirrors_ofRanges (order : ByteOrder) (width : Nat) (ranges : List Range) :
    (ofRanges order width ranges).Mirrors layouts (ofRanges order width ranges) :=
  mirrors_self (leaves_ofRanges_of_cells .cell order width ranges)

end Pattern

end Recast
