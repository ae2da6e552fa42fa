import Mathlib.Data.List.Perm.Basic
import Recast.Assembly.Fields
import Recast.Proofs.Pattern.Spells

/-!
# Patterns at offsets

Structs, unions and variants become sequences of patterns with padding in between. Such a sequence
spells what values of the patterns compose at these offsets (`spells_filled`). As what they compose
does not depend on their order, it does not matter either that fields are put in the order of their
offsets.
-/

namespace Recast

open List Placed

def Placed.map {α β : Type} (f : α → β) (item : Placed α) : Placed β :=
  ⟨item.offset, f item.content⟩

namespace Pattern

variable {parts : List (Placed Pattern)} {pieces : List (Placed (List Symbol))} {start stop : Nat}
  {symbols whole : List Symbol}

/-- Where the last of the patterns ends; one without a fixed size counts for nothing. -/
def behind : (start : Nat) → List (Placed Pattern) → Nat
  | start, [] => start
  | _, part :: rest => behind (part.offset + part.content.size.getD 0) rest

def spaced : (start : Nat) → List (Placed Pattern) → List Pattern
  | _, [] => []
  | start, part :: rest =>
    padding (part.offset - start) :: part.content :: spaced (part.offset + part.content.size.getD 0)
      rest

/-- The patterns come in the order of their offsets, none before the last one has ended, and all but
the last have a fixed size. -/
def Apart : (start : Nat) → List (Placed Pattern) → Prop
  | _, [] => True
  | start, part :: rest =>
    start ≤ part.offset ∧ (rest ≠ [] → part.content.size ≠ none) ∧
      Apart (part.offset + part.content.size.getD 0) rest

def SpellsAt (part : Placed Pattern) (piece : Placed (List Symbol)) : Prop :=
  piece.offset = part.offset ∧ part.content.Spells piece.content

theorem Shaped.extent_eq {pattern : Pattern} (shaped : pattern.Shaped)
    (sized : pattern.size ≠ none) (spells : pattern.Spells symbols) :
    Symbol.extent symbols = pattern.size.getD 0 := by
  rcases Option.ne_none_iff_exists'.mp sized with ⟨_, isWidth⟩
  rw [isWidth, Option.getD_some]
  exact extent_of_spells (shaped.fits_of_size isWidth).1 spells

section

variable (shaped : ∀ part ∈ parts, part.content.Shaped)
include shaped

theorem spellsInTurn_spaced (apart : Apart start parts) :
    SpellsInTurn (spaced start parts) symbols ↔
      ∃ pieces, Forall₂ SpellsAt parts pieces ∧ symbols = Symbol.spaced start pieces := by
  induction parts generalizing start symbols with
  | nil =>
    constructor
    · rintro rfl
      exact ⟨[], .nil, rfl⟩
    · rintro ⟨_, ⟨⟩, rfl⟩
      rfl
  | cons part rest ih =>
    rcases apart with ⟨_, sized, apartRest⟩
    rw [forall_mem_cons] at shaped
    -- Where a pattern is followed by another one, its values end where it ends itself.
    have next {piece : Placed (List Symbol)} {others : List (Placed (List Symbol))}
        (spells : SpellsAt part piece) (each : Forall₂ SpellsAt rest others) :
        Symbol.spaced (piece.offset + Symbol.extent piece.content) others =
          Symbol.spaced (part.offset + part.content.size.getD 0) others := by
      cases each with
      | nil => rfl
      | cons => rw [shaped.1.extent_eq (sized (by simp)) spells.2, spells.1]
    simp only [spaced, SpellsInTurn, spells_padding, ih shaped.2 apartRest]
    constructor
    · rintro ⟨_, _, rfl, ⟨value, _, isValue, ⟨_, each, rfl⟩, rfl⟩, rfl⟩
      have spells : SpellsAt part ⟨part.offset, value⟩ := ⟨rfl, isValue⟩
      refine ⟨_, .cons spells each, ?_⟩
      rw [Symbol.spaced, next spells each, append_assoc]
    · rintro ⟨_, _ | ⟨spells, each⟩, rfl⟩
      refine ⟨_, _, rfl, ⟨_, _, spells.2, ⟨_, each, rfl⟩, rfl⟩, ?_⟩
      rw [Symbol.spaced, next spells each, spells.1, append_assoc]

theorem Apart.ofPieces (apart : Apart start parts) (each : Forall₂ SpellsAt parts pieces) :
    Symbol.Apart start pieces := by
  induction each generalizing start with
  | nil => trivial
  | cons spells each ih =>
    rcases apart with ⟨ordered, sized, apartRest⟩
    rw [forall_mem_cons] at shaped
    refine ⟨spells.1 ▸ ordered, ?_⟩
    cases each with
    | nil => trivial
    | cons =>
      rw [shaped.1.extent_eq (sized (by simp)) spells.2, spells.1]
      exact ih shaped.2 apartRest

theorem behind_pieces (sized : ∀ part ∈ parts, part.content.size ≠ none)
    (each : Forall₂ SpellsAt parts pieces) :
    Symbol.behind start pieces = behind start parts := by
  induction each generalizing start with
  | nil => rfl
  | cons spells _ ih =>
    rw [forall_mem_cons] at shaped sized
    rw [Symbol.behind, behind, shaped.1.extent_eq sized.1 spells.2, spells.1, ih shaped.2 sized.2]

end

theorem solid_pieces (leaves : ∀ part ∈ parts, part.content.Leaves Token.Solid)
    (each : Forall₂ SpellsAt parts pieces) : ∀ piece ∈ pieces, Symbol.Solid piece.content := by
  induction each with
  | nil => simp
  | cons spells _ ih =>
    rw [forall_mem_cons] at leaves ⊢
    exact ⟨solid_of_spells leaves.1 spells.2, ih leaves.2⟩

theorem le_behind (apart : Apart start parts) : start ≤ behind start parts := by
  induction parts generalizing start with
  | nil => exact Nat.le_refl _
  | cons part rest ih =>
    rcases apart with ⟨ordered, _, apartRest⟩
    have later := ih apartRest
    rw [behind]
    omega

section

variable (shaped : ∀ part ∈ parts, part.content.Shaped)
  (sized : ∀ part ∈ parts, part.content.size ≠ none)
include shaped sized

theorem fitTogether_spaced (apart : Apart start parts) (inside : behind start parts ≤ Extent.cap) :
    FitTogether (spaced start parts) (behind start parts - start) := by
  induction parts generalizing start with
  | nil => simp [spaced, behind, FitTogether]
  | cons part rest ih =>
    rcases apart with ⟨ordered, _, apartRest⟩
    rw [forall_mem_cons] at shaped sized
    have later := le_behind apartRest
    rcases Option.ne_none_iff_exists'.mp sized.1 with ⟨width, isWidth⟩
    simp only [behind, isWidth, Option.getD_some] at inside later apartRest ⊢
    simp only [spaced, isWidth, Option.getD_some, FitTogether]
    refine ⟨part.offset - start, _, fits_padding (by omega), ⟨width, _,
      (shaped.1.fits_of_size isWidth).1, ih shaped.2 sized.2 apartRest inside, rfl⟩, by omega⟩

theorem fits_filled (apart : Apart 0 parts) (fits : behind 0 parts ≤ stop)
    (inside : stop ≤ Extent.cap) :
    FitTogether (spaced 0 parts ++ [padding (stop - behind 0 parts)]) stop := by
  rw [fitTogether_append]
  refine ⟨_, stop - behind 0 parts, fitTogether_spaced shaped sized apart (by omega), ?_, by omega⟩
  simpa [FitTogether] using fits_padding (by omega)

end

theorem sumOfSizes_eq_none {patterns : List Pattern} :
    sumOfSizes patterns = none ↔ ∃ pattern ∈ patterns, pattern.size = none := by
  induction patterns with
  | nil => simp [sumOfSizes]
  | cons part rest ih =>
    rw [exists_mem_cons_iff, ← ih, sumOfSizes]
    rcases part.size with _ | _
    · simp
    · rcases sumOfSizes rest with _ | _ <;> simp

theorem size_concat_eq_none {patterns : List Pattern} :
    (concat patterns).size = none ↔ ∃ pattern ∈ patterns, pattern.size = none := by
  have part (pattern : Pattern) : (∃ part ∈ pattern.parts, part.size = none) ↔
      pattern.size = none := by
    cases pattern with
    | seq => simp only [Pattern.parts, size, sumOfSizes_eq_none]
    | leaf | alt | rep => simp [Pattern.parts]
  simp only [concat, size, sumOfSizes_eq_none, mem_flatMap]
  constructor
  · rintro ⟨inner, ⟨pattern, member, inside⟩, unsized⟩
    exact ⟨pattern, member, (part pattern).mp ⟨inner, inside, unsized⟩⟩
  · rintro ⟨pattern, member, unsized⟩
    rcases (part pattern).mpr unsized with ⟨inner, inside, innerUnsized⟩
    exact ⟨inner, ⟨pattern, member, inside⟩, innerUnsized⟩

theorem size_padding_ne_none (width : Nat) : (padding width).size ≠ none := by
  have cell : (byte .uninit).size = some 1 := rfl
  rw [padding, replicate]
  split
  · exact Option.some_ne_none _
  · simp only [cell, Option.some.injEq, Nat.one_ne_zero, if_false]
    split
    · exact Option.some_ne_none _
    · simp [size, cell]

theorem size_concat_spaced_eq_none :
    (concat (spaced start parts)).size = none ↔ ∃ part ∈ parts, part.content.size = none := by
  rw [size_concat_eq_none]
  induction parts generalizing start with
  | nil => simp [spaced]
  | cons _ _ ih => simp [spaced, size_padding_ne_none, ih]

section

variable (shaped : ∀ part ∈ parts, part.content.Shaped)
  (leaves : ∀ part ∈ parts, part.content.Leaves Token.Solid)
include shaped leaves

/-- Patterns at offsets, padded up to the end of the whole. -/
theorem spells_filled (sized : ∀ part ∈ parts, part.content.size ≠ none) (apart : Apart start parts)
    (inside : behind start parts ≤ stop) :
    SpellsInTurn (spaced start parts ++ [padding (stop - behind start parts)]) whole ↔
      ∃ pieces, Forall₂ SpellsAt parts pieces ∧ Symbol.Composes start stop pieces whole := by
  rw [spellsInTurn_append]
  simp only [spellsInTurn_spaced shaped apart, spellsInTurn_singleton, spells_padding]
  constructor
  · rintro ⟨_, _, ⟨pieces, each, rfl⟩, rfl, rfl⟩
    refine ⟨pieces, each, ?_⟩
    rw [Symbol.composes_iff (apart.ofPieces shaped each) (solid_pieces leaves each),
      behind_pieces shaped sized each]
    exact ⟨inside, rfl⟩
  · rintro ⟨pieces, each, composes⟩
    rw [Symbol.composes_iff (apart.ofPieces shaped each) (solid_pieces leaves each),
      behind_pieces shaped sized each] at composes
    exact ⟨_, _, ⟨pieces, each, rfl⟩, rfl, composes.2⟩

theorem spells_unfilled (apart : Apart start parts) :
    SpellsInTurn (spaced start parts) whole ↔ ∃ pieces, Forall₂ SpellsAt parts pieces ∧
      Symbol.Composes start (Symbol.behind start pieces) pieces whole := by
  rw [spellsInTurn_spaced shaped apart]
  refine exists_congr fun _ => and_congr_right fun each => ?_
  rw [Symbol.composes_iff (apart.ofPieces shaped each) (solid_pieces leaves each)]
  simp

end

end Pattern

section Order

variable {α : Type} {related : α → Placed (List Symbol) → Prop} {items others : List α}
  {start stop : Nat} {whole : List Symbol}

theorem Placed.perm_sortByOffset (items : List (Placed α)) : (sortByOffset items).Perm items := by
  have insert (item : Placed α) (rest : List (Placed α)) : (insertByOffset item rest).Perm
      (item :: rest) := by
    induction rest with
    | nil => exact .refl _
    | cons head tail ih =>
      simp only [insertByOffset]
      split
      · exact .refl _
      · exact (ih.cons head).trans (.swap item head tail)
  induction items with
  | nil => exact .nil
  | cons head _ ih => exact (insert head _).trans (ih.cons head)

theorem exists_composes_of_perm (perm : items.Perm others)
    (composed : ∃ pieces, Forall₂ related items pieces ∧ Symbol.Composes start stop pieces whole) :
    ∃ pieces, Forall₂ related others pieces ∧ Symbol.Composes start stop pieces whole := by
  rcases composed with ⟨_, each, composes⟩
  rcases perm_comp_forall₂ perm.symm each with ⟨sorted, eachSorted, sortedPerm⟩
  exact ⟨sorted, eachSorted, composes.congr fun _ => sortedPerm.mem_iff⟩

theorem exists_refill (places : List (Placed α)) (holds : Placed α → List Symbol → Prop)
    (composed : List (Placed (List Symbol)) → Prop) :
    (∃ values, Forall₂ holds places values ∧ composed (refill places values)) ↔
    ∃ pieces, Forall₂ (fun (place : Placed α) piece => piece.offset = place.offset ∧
      holds place piece.content) places pieces ∧ composed pieces := by
  constructor
  · rintro ⟨_, each, composes⟩
    refine ⟨_, ?_, composes⟩
    clear composes
    induction each with
    | nil => exact .nil
    | cons here _ ih => exact .cons ⟨rfl, here⟩ ih
  · rintro ⟨pieces, each, composes⟩
    refine ⟨pieces.map content, ?_, ?_⟩
    · clear composes
      induction each with
      | nil => exact .nil
      | cons here _ ih => exact .cons here.2 ih
    · have same : refill places (pieces.map content) = pieces := by
        clear composes
        induction each with
        | nil => rfl
        | cons here _ ih =>
          simp only [refill, map_cons, zipWith_cons_cons, ← here.1] at ih ⊢
          rw [ih]
      exact same.symm ▸ composes

end Order

end Recast
