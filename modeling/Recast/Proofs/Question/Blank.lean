import Recast.Proofs.Arena.Lays
import Recast.Proofs.Assembly.Meaning
import Recast.Proofs.Inclusion.Blank
import Recast.Proofs.Question

/-!
# Bytes without a value take anything

Bytes without a value are laid out as padding (`Setting.padding_of_assemble_uninit`). So a value of
any shape of a fixed size may be taken for them, if there are enough, and no assumption is needed
(`Setting.recast_uninit`).
-/

namespace Recast

open Workshop Arena

theorem Pattern.isPadding_padding (width : Nat) : (Pattern.padding width).isPadding := by
  rw [padding, replicate]
  split
  · rfl
  · split
    · rename_i none
      cases none
    · split <;> rfl

theorem Arena.padding_define {arena larger : Arena} {id : LayoutId} {pattern : Pattern}
    (inside : id.index < arena.layouts.size) (defined : arena.define id pattern = .ok larger) :
    (larger.layout id).padding = pattern.isPadding := by
  rcases define_eq_ok defined with ⟨_, _, _, isLayouts⟩
  rw [(layout_define isLayouts inside).1]
  rfl

namespace Setting

variable {setting : Setting} {source : Shape} {inquiry : Inquiry} {arena larger : Arena}
  {size width : Nat}

theorem padding_of_assemble_uninit {id : LayoutId} (inside : width ≤ Extent.cap)
    (assembled : setting.assemble (.scalar (.uninit width)) totalLength arena = .ok (id, larger)) :
    (larger.layout id).size = some width ∧ (larger.layout id).padding := by
  rcases assemble_eq_ok assembled with ⟨_, isOk, _, rfl⟩
  rcases Shape.assemble_eq_ok isOk with ⟨_, _, ⟨⟩, isId, defined⟩
  have isNew : id.index < arena.reserve.2.layouts.size := by simp [isId, reserve, Workshop.size]
  constructor
  · rw [(lays_define isNew defined).size]
    exact Pattern.size_of_fits (Pattern.fits_padding inside) inside
  · rw [padding_define isNew defined]
    exact Pattern.isPadding_padding width

/-- Memory with a value of any shape of a fixed size may be taken for that many bytes without a
value, or for more of them, whatever is assumed, and nothing needs to be. -/
theorem recast_uninit (words : setting.FitsWords) (sourceWords : source.FitsWords)
    (assembles : setting.Assembles source (.scalar (.uninit width)) inquiry arena)
    (isSize : (arena.layout inquiry.1).size = some size) (enough : size ≤ width)
    (inside : width ≤ Extent.cap) (assumed : Assumptions) :
    Budget.ForLarge fun budget =>
      { setting with budget }.recast source (.scalar (.uninit width)) assumed = .ok ∅ := by
  have isPadding : (arena.layout inquiry.2).size = some width ∧
      (arena.layout inquiry.2).padding := by
    rcases assembles with ⟨_, _, second⟩
    exact padding_of_assemble_uninit inside second
  rcases isPadding with ⟨isWidth, padding⟩
  rcases assembles.plotted words sourceWords (.scalar inside) with
    ⟨⟨_, charts⟩, sourceInside, imageInside⟩
  have fewer : arena.bytes inquiry.1 ≤ arena.bytes inquiry.2 := by
    rw [bytes, bytes, isSize, isWidth]
    exact enough
  let lower : Rules := { assumed := ∅, outlives := setting.outlives, related := (· = inquiry) }
  have bounds : (setting.terms arena assumed).Bounds True lower := by
    refine ⟨?_, ?_, fun _ _ lives => lives, ?_⟩
    · simp [lower]
    · simp [lower]
    · rintro _ isInquiry
      rw [isInquiry]
      exact Rules.sustains_blank charts sourceInside imageInside ⟨size, isSize⟩ ⟨width, isWidth⟩
        padding fewer
  rcases assembles.recast_accepts words sourceWords (.scalar inside) bounds rfl with
    ⟨exercised, _, least, accepts⟩
  refine ⟨least, fun budget enoughPairs enoughDepth => ?_⟩
  have accepted := accepts budget enoughPairs enoughDepth
  have assemblesToo : { setting with budget }.Assembles source (.scalar (.uninit width)) inquiry
      arena :=
    assembles
  have nothing : exercised = ∅ := Terms.check_of_blank charts ⟨width, isWidth⟩ padding imageInside
    (assemblesToo.recast_eq_ok_iff.mp accepted)
  exact nothing ▸ accepted

/-- A reference to a recursive referent, regions under invariants, a choice that has no value and a
node with its link are all forgotten by sixty-four bytes. -/
theorem recast_uninit_hoard :
    let setting : Setting := { catalog := .nodes, outlives := fun _ _ => false }
    let hoard : Shape := .struct 40 8
      [⟨0, .reference (.named ⟨0⟩) ⟨8, .exclusive, .static⟩⟩,
        ⟨8, .array (.sealed "Secret" 2 1) (.exact 3)⟩,
        ⟨14, .union 2 1 [⟨0, .scalar .bool⟩, ⟨1, .scalar ⟨1, 1, .ranges []⟩⟩]⟩, ⟨16, .named ⟨0⟩⟩]
    ∃ found, setting.assembled? hoard (.scalar (.uninit 64)) = some found ∧
      (found.2.layout found.1.1).size = some 40 ∧ ∀ assumed : Assumptions,
      Budget.ForLarge fun budget =>
        { setting with budget }.recast hoard (.scalar (.uninit 64)) assumed = .ok ∅ := by
  intro setting hoard
  have sized : ((setting.assembled? hoard (.scalar (.uninit 64))).bind fun found =>
      (found.2.layout found.1.1).size) = some 40 := by
    decide +kernel
  rcases Option.bind_eq_some_iff.mp sized with ⟨found, isFound, isSize⟩
  have words : setting.FitsWords := ⟨.of_fits rfl, fitsWords_machine, fitsWords_noLength,
    fitsWords_noLength⟩
  exact ⟨found, isFound, isSize, recast_uninit words (.of_fits rfl)
    (assembles_of_assembled? isFound) isSize (by decide) (by decide)⟩

end Setting

end Recast
