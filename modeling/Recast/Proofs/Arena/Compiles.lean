import Recast.Proofs.Arena.Charted

/-!
# Patterns in shape can be compiled

The only defect that a compilation can find is an option of a choice that takes no bytes where
others do. The options of a pattern in shape are all of one size, and what takes bytes ends in a
state of its own. So a layout can be defined by every pattern in shape.
-/

namespace Recast

namespace Pattern

open Fragment

mutual

theorem exists_compile :
    (pattern : Pattern) → (site : Site) → {extent : Option Nat} → pattern.Spans extent →
    site.start.index < site.nextState →
    ∃ fragment, pattern.compile site = .ok fragment ∧ (fragment.stop = site.start → extent = some 0)
  | leaf _, _, _, _, ready => ⟨_, rfl, fun same => absurd same (fresh_ne_start ready)⟩
  | seq parts, site, _, spans, ready => by
    simpa only [compile] using exists_compileSeq parts site (spans_seq spans) ready
  | alt options, site, _, spans, ready => by
    rcases spans_alt spans with ⟨width, rfl, inside, fits⟩
    simp only [compile, spans.size_eq, Option.getD_some]
    split
    · exact ⟨_, rfl, fun _ => rfl⟩
    · rename_i positive
      rcases exists_compileAlt options { site with nextState := site.nextState + 1 } site.fresh fits
        inside positive (Nat.lt_succ_of_lt ready) with ⟨others, isOthers⟩
      rw [isOthers]
      refine ⟨_, rfl, fun same => absurd (?_ : site.fresh = site.start) (fresh_ne_start ready)⟩
      exact (aside_compileAlt options (Nat.lt_succ_of_lt ready) isOthers).stop.symm.trans same
  | rep body count, site, _, spans, ready => by
    rcases spans_rep spans with ⟨_, bodySpans, _⟩
    rcases exists_compile body site.body bodySpans ready_body with ⟨_, isInner, _⟩
    simp only [compile, isInner]
    refine ⟨_, rfl, fun same => ?_⟩
    rw [← same] at ready
    exact absurd ready (Nat.not_lt_of_le (Nat.le_add_right _ _))

theorem exists_compileSeq : (parts : List Pattern) → (site : Site) → {extent : Option Nat} →
    SpanTogether extent parts → site.start.index < site.nextState →
    ∃ fragment, compileSeq parts site = .ok fragment ∧
      (fragment.stop = site.start → extent = some 0)
  | [], _, _, spans, _ => ⟨_, rfl, fun _ => spanTogether_nil spans⟩
  | part :: rest, site, _, spans, ready => by
    rcases spanTogether_cons spans with ⟨front, back, partSpans, restSpan, joined, _⟩
    rcases exists_compile part site partSpans ready with ⟨first, isFirst, still⟩
    have nextReady := (tidy_compile part ready isFirst).stop_lt ready
    rcases exists_compileSeq rest (site.after first (Extent.satAdd site.offset (part.size.getD 0)))
      restSpan nextReady with ⟨second, isSecond, stays⟩
    simp only [compileSeq, isFirst, isSecond]
    refine ⟨_, rfl, fun same => ?_⟩
    have notBehind : second.stop = first.stop := by
      refine Decidable.byContradiction fun moves => ?_
      rcases (tidy_compileSeq rest nextReady isSecond).stop_owned moves with ⟨_, _, isStop, _⟩
      rw [← same, show (first.followedBy site second).stop = second.stop from rfl, isStop] at ready
      simp only [Site.after] at ready
      omega
    rw [joined, still (notBehind.symm.trans same), stays notBehind]
    rfl

theorem exists_compileAlt : (options : List Pattern) → (site : Site) → (target : StateId) →
    {width : Nat} → FitEach options width → width ≤ Extent.cap → width ≠ 0 →
    site.start.index < site.nextState → ∃ fragment, compileAlt options site target = .ok fragment
  | [], _, _, _, _, _, _, _ => ⟨_, rfl⟩
  | option :: rest, site, target, width, fits, inside, positive, ready => by
    simp only [FitEach] at fits
    have spans : option.Spans (some width) := ⟨fits.1, inside⟩
    rcases exists_compile option site spans ready with ⟨first, isFirst, still⟩
    have moves : first.stop ≠ site.start := fun same => positive (Option.some.inj (still same))
    rcases exists_compileAlt rest (site.beside first) target fits.2 inside positive
      (Nat.lt_add_right _ ready) with ⟨_, isOthers⟩
    simp only [compileAlt, isFirst, moves, if_false, isOthers]
    exact ⟨_, rfl⟩

end

end Pattern

theorem Arena.exists_define {arena : Arena} {id : LayoutId} {pattern : Pattern}
    (shaped : pattern.Shaped) : ∃ larger, arena.define id pattern = .ok larger := by
  rcases shaped.exists_spans with ⟨_, spans⟩
  rcases Pattern.exists_compile pattern arena.newSite spans ready_newSite with ⟨_, compiled, _⟩
  rw [Arena.define_eq, compiled]
  exact ⟨_, rfl⟩

end Recast
