import Recast.Proofs.Question.Reach

/-!
# Regions under invariants are not made up

A value with a region under invariants can be had from plain bytes only if it is assumed that the
region may be written. Each walk of a layout for such values passes the start of a region
(`Arena.Unfolds.exists_marker`), and what reads letters that are not of a region passes none unless
safety is assumed (`Rules.Covers.not_marker_mem`). An array leaves out a region without bytes.
-/

namespace Recast

open List Pattern Extent

variable {patterns : List Pattern} {count : Count} {arena : Arena} {tokens : List Token}
  {shape : Shape} {letters : List Letter} {proper : Token → Prop} {totalLength : Option Nat}
  {repeated : Prop}

namespace Pattern

variable {parts after : List Pattern} {part body : Pattern} {head : Head}

/-- Every value holds the start of a region under invariants. -/
inductive Seals : Pattern → Prop
  | marker (name : String) : Seals (.leaf (.marker name))
  | seq {parts : List Pattern} {part : Pattern} (member : part ∈ parts) (seals : Seals part) :
      Seals (.seq parts)
  | rep {body : Pattern} {count : Count} (some : count.least ≠ 0) (seals : Seals body) :
      Seals (.rep body count)

theorem seals_seq : (seq parts).Seals ↔ ∃ part ∈ parts, part.Seals :=
  ⟨fun (.seq member seals) => ⟨_, member, seals⟩, fun ⟨_, member, seals⟩ => .seq member seals⟩

theorem seals_cons : (seq (part :: parts)).Seals ↔ part.Seals ∨ (seq parts).Seals := by
  simp [seals_seq]

theorem not_seals_alt {options : List Pattern} : ¬ (alt options).Seals := nofun

theorem seals_append :
    (seq (parts ++ patterns)).Seals ↔ (seq parts).Seals ∨ (seq patterns).Seals := by
  simp [seals_seq, or_and_right, exists_or]

/-- Every value holds the start of a region under invariants, and takes bytes if it is repeated. -/
structure SealsBytes (repeated : Prop) (pattern : Pattern) : Prop where
  seals : pattern.Seals
  bytes : repeated → pattern.size ≠ some 0

theorem sumOfSizes_eq_zero : sumOfSizes parts = some 0 ↔ ∀ part ∈ parts, part.size = some 0 := by
  induction parts with
  | nil => simp [sumOfSizes]
  | cons part rest ih =>
    rw [forall_mem_cons, ← ih, sumOfSizes]
    rcases part.size with _ | _ <;> rcases sumOfSizes rest with _ | _ <;> simp [satAdd, cap]

theorem size_concat_eq_zero :
    (concat patterns).size = some 0 ↔ ∀ pattern ∈ patterns, pattern.size = some 0 := by
  have each (pattern : Pattern) : (∀ part ∈ pattern.parts, part.size = some 0) ↔
      pattern.size = some 0 := by
    cases pattern with
    | seq => rw [parts, size, sumOfSizes_eq_zero]
    | leaf | alt | rep => simp only [parts, forall_mem_singleton]
  rw [concat, size, sumOfSizes_eq_zero, forall_mem_flatMap]
  exact forall₂_congr fun pattern _ => each pattern

theorem size_replicate_ne_zero (bytes : body.size ≠ some 0) (isSome : count.least ≠ 0) :
    (body.replicate count).size ≠ some 0 := by
  unfold replicate
  rw [if_neg (by rintro rfl; exact isSome rfl), if_neg bytes]
  split
  · exact bytes
  · cases count with
    | exact number =>
      rcases isSize : body.size with _ | width
      · simp [size, isSize]
      · have positive : width * number ≠ 0 := Nat.mul_ne_zero (by simpa [isSize] using bytes) isSome
        have notZero : satMul width number ≠ 0 := by
          simp only [satMul, cap, UInt64.size]
          omega
        simpa [size, isSize] using notZero
    | atLeast => simp [size]

theorem SealsBytes.concat (sealsBytes : part.SealsBytes repeated) (member : part ∈ patterns) :
    (concat patterns).SealsBytes repeated := by
  refine ⟨?_, fun again none => sealsBytes.bytes again (size_concat_eq_zero.mp none part member)⟩
  have inside {inner : Pattern} (isPart : inner ∈ part.parts) : inner ∈ patterns.flatMap parts :=
    mem_flatMap.mpr ⟨part, member, isPart⟩
  have seals := sealsBytes.seals
  cases seals with
  | seq isPart seals => exact .seq (inside isPart) seals
  | marker | rep => exact .seq (inside (mem_singleton_self _)) sealsBytes.seals

theorem SealsBytes.replicate (sealsBytes : body.SealsBytes True) (isSome : count.least ≠ 0) :
    (body.replicate count).SealsBytes repeated := by
  have bytes := sealsBytes.bytes trivial
  refine ⟨?_, fun _ => size_replicate_ne_zero bytes isSome⟩
  unfold Pattern.replicate
  rw [if_neg (by rintro rfl; exact isSome rfl), if_neg bytes]
  split
  · exact sealsBytes.seals
  · exact .rep isSome sealsBytes.seals

theorem sealsBytes_sealed {width : Nat} (name : String) (positive : repeated → width ≠ 0) :
    ((leaf (.marker name)).andThen (.data width)).SealsBytes repeated := by
  have isConcat : (leaf (.marker name)).andThen (.data width) =
      .concat [.leaf (.marker name), .data width] := by
    simp [andThen, concat]
  refine ⟨.seq (mem_append_left _ (mem_singleton_self _)) (.marker name), fun again none => ?_⟩
  rw [isConcat, size_concat_eq_zero] at none
  have oneByte : (byte .any).size ≠ some 0 := by simp [byte, size, Token.width]
  have bytes : (data width).size ≠ some 0 := size_replicate_ne_zero oneByte (positive again)
  exact bytes (none _ (by simp))

def Head.pattern : Head → Pattern
  | .token single => .leaf single
  | .rep body count => .rep body count

theorem Begins.seals (begins : Begins patterns head after) (seals : (Pattern.seq patterns).Seals) :
    head.pattern.Seals ∨ (Pattern.seq after).Seals := by
  induction begins with
  | token | rep => exact seals_cons.mp seals
  | seq _ ih => exact ih (seals_append.mpr (seals_cons.mp seals))
  | option _ _ _ ih =>
    exact ih (seals_cons.mpr (.inr ((seals_cons.mp seals).resolve_left not_seals_alt)))
  | empty _ _ _ ih => exact ih ((seals_cons.mp seals).resolve_left not_seals_alt)

theorem Done.not_seals (done : Done patterns) : ¬ (Pattern.seq patterns).Seals := by
  induction done with
  | nil => simp [seals_seq]
  | seq _ ih => exact fun seals => ih (seals_append.mpr (seals_cons.mp seals))
  | empty _ _ _ ih => exact fun seals => ih ((seals_cons.mp seals).resolve_left not_seals_alt)

theorem Begins.leaves (begins : Begins patterns head after)
    (leaves : ∀ pattern ∈ patterns, pattern.Leaves proper) :
    head.pattern.Leaves proper ∧ ∀ pattern ∈ after, pattern.Leaves proper := by
  induction begins with
  | token | rep =>
    rw [Head.pattern]
    exact forall_mem_cons.mp leaves
  | seq _ ih =>
    rcases forall_mem_cons.mp leaves with ⟨here, later⟩
    simp only [Leaves, leavesOfAll_iff] at here
    exact ih (forall_mem_append.mpr ⟨here, later⟩)
  | option _ member _ ih =>
    rcases forall_mem_cons.mp leaves with ⟨here, later⟩
    simp only [Leaves, leavesOfAll_iff] at here
    exact ih (forall_mem_cons.mpr ⟨here _ member, later⟩)
  | empty _ _ _ ih => exact ih (forall_mem_cons.mp leaves).2

end Pattern

namespace Arena

variable {goal state target : StateId}

section

variable (unfolds : arena.Unfolds goal state patterns) (path : arena.Path state tokens target)
include unfolds path

/-- A way to the goal passes the start of a region, if what is to come holds one. -/
theorem Unfolds.exists_marker
    (atGoal : target = goal) (seals : (seq patterns).Seals) : ∃ name, .marker name ∈ tokens := by
  induction path generalizing goal patterns with
  | nil => exact absurd seals (unfolds.done.mp atGoal).not_seals
  | token edge _ ih =>
    rcases unfolds.opens.forth _ edge with ⟨_, _, begins, labels, onward⟩
    cases labels
    rcases begins.seals seals with ⟨⟨name⟩⟩ | later
    · exact ⟨name, .head _⟩
    · rcases ih onward atGoal later with ⟨name, member⟩
      exact ⟨name, .tail _ member⟩
  | @rep _ _ _ _ _ rounds _ edge admitted _ _ ihEach ih =>
    rcases unfolds.opens.forth _ edge with ⟨_, _, begins, labels, onward⟩
    cases labels with
    | rep isBody =>
      rcases begins.seals seals with (_ | _ | ⟨some, seals⟩) | later
      · -- There is a first round, and it passes a region.
        rcases rounds with _ | ⟨first, _⟩
        · exact absurd (of_decide_eq_true (Count.admits_zero.mp admitted)) some
        · rcases ihEach first (.head _) isBody rfl (.seq (mem_singleton_self _) seals) with
            ⟨name, member⟩
          exact ⟨name, by simp [member]⟩
      · rcases ih onward atGoal later with ⟨name, member⟩
        exact ⟨name, mem_append_right _ member⟩

theorem Unfolds.forall_token (leaves : ∀ pattern ∈ patterns, pattern.Leaves proper) :
    ∀ token ∈ tokens, proper token := by
  induction path generalizing goal patterns with
  | nil => exact forall_mem_nil _
  | token edge _ ih =>
    rcases unfolds.opens.forth _ edge with ⟨_, _, begins, labels, onward⟩
    cases labels
    rcases begins.leaves leaves with ⟨here, later⟩
    exact forall_mem_cons.mpr ⟨by simpa only [Head.pattern, Leaves] using here, ih onward later⟩
  | rep edge _ _ _ ihEach ih =>
    rcases unfolds.opens.forth _ edge with ⟨_, _, begins, labels, onward⟩
    cases labels with
    | rep isBody =>
      rcases begins.leaves leaves with ⟨here, later⟩
      simp only [Head.pattern, Leaves] at here
      refine forall_mem_append.mpr ⟨fun token member => ?_, ih onward later⟩
      rcases mem_flatten.mp member with ⟨round, isRound, inRound⟩
      exact ihEach round isRound isBody (forall_mem_singleton.mpr here) token inRound

end

end Arena

/-- Letters that are not of a region are read by tokens that are not of one, unless safety is
assumed. -/
theorem Rules.Covers.not_marker_mem {rules : Rules} (covers : rules.Covers letters tokens)
    (guarded : .safety ∉ rules.assumed) (bare : ∀ name, .marker name ∉ letters) (name : String) :
    .marker name ∉ tokens := by
  induction covers with
  | entered safe => exact absurd safe guarded
  | finished => simp
  | padding _ ih => simpa using ih bare
  | marker | bare => exact absurd (.head _) (bare _)
  | forgottenReference _ ih =>
    simp only [mem_append, mem_replicate, reduceCtorEq, and_false, false_or]
    exact ih fun other member => bare other (.tail _ member)
  | byte _ _ ih | forgottenByte _ ih | uninit _ ih | reference _ _ ih =>
    simpa using ih fun other member => bare other (.tail _ member)

namespace Shape

/-- Every value holds a region under invariants, by way of fields and of elements of which there is
at least one. A region that is repeated has at least one byte. -/
inductive Seals (catalog : Catalog) : (repeated : Prop) → Shape → Prop
  | sealed {repeated : Prop} {size : Nat} (positive : repeated → size ≠ 0) (name : String)
      (align : Nat) :
      Seals catalog repeated (.sealed name size align)
  | struct {repeated : Prop} {size align : Nat} {fields : List (Placed Shape)}
      {field : Placed Shape} (member : field ∈ fields)
        (seals : Seals catalog repeated field.content) :
      Seals catalog repeated (.struct size align fields)
  | array {repeated : Prop} {element : Shape} {count : Count} (some : count.least ≠ 0)
      (seals : Seals catalog True element) : Seals catalog repeated (.array element count)
  | named {repeated : Prop} {id : DefId} {definition : Definition}
      (found : catalog.get? id = some definition)
        (seals : Seals catalog repeated definition.shape) : Seals catalog repeated (.named id)

end Shape

section Assembly

variable {catalog : Catalog} {machine : Machine} {scope : Scope} {offset : Nat}
  {shop later : Workshop} {draft : Draft}

theorem StructBody.Grows.mem_parts {size : Nat} {drafts : List (Placed Draft)}
    {body final : StructBody} {pattern : Pattern} (grows : StructBody.Grows size drafts body final)
    (member : pattern ∈ body.parts ∨ ∃ draft ∈ drafts, draft.content.pattern = pattern) :
    pattern ∈ final.parts := by
  induction grows with
  | done => simpa using member
  | step _ grown _ ih =>
    refine ih ?_
    rw [grown.parts]
    simp only [mem_cons, exists_eq_or_imp] at member
    rcases member with inBody | rfl | later
    · exact .inl (mem_append_left _ inBody)
    · exact .inl (by simp)
    · exact .inr later

theorem Shape.Seals.sealsBytes (seals : shape.Seals catalog repeated)
    (planned : shape.planIn catalog machine scope offset shop = .ok draft later) :
    draft.pattern.SealsBytes repeated := by
  induction seals generalizing scope offset shop draft later with
  | @sealed _ size positive name align =>
    have isSealed : ¬ (Shape.sealed name size align).IsLink := not_false
    have leads {offset : Nat} {shop : Workshop} {draft : Draft} {later : Workshop}
        (_ : (Shape.sealed name size align).planIn catalog machine scope offset shop = .ok draft
        later) :
        True := trivial
    cases Shape.composed_of_planIn isSealed leads planned
    exact sealsBytes_sealed name positive
  | @struct _ size align fields _ member _ ih =>
    have isStruct : ¬ (Shape.struct size align fields).IsLink := not_false
    cases Shape.composed_of_planIn isStruct ih planned with
    | struct each grows =>
      rcases exists_of_mem_left each (Placed.mem_sortByOffset.mpr member) with
        ⟨part, isPart, _, sealsBytes⟩
      have inParts := grows.mem_parts (.inr ⟨part, isPart, rfl⟩)
      simp only [StructBody.pattern]
      split
      · exact (sealsBytes rfl).concat inParts
      · exact (sealsBytes rfl).concat (mem_append_left _ inParts)
  | @array _ element count isSome _ ih =>
    have isArray : ¬ (Shape.array element count).IsLink := not_false
    cases Shape.composed_of_planIn isArray ih planned with
    | array drawn _ isCount =>
      rcases Plan.arrayCount_eq_ok isCount with ⟨rfl, _⟩ | ⟨_, _, _, rfl, rfl, enough, _⟩
      · exact (drawn rfl).replicate isSome
      · exact (drawn rfl).replicate
          (Nat.ne_of_gt (Nat.lt_of_lt_of_le (Nat.pos_of_ne_zero isSome) enough))
  | named found _ ih =>
    rcases Shape.planIn_named planned with ⟨_, isFound, same⟩
    cases found.symm.trans isFound
    exact ih (same scope.totalLength ▸ planned)

end Assembly

namespace Setting

variable {setting : Setting} {source destination : Shape} {inquiry : Inquiry}
  {assumed exercised : Assumptions}

theorem lays_assemble {larger : Arena} {id : LayoutId}
    (assembled : setting.assemble shape totalLength arena = .ok (id, larger)) :
    ∃ scope offset shop draft later,
      shape.planIn setting.catalog setting.machine scope offset shop = .ok draft later ∧
        larger.Lays id draft.pattern := by
  rcases assemble_eq_ok assembled with ⟨_, isLast, _, rfl⟩
  rcases Shape.assemble_eq_ok isLast with ⟨draft, planned, isDraft, rfl, defined⟩
  exact ⟨_, _, _, draft, planned, isDraft,
    Arena.lays_define (by simp [Arena.reserve, Workshop.size]) defined⟩

/-- From a source that has values, and none with a region under invariants, no destination is
accepted of which every value has one, unless safety is assumed. -/
theorem recast_sealed (words : setting.FitsWords) (sourceWords : source.FitsWords)
    (destinationWords : destination.FitsWords) (bare : source.Allows setting.catalog True False)
    (seals : destination.Seals setting.catalog False)
    (assembles : setting.Assembles source destination inquiry arena)
    (value : arena.Value inquiry.1 letters) (guarded : .safety ∉ assumed) :
    ∃ diagnostic, setting.recast source destination assumed = .error (.rejected diagnostic) := by
  let terms := setting.terms arena assumed
  rcases assembles.plotted words sourceWords destinationWords with ⟨⟨plot, charts⟩, inside⟩
  rcases accepted : (terms.check inquiry.1 inquiry.2 {}).1 with diagnostic | exercised
  · exact ⟨diagnostic, by rw [assembles.recast_eq, accepted]; rfl⟩
  exfalso
  have isInside : terms.Inside inquiry := inside
  have upheld := Terms.upheld_of_check charts (forall_mem_nil _) isInside accepted
  rcases upheld.ease (terms.eased_relying exercised) with ⟨related, isRelated, each⟩
  have sustained : terms.Sustained True related inquiry := (each inquiry isRelated).resolve_left id
  rcases sustained.covers charts inside.1 inside.2 value with ⟨tokens, walk, covers⟩
  rcases assembles with ⟨middle, first, second⟩
  have firstSound :=
    sound_assemble words sourceWords words.source False.elim Workshop.sound_empty first
  have keeps :=
    (sound_assemble words destinationWords words.destination False.elim firstSound.1 second).2.2.2
  rcases lays_assemble first with ⟨_, _, _, draft, _, planned, lays⟩
  rcases lays_assemble second with ⟨_, _, _, image, _, plannedToo, laysToo⟩
  have leaves := (bare.writes _ _ _ _ _ trivial planned).2.2
  have noMarker (name : String) : .marker name ∉ letters := by
    rcases value with ⟨held, isWalk, holds⟩
    have proper := (lays.kept keeps firstSound.1.indexed).unfolds.forall_token isWalk
      (forall_mem_singleton.mpr leaves)
    intro member
    rcases exists_of_mem_left (Forall₂.flip holds) member with ⟨_, isToken, held⟩
    cases held
    exact proper _ isToken
  rcases laysToo.unfolds.exists_marker walk rfl (.seq (mem_singleton_self _)
    (seals.sealsBytes plannedToo).seals) with ⟨name, member⟩
  exact covers.not_marker_mem guarded noMarker name member

/-- A byte is not accepted as one in front of a region, not even if that is without bytes. -/
theorem recast_sealed_empty :
    ∃ diagnostic, Setting.recast {} (.scalar (.int 1)) byteBeforeSealed ∅ =
      .error (.rejected diagnostic) := by
  have facts : ∀ found ∈ assembled? {} (.scalar (.int 1)) byteBeforeSealed,
      ⟨.token (.cell (.init .full)), found.2.stop found.1.1⟩ ∈ found.2.edges
        (found.2.start found.1.1) := by
    decide +kernel
  have builds : (assembled? {} (.scalar (.int 1)) byteBeforeSealed).isSome := by decide +kernel
  rcases Option.isSome_iff_exists.mp builds with ⟨found, isFound⟩
  have value : found.2.Value found.1.1 [.byte 0] :=
    ⟨_, .token (facts found isFound) (.nil _), .cons (.byte ByteSet.mem_full) .nil⟩
  have seals : byteBeforeSealed.Seals {} False :=
    .struct (.tail _ (.head _)) (.sealed False.elim _ _)
  exact recast_sealed fitsWords_default (.of_fits rfl) (.of_fits rfl) (.scalar _) seals
    (assembles_of_assembled? isFound) value (by decide)

/-- Regions without bytes are made up: within a row with no assumption at all, and in front of
padding without safety being reported. -/
theorem recast_sealed_unnoticed : let setting : Setting := { budget := .unlimited }
    let byte : Shape := .scalar (.int 1)
    (setting.recast byte byteBeforeSealed { safety := true }).toOption = some ∅ ∧
      (setting.recast byte (.array (.sealed "T" 0 1) (.exact 2)) ∅).toOption = some ∅ := by
  decide +kernel

end Setting

end Recast
