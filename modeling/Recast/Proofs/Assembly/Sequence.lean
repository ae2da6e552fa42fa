import Mathlib.Order.Bounds.Basic
import Recast.Proofs.Assembly.Afresh
import Recast.Proofs.Assembly.Length
import Recast.Shape.Sequential

/-!
# Fields in sequence

Fields that are laid out in order lie at the least offsets that suit them, unless an offset passes
the cap (`Placement.placeAll_of_inTurn`). A struct of fields that build can be assembled then. The
fields share a workshop, which remembers what the ones before have named: a shape that can be
assembled in a fresh workshop can be assembled in this one too, and is no larger there
(`Shape.exists_planIn_of_fresh`).
-/

namespace Recast

open Assembly Placed Extent Member Shape Workshop Bond

variable {stop final : Nat} {placed : List (Placed Member)} {member : Member}

section Places

variable {extent unit bound : Nat}

/-- Each field is at the least multiple of its alignment that is not before the end of the one
before it. -/
inductive Member.InTurn : (stop : Nat) → List (Placed Member) → (final : Nat) → Prop
  | nil {stop : Nat} : InTurn stop [] stop
  | cons {stop final : Nat} {next : Placed Member} {rest : List (Placed Member)}
      (least : IsLeast {offset | max next.content.align 1 ∣ offset ∧ stop ≤ offset} next.offset)
      (others : InTurn (next.offset + next.content.size) rest final) :
        InTurn stop (next :: rest) final

open Member (InTurn)

theorem Extent.isLeast_roundUp (positive : unit ≠ 0) :
    IsLeast {offset | unit ∣ offset ∧ extent ≤ offset} ((extent + unit - 1) / unit * unit) := by
  have whole := Nat.div_add_mod (extent + unit - 1) unit
  have less := Nat.mod_lt (extent + unit - 1) (Nat.pos_of_ne_zero positive)
  rw [Nat.mul_comm] at whole
  refine ⟨⟨Nat.dvd_mul_left _ _, by omega⟩, ?_⟩
  rintro _ ⟨⟨number, rfl⟩, behind⟩
  rw [Nat.mul_comm unit number]
  refine Nat.mul_le_mul_right unit (Nat.lt_succ_iff.mp (Nat.div_lt_of_lt_mul ?_))
  rw [Nat.mul_succ]
  omega

theorem Extent.roundUp?_of_isLeast (positive : unit ≠ 0)
    (least : IsLeast {offset | unit ∣ offset ∧ extent ≤ offset} bound) :
    roundUp? extent unit = if bound ≤ cap then some bound else none := by
  rw [least.unique (isLeast_roundUp positive)]
  rfl

theorem Member.exists_inTurn (members : List Member) (stop : Nat) :
    ∃ placed final, placed.map content = members ∧ InTurn stop placed final := by
  induction members generalizing stop with
  | nil => exact ⟨[], stop, rfl, .nil⟩
  | cons member rest ih =>
    have positive : max member.align 1 ≠ 0 := by omega
    rcases ih
      ((stop + max member.align 1 - 1) / max member.align 1 * max member.align 1 + member.size) with
      ⟨placed, final, rfl, inTurn⟩
    exact ⟨⟨_, member⟩ :: placed, final, rfl, .cons (isLeast_roundUp positive) inTurn⟩

namespace Member.InTurn

theorem le (inTurn : InTurn stop placed final) :
    stop ≤ final ∧ ∀ next ∈ placed, next.offset + next.content.size ≤ final := by
  induction inTurn with
  | nil => simp
  | cons least _ ih =>
    have behind := least.1.2
    exact ⟨by omega, List.forall_mem_cons.mpr ih⟩

theorem sortByOffset_eq (inTurn : InTurn stop placed final) :
    sortByOffset (placed.map (map shape)) = placed.map (map shape) := by
  induction inTurn with
  | nil => rfl
  | cons _ others ih =>
    rw [List.map_cons, sortByOffset, List.foldr_cons, ← sortByOffset, ih]
    cases others with
    | nil => rfl
    | cons least =>
      have behind := least.1.2
      exact if_pos (by simp only [map]; omega)

end Member.InTurn

/-- The largest of the alignments; one of zero counts as one. -/
def Member.largestAlign (align : Nat) (members : List Member) : Nat :=
  members.foldl (fun align member => max align (max member.align 1)) align

theorem Member.largestAlign_of_forall {holds : Nat → Prop} {align : Nat} {members : List Member}
    (first : holds align) (each : ∀ member ∈ members, holds (max member.align 1)) :
    holds (largestAlign align members) := by
  induction members generalizing align with
  | nil => exact first
  | cons member _ ih =>
    rw [List.forall_mem_cons] at each
    refine ih ?_ each.2
    dsimp only
    rcases Nat.le_total align (max member.align 1) with less | more
    · rw [Nat.max_eq_right less]
      exact each.1
    · rw [Nat.max_eq_left more]
      exact first

theorem Member.largestAlign_ne_zero (members : List Member) : largestAlign 1 members ≠ 0 :=
  @largestAlign_of_forall (· ≠ 0) 1 members Nat.one_ne_zero fun _ _ =>
    Nat.ne_of_gt (Nat.le_max_right _ _)

theorem Placement.placeAll_of_inTurn {placement : Placement}
    (inTurn : InTurn placement.stop placed final) (inside : placement.stop ≤ cap) :
    placement.placeAll (placed.map content) =
      if final ≤ cap then .ok ⟨placement.fields ++ placed.map (map shape), final,
        largestAlign placement.align (placed.map content)⟩
      else .error .tooLarge := by
  generalize isStop : placement.stop = stop at inTurn inside
  induction inTurn generalizing placement with
  | nil =>
    subst isStop
    simp [placeAll, inside, largestAlign]
  | @cons stop final next rest least others ih =>
    have le := others.le.1
    rw [List.map_cons, placeAll, place, isStop, roundUp?_of_isLeast (by omega) least]
    by_cases fits : next.offset + next.content.size ≤ cap
    · simp only [if_pos (Nat.le_trans (Nat.le_add_right _ _) fits), add?, if_pos fits]
      rw [ih rfl fits]
      simp [largestAlign, map]
    · have passes : ¬ final ≤ cap := by omega
      by_cases starts : next.offset ≤ cap <;> simp [starts, add?, fits, passes]

end Places

section Recalling

variable {catalog : Catalog} {machine : Machine} {names : DefId → Prop} {pending : List DefId}
  {underway underwayToo : Underway} {few offset : Nat} {id : DefId} {shop planned later : Workshop}
  {shape : Shape} {draft : Draft}

/-- Where a fresh run succeeds, one in a workshop that remembers some definitions does so too. -/
def Bond.recalling (catalog : Catalog) (machine : Machine) (names : DefId → Prop)
    (pending : List DefId) (underway underwayToo : Underway) (few : Nat) : Bond where
  strict := False
  link first second := Abreast catalog machine names pending underway underwayToo few second first
  slack _ := False
  ruin _ := True
  not_slack := False.elim
  ruin_of_link _ := trivial
  link_of_agrees abreast agrees agreesToo := abreast.of_agrees agreesToo agrees

variable (machineWords : machine.FitsWords) (catalogWords : catalog.FitsWords)

include machineWords catalogWords

theorem Catalog.pairsReferents_recalling (closes : catalog.Closes names) :
    (recalling catalog machine names pending underway underwayToo few).PairsReferents
      (catalog.referent machine catalog.size id) := by
  induction few generalizing id pending underway underwayToo with
  | zero => exact fun first second linked => absurd linked.link.few (Nat.not_lt_zero _)
  | succ few ih =>
    rintro first second ⟨sound, soundToo, abreast⟩
    rcases known : second.referents.lookup id with _ | layout
    · have unknown : first.referents.lookup id = none := by
        rw [← not_knows_iff] at known ⊢
        exact fun isKnown => known (abreast.subset id isKnown)
      rcases found : catalog.get? id with _ | definition
      · simp only [Runs, Catalog.referent_of_undefined unknown found]
        exact False.elim
      exact catalog.runs_begun machineWords catalogWords
        (.recalling catalog machine names (id :: pending) ((some id, ⟨second.size⟩) :: underway)
        ((some id, ⟨first.size⟩) :: underwayToo) few) found unknown known sound soundToo
        (abreast.begun soundToo sound known unknown found) (fun _ => ih) (fun strict => strict)
        (fun _ slack => slack) (fun _ _ _ => trivial)
        fun _ _ _ _ _ _ _ _ link isOk isOkToo settles settlesToo =>
          abreast.filled machineWords catalogWords soundToo sound link isOkToo isOk settlesToo
            settles
    · rcases isOk : catalog.referent machine catalog.size id first with ⟨_, later⟩ | ⟨_, later⟩
      · rcases abreast.recall machineWords catalogWords closes soundToo sound known isOk with
          ⟨laterSound, link, iff⟩
        exact runs_of_ok isOk (Catalog.referent_of_known known) ⟨laterSound, soundToo, link⟩
          ⟨iff.mp, False.elim⟩
      · simp only [Runs, isOk]
        exact False.elim

section

variable (words : shape.FitsWords) (sound : shop.Sound False)
  (rounded : shop.Rounded catalog machine)
include words sound rounded

theorem Shape.exists_planIn_of_fresh
    (fresh : shape.planIn catalog machine {} 0 {} = .ok draft planned) (offset : Nat) :
    ∃ own later, shape.planIn catalog machine {} offset shop = .ok own later ∧
      Matches (.recalling catalog machine shop.Knows [] [] [] (catalog.size + 1)) draft own := by
  have pairs : (recalling catalog machine shop.Knows [] [] [] (catalog.size + 1)).Pairs
      (shape.planIn catalog machine) {} :=
    pairs_planIn machineWords catalogWords words (by simp [Scope.FitsWords]) (.inl rfl)
      fun _ _ => catalog.pairsReferents_recalling machineWords catalogWords rounded.closes
  have runs := pairs 0 offset False.elim _ _ ⟨sound_empty, sound, rounded.abreast⟩
  rcases outcome : shape.planIn catalog machine {} offset shop with ⟨own, later⟩ | ⟨_, later⟩ <;>
    simp only [Runs, fresh, outcome] at runs
  · exact ⟨own, later, rfl, runs.2⟩
  · exact runs.elim

theorem Shape.measures_planIn
    (isOk : shape.planIn catalog machine {} offset shop = .ok draft later) :
    later.Sound False ∧ shop.size ≤ later.size ∧ draft.Sound False later.size ∧
      draft.Measures catalog machine shape ∧ later.Rounded catalog machine := by
  have scopeWords : Scope.FitsWords {} := by simp [Scope.FitsWords]
  have draws := draws_planIn (Draft.passes_measures machineWords) machineWords catalogWords words
  rcases (draws.draws [] {} offset shop scopeWords sound rounded.tells).ok isOk with
    ⟨_, _, tells, measures⟩
  rcases (sound_planIn machineWords catalogWords words False.elim {} offset shop scopeWords
    sound).ok isOk with
    ⟨grows, laterSound, draftSound⟩
  exact ⟨laterSound, grows.grown, draftSound, measures rfl,
    rounded.of_passes (passes_planIn isOk).1 tells⟩

end

section Fields

/-- The member builds to no more than its size, and its alignment is one that the shape can have. -/
structure Member.Fits (catalog : Catalog) (machine : Machine) (member : Member) : Prop where
  power : isPowerOfTwo member.align
  words : member.shape.FitsWords
  noTail : ¬ member.shape.HasTail catalog
  builds : ∃ id later width, member.shape.assemble catalog machine none {} = .ok id later ∧
    (later.arena.layout id).size = some width ∧ width ≤ member.size
  aligned : ∀ draft later, member.shape.planIn catalog machine {} 0 {} = .ok draft later →
    draft.align ∣ member.align

omit machineWords catalogWords in
theorem Member.Fits.align_eq (fits : member.Fits catalog machine) :
    max member.align 1 = member.align ∧ member.align ≠ 0 := by
  have positive : member.align ≠ 0 := by
    intro zero
    have power := fits.power
    rw [zero] at power
    cases power
  omega

variable {size : Nat} {body : StructBody} (sound : shop.Sound False)
  (rounded : shop.Rounded catalog machine)
include sound rounded

theorem Member.Fits.exists_planIn (fits : member.Fits catalog machine) (offset : Nat) :
    ∃ own later width, member.shape.planIn catalog machine {} offset shop = .ok own later ∧
      own.pattern.size = some width ∧ width ≤ member.size ∧ own.hasTail = false ∧
      own.align ∣ member.align := by
  rcases fits.builds with ⟨_, _, _, isOk, isSize, small⟩
  rcases size_of_assemble isOk with ⟨_, _, fresh, _, sameSize⟩
  rcases exists_planIn_of_fresh machineWords catalogWords fits.words sound rounded fresh offset with
    ⟨own, later, isOwn, matched⟩
  rcases measures_planIn machineWords catalogWords fits.words sound rounded isOwn with
    ⟨_, _, _, measures, _⟩
  have sizes := matched.size
  rw [← sameSize, isSize] at sizes
  generalize isOwnSize : own.pattern.size = ownSize at sizes
  cases sizes with
  | sized less =>
    refine ⟨own, later, _, isOwn, isOwnSize, le_trans less.le small, ?_,
      matched.align ▸ fits.aligned _ _ fresh⟩
    exact Bool.eq_false_iff.mpr fun tail => fits.noTail (measures.tail.mp tail)

theorem Shape.exists_structBody (inTurn : Member.InTurn stop placed final) (room : final ≤ size)
    (inside : size ≤ cap) (fits : ∀ next ∈ placed, next.content.Fits catalog machine)
    (bodySound : body.Sound size placed.isEmpty) (noTail : body.hasTail = false)
    (behind : body.stop ≤ stop) :
    ∃ whole later, Plan.structBody size {} 0
        ((placed.map (Placed.map Member.shape)).map (Placed.planIn catalog machine)) body shop =
          .ok whole later ∧
      whole.hasTail = false ∧ whole.Sound size true := by
  induction inTurn generalizing body shop with
  | nil => exact ⟨body, shop, rfl, noTail, bodySound⟩
  | @cons stop final next rest least others ih =>
    rw [List.forall_mem_cons] at fits
    rcases fits.1.exists_planIn machineWords catalogWords sound rounded (satAdd 0 next.offset) with
      ⟨own, middle, width, isOwn, isWidth, small, ownTail, divides⟩
    rcases measures_planIn machineWords catalogWords fits.1.words sound rounded isOwn with
      ⟨middleSound, _, ownSound, _, middleRounded⟩
    have after := le_trans behind least.1.2
    have ends := others.le.1
    have aligned : requireAligned next.offset own.align = .ok () := by
      have multiple := least.1.1
      rw [fits.1.align_eq.1] at multiple
      have positive : own.align ≠ 0 := by
        intro zero
        rw [zero, Nat.zero_dvd] at divides
        exact fits.1.align_eq.2 divides
      simp [requireAligned, positive, Nat.dvd_iff_mod_eq_zero.mp (divides.trans multiple)]
    have stops : next.offset + width ≤ size ∧ next.offset + width ≤ cap := by omega
    have added : body.addField size rest.isEmpty ⟨next.offset, own⟩ =
        .ok ⟨body.parts ++ [.padding (next.offset - body.stop), own.pattern], next.offset + width,
          own.hasTail⟩ := by
      rw [StructBody.addField_of_aligned aligned isWidth (by simp [ownTail]) fun _ => stops.1]
      exact if_pos stops.2
    have isExtended := StructBody.addField_eq_ok added
    rcases ih middleSound middleRounded room fits.2
      (isExtended.sound bodySound after ownSound.shaped) ownTail (Nat.add_le_add_left small _) with
      ⟨whole, later, isRest, result⟩
    refine ⟨whole, later, ?_, result⟩
    have isEmpty : (rest.map (map Member.shape)).isEmpty = rest.isEmpty := List.isEmpty_map
    rw [List.map_cons, structBody_cons after, isEmpty]
    refine (bind_of_ok isOwn).trans (Eq.trans ?_ isRest)
    exact bind_of_eq (congrArg (fun verdict => Assembly.ofExcept verdict middle) added)

theorem Shape.exists_assemble_inTurn {align : Nat} (inTurn : Member.InTurn 0 placed final)
    (room : final ≤ size) (inside : size ≤ cap)
    (fits : ∀ next ∈ placed, next.content.Fits catalog machine) (power : isPowerOfTwo align) :
    ∃ id later, (struct size align (placed.map (map Member.shape))).assemble catalog machine none
      shop = .ok id later ∧ (later.arena.layout id).size = some size := by
  rcases exists_structBody machineWords catalogWords sound rounded inTurn room inside fits
    StructBody.sound_empty rfl (Nat.zero_le _) with
    ⟨body, planned, isBody, noTail, bodySound⟩
  have isPlanned : (struct size align (placed.map (map Member.shape))).planIn catalog machine {} 0
      shop = .ok { pattern := body.pattern size, align, hasTail := body.hasTail } planned := by
    have isPower : requirePowerOfTwo align = .ok () := by simp [requirePowerOfTwo, power]
    rw [planIn_struct, inTurn.sortByOffset_eq, isPower]
    exact bind_of_ok isBody
  have words : (struct size align (placed.map (map Member.shape))).FitsWords := by
    refine .struct inside fun _ member => ?_
    rcases List.mem_map.mp member with ⟨next, isNext, rfl⟩
    exact (fits next isNext).words
  rcases exists_assemble machineWords catalogWords words fitsWords_noLength sound isPlanned with
    ⟨id, later, isOk, _⟩
  rcases size_of_assemble isOk with ⟨_, _, again, _, isSize⟩
  cases isPlanned.symm.trans again
  exact ⟨id, later, isOk,
    isSize.trans (Pattern.size_of_fits (bodySound.fits_pattern inside noTail) inside)⟩

end Fields

end Recalling

theorem Shape.sequential_of_inTurn {total : Nat} (inTurn : Member.InTurn 0 placed stop)
    (least : IsLeast {size | largestAlign 1 (placed.map content) ∣ size ∧ stop ≤ size} total) :
    sequential (placed.map content) =
      if total ≤ cap then
        .ok (.struct total (largestAlign 1 (placed.map content)) (placed.map (map shape)))
      else .error .tooLarge := by
  have behind := least.1.2
  rw [sequential, Placement.placeAll_of_inTurn inTurn (Nat.zero_le _)]
  by_cases stops : stop ≤ cap
  · simp only [if_pos stops, roundUp?_of_isLeast (largestAlign_ne_zero _) least]
    by_cases inside : total ≤ cap <;> simp [inside]
  · have passes : ¬ total ≤ cap := by omega
    simp [stops, passes]

/-- Members in order are refused exactly if one of them, or the whole, passes the cap; else each has
the least offset that suits it, and the whole the least size. If each of them builds on its own and
has an alignment that suits what it builds to, the whole builds where the arena has room for it, and
has the size that it says. -/
theorem Shape.sequential_places (members : List Member) :
    ∃ placed stop total, placed.map Placed.content = members ∧ Member.InTurn 0 placed stop ∧
      IsLeast {size | Member.largestAlign 1 members ∣ size ∧ stop ≤ size} total ∧
      (Shape.sequential members = .error .tooLarge ↔
        (∃ next ∈ placed, Extent.cap < next.offset ∨ Extent.cap < next.offset + next.content.size) ∨
          Extent.cap < total) ∧
      (Shape.sequential members ≠ .error .tooLarge → ∃ shape,
        shape = .struct total (Member.largestAlign 1 members)
          (placed.map (Placed.map Member.shape)) ∧
        Shape.sequential members = .ok shape ∧
        ∀ (catalog : Catalog) (machine : Machine) (shop : Workshop), catalog.FitsWords →
          machine.FitsWords → shop.Filled → (∀ member ∈ members, member.Fits catalog machine) →
          ((shape.build catalog machine none).left { arena := shop.arena }).arena.inCapacity →
          ∃ id later, shape.build catalog machine none { arena := shop.arena } = .ok id later ∧
            (later.arena.layout id).size = some total) := by
  rcases Member.exists_inTurn members 0 with ⟨placed, stop, rfl, inTurn⟩
  have least := @isLeast_roundUp stop _ (Member.largestAlign_ne_zero (placed.map content))
  refine ⟨placed, stop, _, rfl, inTurn, least, ?_⟩
  have isSequential := sequential_of_inTurn inTurn least
  have room := least.1.2
  generalize (stop + Member.largestAlign 1 (placed.map content) - 1) /
    Member.largestAlign 1 (placed.map content) * Member.largestAlign 1 (placed.map content) = total
    at least isSequential room ⊢
  rw [isSequential]
  by_cases inside : total ≤ cap
  · refine ⟨iff_of_false (by simp [inside]) ?_, fun _ => ⟨_, rfl, if_pos inside, ?_⟩⟩
    · rintro (⟨next, isNext, passes⟩ | passes)
      · have ends := inTurn.le.2 next isNext
        omega
      · omega
    · intro catalog machine _ catalogWords machineWords filled fits hasRoom
      have fitsToo (next : Placed Member) (isNext : next ∈ placed) : next.content.Fits catalog
          machine :=
        fits _ (List.mem_map_of_mem isNext)
      rw [build, Assembly.bounded_of_room hasRoom]
      refine exists_assemble_inTurn machineWords catalogWords filled.sound.renewed
        ⟨by constructor <;> simp, by rintro _ ⟨_, ⟨⟩⟩⟩ inTurn room inside fitsToo ?_
      refine @Member.largestAlign_of_forall (isPowerOfTwo ·) 1 _ rfl fun member isMember => ?_
      rw [(fits member isMember).align_eq.1]
      exact (fits member isMember).power
  · exact ⟨iff_of_true (if_neg inside) (.inr (Nat.lt_of_not_le inside)),
      fun sized => absurd (if_neg inside) sized⟩

theorem Member.fits_int {width : Nat} (isWidth : width = 1 ∨ width = 4) :
    Member.Fits {} {} ⟨width, width, .scalar (.int width)⟩ := by
  rcases isWidth with rfl | rfl <;>
  · refine ⟨rfl, .scalar (by decide), nofun, ⟨_, _, _, rfl, rfl, le_rfl⟩, ?_⟩
    rintro _ _ ⟨⟩
    exact Nat.dvd_refl _

theorem Shape.sequential_places_padded :
    let members : List Member := [⟨1, 1, .scalar (.int 1)⟩, ⟨4, 4, .scalar (.int 4)⟩]
    (∀ member ∈ members, member.Fits {} {}) ∧
    ∃ shape id later, Shape.sequential members = .ok shape ∧
      shape.build {} {} none {} = .ok id later ∧ (later.arena.layout id).size = some 8 := by
  intro members
  have fits : ∀ member ∈ members, member.Fits {} {} := by
    rw [List.forall_mem_cons, List.forall_mem_singleton]
    exact ⟨Member.fits_int (.inl rfl), Member.fits_int (.inr rfl)⟩
  have sample : sequential members =
      .ok (.struct 8 4 [⟨0, .scalar (.int 1)⟩, ⟨4, .scalar (.int 4)⟩]) := rfl
  rcases sequential_places members with ⟨_, _, _, _, _, _, _, accepted⟩
  rcases accepted nofun with ⟨_, isStruct, isShape, builds⟩
  obtain rfl := Except.ok.inj (isShape.symm.trans sample)
  injection isStruct with isTotal
  subst isTotal
  rcases builds {} {} {} (by rintro _ _ ⟨⟩) fitsWords_machine .empty fits (by decide +kernel) with
    ⟨id, later, made⟩
  exact ⟨fits, _, id, later, isShape, made⟩

end Recast
