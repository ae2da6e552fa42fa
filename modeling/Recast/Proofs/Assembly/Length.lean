import Mathlib.Algebra.Order.Ring.Nat
import Recast.Proofs.Assembly.Measures
import Recast.Proofs.Assembly.Reentry

/-!
# Tails of a known length

The length of a value settles the number of elements in its tail. It has no bearing on what has no
tail by value (`Shape.planIn_tailless`), and so each part of the shape is assembled as it is without
it, except for those at the end that the tail is in (`Shape.TailAt.exists_wrap`).
-/

namespace Recast

open Assembly List Extent Shape Catalog Plan Draft Pattern

variable {shape piece element : Shape} {size align least offset : Nat} {body extended : StructBody}
  {catalog : Catalog} {machine : Machine} {scope : Scope} {shop later : Workshop} {draft : Draft}
  {length : Option Nat} {next : Placed Shape} {rest : List (Placed Shape)} {isLast : Bool}
  {placed : Placed Draft}

/-- The second shape is a part of the first one, and not behind a reference. -/
def Shape.ByValue (catalog : Catalog) (whole part : Shape) : Prop :=
  whole.Part catalog part ∧ ∀ referent guarantee, whole ≠ .reference referent guarantee

def Shape.Tailless (catalog : Catalog) (shape : Shape) : Prop :=
  ∀ element least, ¬ Relation.ReflTransGen (ByValue catalog) shape (.array element (.atLeast least))

theorem Shape.Tailless.part (tailless : shape.Tailless catalog)
    (isPart : shape.ByValue catalog piece) :
    piece.Tailless catalog :=
  fun element least inner => tailless element least (inner.head isPart)

theorem Shape.hasTail_of_byValue
    (inner : Relation.ReflTransGen (ByValue catalog) shape (.array element (.atLeast least)))
    (planned : shape.planIn catalog machine scope offset shop = .ok draft later) :
    draft.hasTail := by
  induction inner using Relation.ReflTransGen.head_induction_on
    generalizing scope offset shop draft later with
  | refl =>
    have isArray : ¬ (array element (.atLeast least)).IsLink := not_false
    have leads {offset : Nat} {shop : Workshop} {draft : Draft} {later : Workshop}
        (_ : element.planIn catalog machine scope offset shop = .ok draft later) : True := trivial
    cases composed_of_planIn isArray leads planned
    rfl
  | @head whole _ isPart _ ih =>
    by_cases isLink : whole.IsLink
    · cases whole with
      | named =>
        cases isPart.1 with
        | definition found =>
          rcases planIn_named planned with ⟨_, isFound, same⟩
          cases found.symm.trans isFound
          exact ih (same scope.totalLength ▸ planned)
      | reference => exact absurd rfl (isPart.2 _ _)
      | _ => exact isLink.elim
    · rcases (composed_of_planIn isLink ih planned).part isPart.1 with ⟨_, drawn, tail⟩
      exact tail (drawn rfl)

theorem Shape.tailless_of_planIn
    (planned : shape.planIn catalog machine scope offset shop = .ok draft later)
    (noTail : draft.hasTail = false) : shape.Tailless catalog := fun _ _ inner =>
  Bool.false_ne_true (noTail.symm.trans (hasTail_of_byValue inner planned))

theorem Recipe.run_congr {α : Type} {recipe : Recipe α} {planOf : Shape → Plan} {other : Scope}
    (all : recipe.All fun part => ∀ offset, planOf part scope offset = planOf part other offset) :
    recipe.run planOf scope = recipe.run planOf other := by
  induction recipe with
  | done => rfl
  | draw _ offset _ ih => simp only [Recipe.run, all.1 offset, ih _ (all.2 _)]

theorem Shape.recipe_totalLength (closed : ∀ element least, shape ≠ .array element (.atLeast least))
    (totalLength other : Option Nat) :
    shape.recipe machine totalLength offset = shape.recipe machine other offset := by
  cases shape with
  | array element count =>
    cases count with
    | exact => rfl
    | atLeast least => exact absurd rfl (closed element least)
  | _ => rfl

/-- What is done in place for a name without a tail does not depend on the length of the whole. -/
def Calls.Heedless (catalog : Catalog) (length : Option Nat) (calls : Calls) : Prop :=
  ∀ id, (named id).Tailless catalog → ∀ scope offset,
    calls.expand id { scope with totalLength := length } offset = calls.expand id scope offset

theorem Shape.plan_tailless {calls : Calls} (heedless : calls.Heedless catalog length)
    (tailless : shape.Tailless catalog) (scope : Scope) :
    shape.plan machine calls.expand calls.referent { scope with totalLength := length } offset =
      shape.plan machine calls.expand calls.referent scope offset := by
  induction shape using recipe_induction generalizing offset with
  | direct shape inside ih =>
    have closed (element : Shape) (least : Nat) : shape ≠ .array element (.atLeast least) := by
      rintro rfl
      exact tailless element least .refl
    rw [plan_eq_run, plan_eq_run, recipe_totalLength closed _ scope.totalLength]
    refine Recipe.run_congr (all_part inside fun part (isPart : shape.Part catalog part) offset =>
      ?_)
    refine ih part (isPart.mem_parts inside) (tailless.part ⟨isPart, ?_⟩)
    rintro _ _ rfl
    exact inside trivial
  | reference referent => cases referent <;> rfl
  | named id => exact heedless id tailless scope offset

theorem Catalog.heedless_calls : (catalog.calls machine).Heedless catalog length := by
  refine catalog.calls_induction machine (fun _ _ _ _ => rfl) fun _ heedless id tailless scope _ =>
    ?_
  simp only [step]
  rcases found : catalog.find id with _ | definition
  · rfl
  have isPart : (named id).ByValue catalog definition.shape :=
    ⟨.definition (find_eq_ok found), by simp⟩
  have begins {α : Type} (next : Definition → Assembly α) : (ofExcept (.ok definition) >>= next) =
      next definition := rfl
  simp only [begins, plan_tailless heedless (tailless.part isPart)
    { scope with inPlace := id :: scope.inPlace, underWay := id :: scope.underWay }]

/-- What has no tail by value does not depend on the length of the whole. -/
theorem Shape.planIn_tailless (tailless : shape.Tailless catalog) (length : Option Nat) :
    shape.planIn catalog machine { scope with totalLength := length } offset =
      shape.planIn catalog machine scope offset :=
  plan_tailless heedless_calls tailless scope

section Structs

variable {fields front : List (Placed Shape)} {field : Placed Shape} {final : StructBody}

def Placed.planIn (catalog : Catalog) (machine : Machine) : Placed Shape → Placed Plan :=
  Placed.map fun shape => shape.planIn catalog machine

theorem Shape.planIn_struct (scope : Scope) :
    (struct size align fields).planIn catalog machine scope offset =
    ofExcept (requirePowerOfTwo align) >>= fun _ =>
      Plan.structBody size scope offset
        ((Placed.sortByOffset fields).map (Placed.planIn catalog machine)) {} >>=
        fun body => pure { pattern := body.pattern size, align, hasTail := body.hasTail } := by
  simp only [planIn, plan, Plan.struct, fieldPlans_eq, Placed.sortByOffset_map]
  rfl

theorem Shape.structBody_cons (behind : body.stop ≤ next.offset) (scope : Scope) :
    Plan.structBody size scope offset ((next :: rest).map (Placed.planIn catalog machine)) body =
      next.content.planIn catalog machine scope (satAdd offset next.offset) >>= fun draft =>
        Assembly.ofExcept (body.addField size rest.isEmpty ⟨next.offset, draft⟩) >>= fun extended =>
          structBody size scope offset (rest.map (Placed.planIn catalog machine)) extended := by
  simp only [map_cons, structBody, Placed.planIn, Placed.map, Nat.not_lt.mpr behind, if_false,
    isEmpty_map]

theorem Shape.structBody_cons_eq_ok
    (isOk : structBody size scope offset ((next :: rest).map (Placed.planIn catalog machine)) body
      shop = .ok final later) :
    body.stop ≤ next.offset ∧ ∃ draft middle extended,
      next.content.planIn catalog machine scope (satAdd offset next.offset) shop =
        .ok draft middle ∧
      body.addField size rest.isEmpty ⟨next.offset, draft⟩ = .ok extended ∧
      structBody size scope offset (rest.map (Placed.planIn catalog machine)) extended middle =
        .ok final later := by
  have behind : body.stop ≤ next.offset := by
    by_contra before
    simp only [map_cons, structBody, Placed.planIn, Placed.map, Nat.lt_of_not_le before,
      if_true] at isOk
    cases isOk
  rw [structBody_cons behind] at isOk
  rcases bind_eq_ok.mp isOk with ⟨draft, middle, isDraft, onward⟩
  rcases ofExcept_bind_eq_ok onward with ⟨extended, added, isRest⟩
  exact ⟨behind, draft, middle, extended, isDraft, added, isRest⟩

theorem StructBody.aligned_of_addField (added : body.addField size isLast placed = .ok extended) :
    requireAligned placed.offset placed.content.align = .ok () := by
  rw [addField] at added
  rcases aligned : requireAligned placed.offset placed.content.align with _ | _
  · simp [aligned, bind, Except.bind] at added
  · rfl

theorem StructBody.addField_of_aligned {width : Nat}
    (aligned : requireAligned placed.offset placed.content.align = .ok ())
    (isWidth : placed.content.pattern.size = some width) (last : placed.content.hasTail → isLast)
    (room : placed.content.hasTail = false → placed.offset + width ≤ size) :
    body.addField size isLast placed =
      if placed.offset + width ≤ cap then
        .ok ⟨body.parts ++ [.padding (placed.offset - body.stop), placed.content.pattern],
          placed.offset + width, placed.content.hasTail⟩
      else .error .tooLarge := by
  have placedLast : (placed.content.hasTail && !isLast) = false := by
    cases tail : placed.content.hasTail <;> simp [last, tail]
  have noOverrun : (!placed.content.hasTail && decide (size < placed.offset + width)) = false := by
    cases tail : placed.content.hasTail <;> simp [room, tail]
  by_cases inside : placed.offset + width ≤ cap <;>
    simp [addField, aligned, bind, Except.bind, pure, Except.pure, throw, throwThe,
      MonadExceptOf.throw, isWidth, add?, inside, placedLast, noOverrun]

theorem Assembly.bind_of_eq {α β : Type} {step other : Assembly α} {next : α → Assembly β}
    (same : step shop = other later) : (step >>= next) shop = (other >>= next) later := by
  simp only [bind, EStateM.bind, same]

variable (machineWords : machine.FitsWords) (catalogWords : catalog.FitsWords)

include machineWords catalogWords

theorem Shape.structBody_last (words : ∀ next ∈ front, next.content.FitsWords)
    (scopeWords : scope.FitsWords) (sound : shop.Sound False) (bodySound : body.Sound size false)
    (isOk : structBody size scope offset ((front ++ [field]).map (Placed.planIn catalog machine))
      body shop = .ok final later) :
    ∃ before middle, middle.Sound False ∧ before.Sound size false ∧
      ∀ length, structBody size { scope with totalLength := length } offset
          ((front ++ [field]).map (Placed.planIn catalog machine)) body shop =
        structBody size { scope with totalLength := length } offset [field.planIn catalog machine]
          before middle := by
  induction front generalizing body shop with
  | nil => exact ⟨body, shop, sound, bodySound, fun _ => rfl⟩
  | cons next rest ih =>
    rw [forall_mem_cons] at words
    rcases structBody_cons_eq_ok isOk with ⟨behind, draft, middle, extended, isDraft, added, isRest⟩
    have notLast : (rest ++ [field]).isEmpty = false := by simp
    replace added : body.addField size false ⟨next.offset, draft⟩ = .ok extended := notLast ▸ added
    have grown := StructBody.addField_eq_ok added
    have noTail := Bool.eq_false_iff.mpr fun tail => Bool.false_ne_true (grown.last tail)
    have draftTail : draft.hasTail = false :=
      (Bool.or_eq_false_iff.mp (grown.hasTail.symm.trans noTail)).1
    rcases (sound_planIn machineWords catalogWords words.1 False.elim scope _ shop scopeWords
      sound).ok isDraft with ⟨_, middleSound, draftSound⟩
    rcases ih words.2 middleSound (grown.sound bodySound behind draftSound.shaped) isRest with
      ⟨before, last, lastSound, beforeSound, same⟩
    refine ⟨before, last, lastSound, beforeSound, fun length => ?_⟩
    have isDraftToo : next.content.planIn catalog machine { scope with totalLength := length }
        (satAdd offset next.offset) shop = .ok draft middle := by
      rw [planIn_tailless (tailless_of_planIn isDraft draftTail) length]
      exact isDraft
    rw [← same length, cons_append, structBody_cons behind, bind_of_ok isDraftToo, notLast, added]
    rfl

end Structs

section Tails

/-- The shape ends in a tail. The offsets are those of the last field of a struct, of the last one
within that field, and so on down to the tail. -/
inductive Shape.TailAt (catalog : Catalog) (element : Shape) (least : Nat) : (offsets : List Nat) →
    Shape → Prop
  | tail : TailAt catalog element least [] (.array element (.atLeast least))
  | field {size align offset : Nat} {fields front : List (Placed Shape)} {shape : Shape}
      {offsets : List Nat} (isLast : Placed.sortByOffset fields = front ++ [⟨offset, shape⟩])
      (ends : TailAt catalog element least offsets shape) :
      TailAt catalog element least (offset :: offsets) (.struct size align fields)
  | named {id : DefId} {definition : Definition} {offsets : List Nat}
      (found : catalog.get? id = some definition)
        (ends : TailAt catalog element least offsets definition.shape) :
          TailAt catalog element least offsets (.named id)

/-- Somewhere the shape is drafted with so many bytes. -/
def Shape.DraftedWith (catalog : Catalog) (machine : Machine) (shape : Shape) (size : Nat) : Prop :=
  ∃ scope offset shop draft later,
    shape.planIn catalog machine scope offset shop = .ok draft later ∧ draft.fixedSize = some size

structure Draft.Tailed (align : Nat) (draft : Draft) : Prop where
  hasTail : draft.hasTail
  align : draft.align = align
  shaped : draft.pattern.Shaped

/-- A draft with a tail is put behind so many bytes. This may fail only if the whole is too large.
-/
structure Draft.Wraps (span inner outer : Nat) (wrap : Draft → Except Defect Draft) : Prop where
  tailed : ∀ draft whole, draft.Tailed inner → wrap draft = .ok whole →
    whole.Tailed outer ∧ whole.pattern.size = draft.pattern.size.map (span + ·)
  room : ∀ draft width, draft.Tailed inner → draft.pattern.size = some width →
    ((∃ whole, wrap draft = .ok whole) ↔ span + width ≤ cap)

variable {offsets : List Nat}

theorem Draft.wraps_self (align : Nat) : Wraps 0 align align .ok := by
  refine ⟨?_, fun draft _ tailed isWidth => ?_⟩
  · rintro _ _ tailed ⟨⟩
    exact ⟨tailed, by simp⟩
  · rw [Nat.zero_add]
    exact iff_of_true ⟨draft, rfl⟩ (tailed.shaped.fits_of_size isWidth).2

theorem Draft.Wraps.trans {span start inner middle outer : Nat}
    {wrap onward : Draft → Except Defect Draft} (first : Wraps span inner middle wrap)
    (second : Wraps start middle outer onward) :
    Wraps (start + span) inner outer fun draft => wrap draft >>= onward := by
  have bind_ok {draft whole : Draft} (isOk : (wrap draft >>= onward) = .ok whole) :
      ∃ part, wrap draft = .ok part ∧ onward part = .ok whole := by
    rcases isPart : wrap draft with _ | part
    · rw [isPart] at isOk
      cases isOk
    · exact ⟨part, rfl, by rwa [isPart] at isOk⟩
  refine ⟨fun draft whole tailed isOk => ?_,
    fun draft width tailed isWidth => ⟨?_, fun small => ?_⟩⟩
  · rcases bind_ok isOk with ⟨part, isPart, isWhole⟩
    rcases first.tailed draft part tailed isPart with ⟨partTailed, partSize⟩
    rcases second.tailed part whole partTailed isWhole with ⟨wholeTailed, wholeSize⟩
    refine ⟨wholeTailed, ?_⟩
    rw [wholeSize, partSize, Option.map_map]
    congr 1
    funext width
    simp only [Function.comp, Nat.add_assoc]
  · rintro ⟨whole, isOk⟩
    rcases bind_ok isOk with ⟨part, isPart, isWhole⟩
    rcases first.tailed draft part tailed isPart with ⟨partTailed, partSize⟩
    rw [isWidth, Option.map_some] at partSize
    have := (second.room part _ partTailed partSize).mp ⟨whole, isWhole⟩
    omega
  · rcases (first.room draft width tailed isWidth).mpr (by omega) with ⟨part, isPart⟩
    rcases first.tailed draft part tailed isPart with ⟨partTailed, partSize⟩
    rw [isWidth, Option.map_some] at partSize
    simp only [isPart]
    exact (second.room part _ partTailed partSize).mpr (by omega)

theorem StructBody.wraps_addField {before : StructBody} {start : Nat}
    (sound : before.Sound size false) (behind : before.stop ≤ start)
    (added : before.addField size true ⟨start, draft⟩ = .ok body) :
    Wraps start draft.align align fun inner => do
      let body ← before.addField size true ⟨start, inner⟩
      return ⟨body.pattern size, align, body.hasTail⟩ := by
  refine ⟨fun inner _ tailed isOk => ?_, fun inner width tailed isWidth => ?_⟩
  · rcases isAdded : before.addField size true ⟨start, inner⟩ with _ | extended
    · rw [isAdded] at isOk
      cases isOk
    rw [isAdded] at isOk
    cases isOk
    have grown := addField_eq_ok isAdded
    have hasTail : extended.hasTail := by rw [grown.hasTail, tailed.hasTail, Bool.true_or]
    have isPattern : extended.pattern size = .concat extended.parts := by
      rw [pattern, hasTail, if_pos rfl]
    rcases grown.size_concat sound behind tailed.shaped with ⟨shaped, isSize⟩
    exact ⟨⟨hasTail, rfl, isPattern ▸ shaped⟩, isPattern ▸ isSize⟩
  · have aligned := tailed.align ▸ aligned_of_addField added
    have isAdded : before.addField size true ⟨start, inner⟩ = _ :=
      addField_of_aligned aligned isWidth (fun _ => rfl) (by simp [tailed.hasTail])
    rw [isAdded]
    by_cases inside : start + width ≤ cap <;> simp [inside, bind, Except.bind, pure, Except.pure]

section Settled

variable (machineWords : machine.FitsWords) (catalogWords : catalog.FitsWords)

include machineWords catalogWords

/-- Whatever the length of the whole is, the shape is drafted up to the tail as it is without it.
The number of elements is then settled, and what comes before them is put in front of them. -/
theorem Shape.TailAt.exists_wrap (ends : TailAt catalog element least offsets shape)
    (words : shape.FitsWords) (unsettled : scope.totalLength = none) (low : offset ≤ cap)
    (sound : shop.Sound False)
    (planned : shape.planIn catalog machine scope offset shop = .ok draft later) :
    ∃ (unit : Draft) (size : Nat) (wrap : Draft → Except Defect Draft),
      element.DraftedWith catalog machine size ∧ unit.pattern.Fits size ∧ size ≤ cap ∧
      Wraps offsets.sum unit.align draft.align wrap ∧
      ∀ length, shape.planIn catalog machine { scope with totalLength := length } offset shop =
        ofExcept (do
          let count ← arrayCount (min (offset + offsets.sum) cap) size (.atLeast least) length
          wrap ⟨unit.pattern.replicate count, unit.align, true⟩) later := by
  have scopeWords : scope.FitsWords := by simp [Scope.FitsWords, unsettled]
  induction ends generalizing scope offset shop draft with
  | tail =>
    have isArray (scope : Scope) : (array element (.atLeast least)).planIn catalog machine scope
        offset = Plan.array (element.planIn catalog machine) (.atLeast least) scope offset := by
      simp only [planIn, plan]
    rw [isArray] at planned
    rcases bind_eq_ok.mp planned with ⟨unit, middle, isUnit, onward⟩
    rcases fixed : unit.fixedSize with _ | size
    · simp only [fixed] at onward
      cases onward
    simp only [fixed, unsettled, arrayCount] at onward
    cases onward
    cases words with
    | array _ elementWords =>
      have unitSound :=
        ((sound_planIn machineWords catalogWords elementWords False.elim scope offset shop
          scopeWords sound).ok isUnit).2.2
      rcases unitSound.shaped.fits_of_size (unit.fixedSize_eq_some fixed).2 with ⟨fits, inside⟩
      refine ⟨unit, size, .ok, ⟨_, _, _, _, _, isUnit, fixed⟩, fits, inside, wraps_self _,
        fun length => ?_⟩
      have noTail := (unit.fixedSize_eq_some fixed).1
      rw [isArray, Plan.array, planIn_tailless (tailless_of_planIn isUnit noTail),
        bind_of_ok isUnit]
      simp only [fixed, sum_nil, Nat.add_zero, Nat.min_eq_left low]
      rcases Plan.arrayCount offset size (.atLeast least) length with defect | count <;> rfl
  | @field size align start fields front shape offsets isLast _ ih =>
    have fieldWords : ∀ next ∈ front ++ [⟨start, shape⟩], next.content.FitsWords := by
      cases words with
      | struct _ each =>
        exact fun next member => each next (Placed.mem_sortByOffset.mp (isLast ▸ member))
    rw [forall_mem_append, forall_mem_singleton] at fieldWords
    rw [planIn_struct, isLast] at planned
    rcases ofExcept_bind_eq_ok planned with ⟨_, isPower, onward⟩
    rcases bind_eq_ok.mp onward with ⟨body, _, isBody, ⟨⟩⟩
    rcases structBody_last machineWords catalogWords fieldWords.1 scopeWords sound
      StructBody.sound_empty isBody with
      ⟨before, middle, middleSound, beforeSound, same⟩
    have alone : structBody size scope offset ([⟨start, shape⟩].map (Placed.planIn catalog machine))
        before middle = .ok body later := (same scope.totalLength).symm.trans isBody
    rcases structBody_cons_eq_ok alone with ⟨behind, inner, _, extended, isInner, added, isEnd⟩
    cases isEnd
    have lower : satAdd offset start ≤ cap := Nat.min_le_right _ _
    rcases ih fieldWords.2 unsettled lower middleSound isInner scopeWords with
      ⟨unit, bytes, wrap, drafted, fits, inside, wraps, run⟩
    refine ⟨unit, bytes, _, drafted, fits, inside,
      wraps.trans (StructBody.wraps_addField beforeSound behind added), fun length => ?_⟩
    have sameStart : min (offset + (start + offsets.sum)) cap =
        min (satAdd offset start + offsets.sum) cap := by
      simp only [satAdd]
      omega
    rw [sum_cons, sameStart, planIn_struct, isLast, isPower]
    refine (bind_of_eq (same length)).trans ?_
    change (structBody size _ offset ([⟨start, shape⟩].map (Placed.planIn catalog machine))
      before >>= _) middle = _
    rw [structBody_cons behind, bind_assoc]
    refine (bind_of_eq (run length)).trans ?_
    dsimp only
    generalize arrayCount _ bytes (.atLeast least) length = settled
    rcases settled with defect | count
    · rfl
    simp only [bind, Except.bind]
    rcases wrap ⟨unit.pattern.replicate count, unit.align, true⟩ with defect | part
    · rfl
    change ((ofExcept (before.addField size true ⟨start, part⟩) >>= pure) >>= fun body =>
      (pure ⟨body.pattern size, align, body.hasTail⟩ : Assembly Draft)) later = _
    simp only [bind]
    rcases before.addField size true ⟨start, part⟩ with defect | body <;> rfl
  | @named id definition _ found _ ih =>
    rcases planIn_named planned with ⟨_, isFound, same⟩
    cases found.symm.trans isFound
    have isDraft := planned
    rw [same scope.totalLength] at isDraft
    simp only [same]
    exact ih (catalogWords id definition found) (by exact unsettled) low sound isDraft
      (by exact scopeWords)

/-- If a shape that ends in a tail can be assembled on its own, its layout is of a fixed size only
if the elements of the tail have no bytes. Else it can be assembled for values of a given length if
that is the length of a whole number of elements behind the offset of the tail, and of enough of
them, and if no struct ends behind the cap. Then the layout has this length, and its referents are
what they are without it. -/
theorem Shape.TailAt.assemble_length {shape : Shape} {id : LayoutId}
    (ends : TailAt catalog element least offsets shape) (words : shape.FitsWords)
    (filled : shop.Filled) (assembled : shape.assemble catalog machine none shop = .ok id later) :
    ∃ size, element.DraftedWith catalog machine size ∧
      ((later.arena.layout id).size = none ↔ size ≠ 0) ∧ (size ≠ 0 → ∀ length ≤ Extent.cap,
        let start := min offsets.sum Extent.cap
        let fits := start ≤ length ∧ size ∣ length - start ∧ least ≤ (length - start) / size
        ((∃ own last, shape.assemble catalog machine (some length) shop = .ok own last) ↔
          fits ∧ ∀ inner, inner <:+ offsets → inner.sum + (length - start) ≤ Extent.cap) ∧
        (∀ own last, shape.assemble catalog machine (some length) shop = .ok own last →
          own = id ∧ (last.arena.layout own).size = some length ∧
          ∃ planned draft resolved, shape.planIn catalog machine {} 0 shop = .ok draft planned ∧
            shape.planIn catalog machine { totalLength := some length } 0 shop = .ok resolved
              planned) ∧
        (¬ fits → ∃ last, shape.assemble catalog machine (some length) shop =
          .error (.tailLength start size length) last)) := by
  have sound : shop.Sound False := filled.sound
  rcases size_of_assemble assembled with ⟨draft, planned, isDraft, rfl, isSize⟩
  rcases ends.exists_wrap machineWords catalogWords words rfl (Nat.zero_le _) sound isDraft with
    ⟨unit, size, wrap, drafted, fitsUnit, unitInside, wraps, run⟩
  rw [Nat.zero_add] at run
  refine ⟨size, drafted, ?_, fun bytes length inside => ?_⟩
  · have isWrapped : wrap ⟨unit.pattern.replicate (.atLeast least), unit.align, true⟩ =
        .ok draft := by
      have isOk := (run none).symm.trans isDraft
      rcases isWrapped : wrap ⟨unit.pattern.replicate (.atLeast least), unit.align, true⟩ with
        _ | _ <;>
        simp only [arrayCount, bind, Except.bind, isWrapped] at isOk <;> cases isOk
      rfl
    have tailed : Tailed unit.align ⟨unit.pattern.replicate (.atLeast least), unit.align, true⟩ :=
      ⟨rfl, rfl, shaped_replicate_atLeast least fitsUnit unitInside⟩
    rw [isSize, (wraps.tailed _ draft tailed isWrapped).2, Option.map_eq_none_iff]
    exact size_replicate_atLeast (size_of_fits fitsUnit unitInside) least
  intro start fits
  have refused (noFit : ¬ fits) :
      arrayCount start size (.atLeast least) (some length) =
      .error (.tailLength start size length) := by
    simp only [fits, Nat.dvd_iff_mod_eq_zero] at noFit
    simp only [arrayCount, bytes, if_false]
    rw [if_pos (by omega)]
  let tail : Draft := ⟨unit.pattern.replicate (.exact ((length - start) / size)), unit.align, true⟩
  have settled (isFit : fits) : tail.Tailed unit.align ∧ tail.pattern.size = some (length - start) ∧
      arrayCount start size (.atLeast least) (some length) =
        .ok (.exact ((length - start) / size)) := by
    rcases isFit with ⟨behind, whole, enough⟩
    have isLength := Nat.mul_div_cancel' whole
    have fitsTail := fits_replicate fitsUnit (by omega : size * ((length - start) / size) ≤ cap)
    rw [isLength] at fitsTail
    refine ⟨⟨rfl, rfl, .inl ⟨_, fitsTail, by omega⟩⟩, size_of_fits fitsTail (by omega), ?_⟩
    have none := Nat.dvd_iff_mod_eq_zero.mp whole
    simp only [arrayCount, bytes, if_false]
    rw [if_neg (by omega)]
  have wrapped (isFit : fits) : shape.planIn catalog machine { totalLength := some length } 0 shop =
      ofExcept (wrap tail) planned := by
    refine (run (some length)).trans ?_
    rw [(settled isFit).2.2]
    rfl
  have stopped (noFit : ¬ fits) : shape.assemble catalog machine (some length) shop =
      .error (.tailLength start size length) planned := by
    refine bind_of_error ((run (some length)).trans ?_)
    rw [refused noFit]
    rfl
  have resolved {own : LayoutId} {last : Workshop}
      (isOwn : shape.assemble catalog machine (some length) shop = .ok own last) :
      fits ∧ ∃ whole, wrap tail = .ok whole ∧
        shape.planIn catalog machine { totalLength := some length } 0 shop = .ok whole planned := by
    by_cases isFit : fits
    · rcases size_of_assemble isOwn with ⟨_, _, isWhole, _⟩
      rw [wrapped isFit] at isWhole ⊢
      generalize wrap tail = outcome at isWhole ⊢
      rcases outcome with _ | _ <;> cases isWhole
      exact ⟨isFit, _, rfl, rfl⟩
    · rw [stopped isFit] at isOwn
      cases isOwn
  have room (isFit : fits) := wraps.room tail _ (settled isFit).1 (settled isFit).2.1
  refine ⟨⟨?_, ?_⟩, fun own last isOwn => ?_, fun noFit => ⟨planned, stopped noFit⟩⟩
  · rintro ⟨own, last, isOwn⟩
    rcases resolved isOwn with ⟨isFit, whole, isWhole, _⟩
    refine ⟨isFit, ?_⟩
    rintro inner ⟨front, rfl⟩
    have small := (room isFit).mp ⟨whole, isWhole⟩
    rw [sum_append] at small
    omega
  · rintro ⟨isFit, each⟩
    rcases (room isFit).mpr (each _ suffix_rfl) with ⟨_, isWhole⟩
    have isOk := wrapped isFit
    rw [isWhole] at isOk
    rcases exists_assemble machineWords catalogWords words (by rintro _ ⟨⟩; exact inside) sound
      isOk with
      ⟨own, last, isOwn, _⟩
    exact ⟨own, last, isOwn⟩
  · rcases resolved isOwn with ⟨isFit, whole, isWhole, isOk⟩
    rcases size_of_assemble isOwn with ⟨other, plannedToo, isOther, rfl, isSizeToo⟩
    rw [isOk] at isOther
    cases isOther
    refine ⟨rfl, ?_, planned, draft, whole, isDraft, isOk⟩
    rw [isSizeToo, (wraps.tailed tail whole (settled isFit).1 isWhole).2, (settled isFit).2.1,
      Option.map_some]
    have small := (room isFit).mp ⟨whole, isWhole⟩
    have behind := isFit.1
    congr 1
    omega

end Settled

def Catalog.listing : Catalog where
  entries :=
    [(⟨0⟩, ⟨"Listing",
        .struct 2 2 [⟨0, .scalar (.int 2)⟩, ⟨2, .array (.scalar (.int 2)) (.atLeast 1)⟩]⟩)]
  next := 1

def Shape.titled : Shape :=
  .struct 16 8 [⟨16, .named ⟨0⟩⟩, ⟨0, .reference (.named ⟨0⟩) ⟨2, .shared, .static⟩⟩]

theorem Shape.TailAt.assemble_length_titled :
    ∃ size, size ≠ 0 ∧ ∀ length ≤ Extent.cap,
      ((∃ own last, Shape.titled.assemble .listing {} (some length) {} = .ok own last) ↔
        (min 18 Extent.cap ≤ length ∧ size ∣ length - min 18 Extent.cap ∧
          1 ≤ (length - min 18 Extent.cap) / size) ∧
        ∀ inner, inner <:+ [16, 2] → inner.sum + (length - min 18 Extent.cap) ≤ Extent.cap) := by
  have inner : TailAt .listing (.scalar (.int 2)) 1 [2] (.named ⟨0⟩) :=
    .named rfl (@TailAt.field _ _ _ _ _ _ _ [⟨0, .scalar (.int 2)⟩] _ _ rfl .tail)
  have ends : TailAt .listing (.scalar (.int 2)) 1 [16, 2] titled :=
    @TailAt.field _ _ _ _ _ _ _ [⟨0, .reference (.named ⟨0⟩) ⟨2, .shared, .static⟩⟩] _ _ rfl inner
  let measured : Assembly (Option Nat) := do
    let id ← titled.assemble .listing {} none
    return ((← get).arena.layout id).size
  have unsized : measured.run' {} = some none := by decide +kernel
  rcases assembled : titled.assemble .listing {} none {} with ⟨id, later⟩ | ⟨defect, later⟩
  · rcases ends.assemble_length Workshop.fitsWords_machine (.of_fits rfl) (.of_fits rfl) .empty
      assembled with
      ⟨size, _, isUnsized, resolves⟩
    have isMeasured : measured {} = .ok (later.arena.layout id).size later := bind_of_ok assembled
    delta EStateM.run' EStateM.run at unsized
    rw [isMeasured] at unsized
    have bytes := isUnsized.mp (Option.some.inj unsized)
    exact ⟨size, bytes, fun length inside => (resolves bytes length inside).1⟩
  · have failed : measured {} = .error defect later := bind_of_error assembled
    delta EStateM.run' EStateM.run at unsized
    rw [failed] at unsized
    cases unsized

end Tails

end Recast
