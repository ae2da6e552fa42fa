import Recast.Proofs.Inclusion.Twins
import Recast.Proofs.Question.Drafted

/-!
# Unions of plain members

A plain union is laid out by a choice among the patterns of structs with one of its members each
(`Shape.DraftsTo.members`), and its values are theirs. Hence a source is accepted if and only if
each of these structs is (`Setting.recast_union_iff`), and a destination accepts what one of them
does, if the source reaches to its end (`Setting.recast_union_of_member`).
-/

namespace Recast

open Position List Extent Pattern Assembly Shape Budget

variable {setting : Setting} {source destination : Shape} {arena : Arena} {inquiry : Inquiry}
  {size align : Nat} {fields : List (Placed Shape)} {field : Placed Shape}

namespace Plan

variable {scope : Scope} {offset place : Nat} {shop later : Workshop} {members : List Pattern}
  {draft : Draft} {member : Pattern}

theorem unionMembers_eq_ok {plans : List (Placed Plan)} (aloof : ∀ plan ∈ plans, plan.content.Aloof)
    (made : unionMembers size scope offset plans shop = .ok members later) :
    Forall₂ (fun plan member => ∃ draft,
      plan.content scope (satAdd offset plan.offset) = Assembly.ofExcept (.ok draft) ∧
        unionMember size ⟨plan.offset, draft⟩ = .ok member) plans members := by
  induction plans generalizing members later with
  | nil =>
    cases made
    exact .nil
  | cons plan rest ih =>
    rw [forall_mem_cons] at aloof
    rcases aloof.1 scope (satAdd offset plan.offset) with ⟨_, isVerdict⟩
    rw [unionMembers, isVerdict] at made
    rcases ofExcept_bind_eq_ok made with ⟨draft, rfl, onward⟩
    rcases ofExcept_bind_eq_ok onward with ⟨_, isMember, onwardThen⟩
    rcases bind_eq_ok.mp onwardThen with ⟨_, _, isOthers, ⟨⟩⟩
    exact .cons ⟨draft, isVerdict, isMember⟩ (ih aloof.2 isOthers)

theorem struct_single {plan : Plan} (inside : size ≤ cap)
    (aligned : requirePowerOfTwo align = .ok ())
    (drawn : plan scope (satAdd offset place) = ofExcept (.ok draft))
    (isMember : unionMember size ⟨place, draft⟩ = .ok member) :
    Plan.struct size align [⟨place, plan⟩] scope offset =
      Assembly.ofExcept (.ok { pattern := member, align }) := by
  rcases unionMember_eq_ok isMember with ⟨width, fixed, room, rfl⟩
  rcases draft.fixedSize_eq_some fixed with ⟨noTail, isWidth⟩
  have isStop : add? place width = some (place + width) :=
    add?_eq_some_iff.mpr ⟨rfl, le_trans room inside⟩
  rcases isPlaced : requireAligned place draft.align with _ | _
  · simp only [unionMember, isPlaced] at isMember
    cases isMember
  have added : StructBody.addField {} size true ⟨place, draft⟩ =
      .ok ⟨[.padding place, draft.pattern], place + width, false⟩ := by
    simp [StructBody.addField, isPlaced, noTail, isWidth, isStop, Nat.not_lt.mpr room, bind,
      Except.bind, pure, Except.pure]
  simp only [Plan.struct, aligned, Placed.sortByOffset, foldr, Placed.insertByOffset, structBody,
    drawn, added, Assembly.ofExcept, pure_bind, Nat.not_lt_zero, if_false, List.isEmpty_nil]
  rfl

end Plan

namespace Shape

variable {catalog : Catalog} {machine : Machine} {draft : Draft}

/-- A union offers what structs with one of its members each are laid out by. -/
theorem DraftsTo.members (words : (union size align fields).FitsWords)
    (plain : (union size align fields).Plain catalog)
    (drafts : (union size align fields).DraftsTo catalog machine draft) :
    ∃ members, draft.pattern = .alt members ∧
      Forall₂ (fun field member => field ∈ fields ∧ member ∈ members ∧
        (struct size align [field]).DraftsTo catalog machine { pattern := member, align }) fields
          members := by
  rcases words with _ | _ | inside
  rcases plain with _ | _ | eachPlain
  have isRun : Plan.union size align
      (fields.map (Placed.map fun part => part.planIn catalog machine)) {} 0 =
      ofExcept (.ok draft) := by
    rw [← drafts]
    exact congrArg (Plan.union size align · {} 0) (fieldPlans_eq fields).symm
  rcases ofExcept_bind_eq_ok (congrFun isRun {}) with ⟨_, aligned, onward⟩
  dsimp only at onward
  split at onward
  · cases onward
  rcases bind_eq_ok.mp onward with ⟨members, _, isMembers, ⟨⟩⟩
  refine ⟨members, rfl, ?_⟩
  have each := Plan.unionMembers_eq_ok
    (forall_mem_map.mpr fun field member => (eachPlain field member).aloof_planIn machine) isMembers
  have pairs := forall₂_iff_zip.mp (forall₂_map_left_iff.mp each)
  refine forall₂_iff_zip.mpr ⟨pairs.1, fun pair => ?_⟩
  rcases pairs.2 pair with ⟨_, drawn, isMember⟩
  exact ⟨(of_mem_zip pair).1, (of_mem_zip pair).2, Plan.struct_single inside aligned drawn isMember⟩

end Shape

namespace Position.Companions

variable {first second : Arena} {tokens : Token → Token → Prop} {alike : Position → Position → Prop}
  {position image : Position} {letters : List Letter} {rules : Rules}

/-- Companions that read the same tokens serve the same letters. -/
theorem serves (companions : Companions first second tokens alike)
    (same : ∀ token other, tokens token other → token = other)
    (isCell : ∀ letter ∈ letters, letter.IsCell) (isAlike : alike position image)
    (serves : rules.Serves first letters position) :
    rules.Serves second letters image := by
  induction serves generalizing image with
  | finished isOver =>
    refine .finished ⟨(companions.ends isAlike).mp isOver.1, fun _ _ reads => ?_⟩ _
    rcases companions.back isAlike reads with ⟨_, _, readsFirst, _⟩
    exact isOver.2 _ _ readsFirst
  | stop stops => exact .stop (stops.imp (companions.ends isAlike).mp (companions.pads isAlike))
  | take takes _ ih =>
    rw [forall_mem_cons] at isCell
    rcases takes.reads_or_forgets with ⟨token, reads, _, fits⟩ | ⟨_, rfl, _⟩
    · rcases companions.forth isAlike reads with ⟨other, _, readsToo, isSame, onward⟩
      cases same token other isSame
      exact .take (fits readsToo) (ih isCell.2 onward)
    · exact isCell.1.elim

end Position.Companions

namespace Arena

variable {first second base baseToo : Arena} {id image : LayoutId} {pattern : Pattern}
  {rules : Rules} {letters : List Letter} {plot plotToo : Plot} {proper properToo : Token → Prop}

/-- Layouts that are defined by one plain pattern serve the same letters. -/
theorem Defines.serves (defines : first.Defines (fun _ => False) id pattern base first)
    (definesToo : second.Defines (fun _ => False) image pattern baseToo second)
    (charts : first.Charts plot proper) (chartsToo : second.Charts plotToo properToo)
    (mirrors : pattern.Mirrors (fun _ _ => False) pattern)
    (isCell : ∀ letter ∈ letters, letter.IsCell)
    (serves : rules.Serves first letters (.root first id)) :
    rules.Serves second letters (.root second image) := by
  have some {arena : Arena} {plot : Plot} {proper : Token → Prop}
      (charts : arena.Charts plot proper) : arena.Charts plot fun _ => True :=
      charts.mono fun _ _ => trivial
  refine Position.Companions.serves
    (defines.correspondence definesToo mirrors (some charts) (some chartsToo)).companions ?_ isCell
    (defines.tracks_root definesToo mirrors (some charts) (some chartsToo)) serves
  intro token other same
  cases same with
  | reference _ _ never => exact never.elim
  | cell | marker => rfl

end Arena

namespace Setting

variable {draft draftToo : Draft} {assumed : Assumptions}

theorem eventually_forall_iff {α β : Type} {holds : Budget → α → Prop} {holdsToo : β → Prop}
    {items : List α} {others : List β}
    (each : Forall₂ (fun item other => ∀ᶠ budget in growing, holds budget item ↔
      holdsToo other) items others) :
    ∀ᶠ budget in growing, (∀ item ∈ items, holds budget item) ↔
      ∀ other ∈ others, holdsToo other := by
  induction each with
  | nil => simp
  | cons here _ ih =>
    filter_upwards [here, ih] with budget first others
    rw [forall_mem_cons, forall_mem_cons, first, others]

theorem Plain.swap (plain : setting.Plain source destination) : setting.Plain destination source :=
  ⟨plain.words, plain.destinationWords, plain.sourceWords, plain.destinationPlain,
    plain.sourcePlain⟩

theorem Plain.member (plain : setting.Plain (.union size align fields) destination)
    (isField : field ∈ fields) :
    setting.Plain (.struct size align [field]) destination := by
  rcases plain with
    ⟨words, _ | _ | ⟨inside, eachWords⟩, destinationWords, _ | _ | eachPlain, destinationPlain⟩
  exact ⟨words, .struct inside (forall_mem_singleton.mpr (eachWords field isField)),
    destinationWords, .struct (forall_mem_singleton.mpr (eachPlain field isField)),
      destinationPlain⟩

/-- The shapes can be assembled, and no way through the source comes to a dead end. -/
def LivelySource (setting : Setting) (source destination : Shape) : Prop :=
  ∃ inquiry arena, setting.Assembles source destination inquiry arena ∧ arena.Live inquiry.1

/-- A union of plain members, where no way comes to a dead end, is accepted as a plain shape, if the
budget allows, exactly when each of its members is. -/
theorem recast_union_iff (plain : setting.Plain (.union size align fields) destination)
    (noSourceLength : setting.sourceLength = none)
    (noDestinationLength : setting.destinationLength = none) (strict : .validity ∉ assumed)
    (lively : setting.LivelySource (.union size align fields) destination)
    (eachLively : ∀ field ∈ fields, setting.LivelySource (.struct size align [field]) destination) :
    Budget.ForLarge fun budget =>
      (({ setting with budget }.recast (.union size align fields) destination assumed).isOk ↔
        ∀ field ∈ fields,
          ({ setting with budget }.recast (.struct size align [field]) destination
            assumed).isOk) := by
  rcases lively with ⟨inquiry, arena, assembles, live⟩
  rcases plain.exists_drafts noSourceLength noDestinationLength assembles with
    ⟨draft, draftToo, drafted⟩
  rcases drafted.lays assembles with ⟨⟨_, charts⟩, lays, _⟩
  rcases drafted.exists_define assembles with ⟨_, _, _, _, ⟨inside, defined⟩, _, _, indexed⟩
  rcases drafted.drafts.members plain.sourceWords plain.sourcePlain with ⟨members, isAlt, each⟩
  have firm := drafted.firm.1
  rw [isAlt] at lays firm
  have mirrors : draftToo.pattern.Mirrors (fun _ _ => False) draftToo.pattern := by
    refine mirrors_self (drafted.sound.2.leaves.mono fun _ admitted => ?_)
    rcases admitted.2 trivial with ⟨contents, rfl⟩
    exact .cell contents
  let serves (member : Pattern) : Prop := ∀ value, member.Value value →
    ((setting.terms arena assumed).rules fun _ => False).Serves arena value (.root arena inquiry.2)
  have ofMember {field : Placed Shape} {member : Pattern}
      (found : field ∈ fields ∧ member ∈ members ∧ (struct size align [field]).DraftsTo
      setting.catalog setting.machine { pattern := member, align }) : ∀ᶠ budget in growing,
        (({ setting with budget }.recast (.struct size align [field]) destination assumed).isOk ↔
          serves member) := by
    rcases found with ⟨isField, isMember, drafts⟩
    have memberDrafted : setting.Drafts (.struct size align [field])
        destination { pattern := member, align } draftToo :=
      ⟨plain.member isField, noSourceLength, noDestinationLength, drafts, drafted.draftsToo⟩
    rcases eachLively field isField with ⟨_, _, assemblesToo, memberLive⟩
    rcases memberDrafted.lays assemblesToo with ⟨⟨_, chartsToo⟩, memberLays, _⟩
    rcases memberDrafted.exists_define assemblesToo with
      ⟨_, _, _, _, ⟨insideToo, definedToo⟩, _, _, indexedToo⟩
    have defines := Arena.defines_define _ inside indexed not_false (fun _ => False.elim) defined
    have definesToo :=
      Arena.defines_define _ insideToo indexedToo not_false (fun _ => False.elim) definedToo
    have ofStruct := recast_iff_serves memberDrafted.toPlain strict assemblesToo memberLive
    rw [forLarge_iff] at ofStruct
    filter_upwards [ofStruct] with budget isOk_iff
    rw [isOk_iff]
    refine forall_congr' fun value => ?_
    rw [memberLays.value_iff chartsToo memberDrafted.firm.1]
    exact forall_congr' fun isValue =>
      ⟨definesToo.serves defines chartsToo charts mirrors isValue.1,
        defines.serves definesToo charts chartsToo mirrors isValue.1⟩
  have ofUnion := recast_iff_serves plain strict assembles live
  have ofMembers := eventually_forall_iff (each.imp fun _ _ => ofMember)
  rw [forLarge_iff] at ofUnion ⊢
  filter_upwards [ofUnion, ofMembers] with budget isOk_iff all_iff
  rw [isOk_iff, all_iff]
  simp only [lays.value_iff charts firm, value_alt]
  constructor
  · intro all member isMember value isValue
    exact all value ⟨member, isMember, isValue⟩
  · rintro all value ⟨member, isMember, isValue⟩
    exact all member isMember value isValue

theorem livelySource_of_assembled?
    (found : (setting.assembled? source destination).any (fun found =>
      decide (found.2.Tabled ∧ found.1.1.index < found.2.layouts.size))) :
    setting.LivelySource source destination := by
  rcases (Option.any_eq_true _ _).mp found with ⟨found, isFound, facts⟩
  rw [decide_eq_true_eq] at facts
  exact ⟨_, _, assembles_of_assembled? isFound, facts.1.live facts.2⟩

/-- A byte with padding and a row of two booleans are each accepted as the union of the two. -/
theorem recast_union_iff_bits :
    Setting.LivelySource {} byteOrBits byteOrBits ∧
      Budget.ForLarge fun budget =>
        ((Setting.recast { budget } byteOrBits byteOrBits ∅).isOk ↔
          ∀ field ∈ [⟨0, .struct 2 1 [⟨0, .scalar (.int 1)⟩]⟩,
            ⟨0, .array (.scalar .bool) (.exact 2)⟩],
              (Setting.recast { budget } (.struct 2 1 [field]) byteOrBits ∅).isOk) := by
  have lively : Setting.LivelySource {} byteOrBits byteOrBits :=
    livelySource_of_assembled? (by decide +kernel)
  have plain : Setting.Plain {} byteOrBits byteOrBits :=
    ⟨fitsWords_default, .of_fits rfl, .of_fits rfl, plain_byteOrBits _, plain_byteOrBits _⟩
  have holds := recast_union_iff plain rfl rfl Assumptions.not_mem_empty lively
  refine ⟨lively, holds ?_⟩
  rw [forall_mem_cons, forall_mem_singleton]
  exact ⟨livelySource_of_assembled? (by decide +kernel),
    livelySource_of_assembled? (by decide +kernel)⟩

def toCrossed (id : Nat) : Shape :=
  .reference (.named ⟨id⟩) ⟨8, .shared, .static⟩

/-- Two shapes that refer to each other, one of them with a tail. -/
def crossed : Catalog where
  entries := [(⟨0⟩, ⟨"A", .struct 16 8 [⟨0, toCrossed 1⟩]⟩),
    (⟨1⟩, ⟨"B", .struct 16 8 [⟨0, toCrossed 0⟩, ⟨16, .array (.scalar (.int 1)) (.atLeast 0)⟩]⟩)]
  next := 2

/-- Behind references it does not hold: these are laid out by what is under way. -/
theorem recast_union_not_each :
    let setting : Setting := { catalog := crossed, budget := .unlimited }
    let either : Shape := .union 16 8 [⟨0, toCrossed 0⟩, ⟨0, toCrossed 1⟩]
    (setting.recast either either ∅).isOk ∧
      (setting.recast (.struct 16 8 [⟨0, toCrossed 1⟩]) either ∅).isOk = false := by
  decide +kernel

/-- What is accepted as one member of a plain union is accepted as the union, if the budget allows,
provided that it reaches to the end of the union. -/
theorem recast_union_of_member (plain : setting.Plain source (.union size align fields))
    (noSourceLength : setting.sourceLength = none)
    (noDestinationLength : setting.destinationLength = none) (strict : .validity ∉ assumed)
    (assembles : setting.Assembles source (.union size align fields) inquiry arena)
    (live : arena.Live inquiry.1)
    (covers : ∀ value, arena.Value inquiry.1 value → arena.bytes inquiry.2 ≤ value.length)
    (isField : field ∈ fields) :
    Budget.ForLarge fun budget =>
      (({ setting with budget }.recast source (.struct size align [field]) assumed).isOk →
        ({ setting with budget }.recast source (.union size align fields) assumed).isOk) := by
  rcases plain.exists_drafts noSourceLength noDestinationLength assembles with
    ⟨draft, draftToo, drafted⟩
  rcases drafted.lays assembles with ⟨⟨_, charts⟩, lays, laysToo⟩
  rcases drafted.draftsToo.members plain.destinationWords plain.destinationPlain with
    ⟨members, isAlt, each⟩
  have drawn := forall_of_forall₂_left each fun _ member found => Exists.intro member found.2
  rcases drawn field isField with ⟨member, isMember, drafts⟩
  have memberDrafted : setting.Drafts source (.struct size align [field])
      draft { pattern := member, align } :=
    ⟨(plain.swap.member isField).swap, noSourceLength, noDestinationLength, drafted.drafts, drafts⟩
  have firm := drafted.firm.2
  rw [isAlt] at firm
  rcases firm.shaped.options with ⟨width, inside, fits, _⟩
  have isSize : draftToo.pattern.size = some width := by rw [isAlt, size_of_fits fits inside]
  have isMemberSize := size_of_fits (fitEach_iff.mp fits.2 member isMember) inside
  simp only [lays.value_iff charts drafted.firm.1, Arena.bytes, laysToo.size, isSize,
    Option.getD_some] at covers
  have ofUnion := drafted.recast_iff_readable strict assembles (lays.live_iff.mp live) isSize covers
  rw [forLarge_iff]
  by_cases builds : ∃ inquiry arena, setting.Assembles source (.struct size align [field]) inquiry
    arena
  · rcases builds with ⟨_, _, memberAssembles⟩
    have ofMember :=
      memberDrafted.recast_iff_readable strict memberAssembles (lays.live_iff.mp live) isMemberSize
        covers
    filter_upwards [ofMember, ofUnion] with budget member_iff union_iff
    rw [member_iff, union_iff, isAlt]
    intro readable value isValue
    rcases readable value isValue with ⟨other, isOther, isReadable⟩
    exact ⟨other, value_alt.mpr ⟨member, isMember, isOther⟩, isReadable⟩
  · refine .of_forall fun budget isOk => absurd ?_ builds
    rcases accepted : { setting with budget }.recast source (.struct size align [field])
      assumed with _ | _
    · rw [accepted] at isOk
      cases isOk
    · rcases assembles_of_recast accepted with ⟨_, _, memberAssembles⟩
      exact ⟨_, _, memberAssembles⟩

/-- Three booleans start like a row of two, so also like the union. -/
theorem recast_union_of_member_bits :
    ∃ found, assembled? {} threeBits byteOrBits = some found ∧ found.2.Live found.1.1 ∧
      (∀ value, found.2.Value found.1.1 value → found.2.bytes found.1.2 ≤ value.length) ∧
      Budget.ForLarge fun budget =>
        ((Setting.recast { budget } threeBits (.struct 2 1 [⟨0, .array (.scalar .bool) (.exact 2)⟩])
          ∅).isOk → (Setting.recast { budget } threeBits byteOrBits ∅).isOk) := by
  rcases assembled_bits with ⟨found, isFound, live, isSourceSize, isDestinationSize⟩
  have assembles := assembles_of_assembled? isFound
  have plain : Setting.Plain {} threeBits byteOrBits := ⟨fitsWords_default, .of_fits rfl,
    .of_fits rfl, .array (.scalar _), plain_byteOrBits _⟩
  rcases plain.charted assembles with ⟨⟨_, charts⟩, inside, _⟩
  have covers (value : List Letter) (isValue : found.2.Value found.1.1 value) :
      found.2.bytes found.1.2 ≤ value.length := by
    rw [isValue.length_eq charts (fun _ admitted => admitted.2 trivial) inside isSourceSize,
      Arena.bytes, isDestinationSize]
    decide
  have holds := recast_union_of_member plain rfl rfl Assumptions.not_mem_empty assembles live covers
    (.tail _ (.head _))
  exact ⟨found, isFound, live, covers, holds⟩

/-- Without a byte, it may be followed by padding in the member and by more than that in the union.
-/
theorem recast_union_not_of_member : let setting : Setting := { budget := .unlimited }
    let blank : Placed Shape := ⟨0, .scalar (.uninit 1)⟩
    (setting.recast (.struct 0 1 []) (.struct 1 1 [blank]) ∅).isOk ∧
      (setting.recast (.struct 0 1 []) (.union 1 1 [blank, ⟨0, .scalar (.int 1)⟩]) ∅).isOk =
        false := by
  decide +kernel

end Setting

end Recast
