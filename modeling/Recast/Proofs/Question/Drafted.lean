import Recast.Proofs.Arena.Realize
import Recast.Proofs.Assembly.Aloof
import Recast.Proofs.Pattern.Live
import Recast.Proofs.Question.Plain

/-!
# Plain shapes and their patterns

A plain shape is laid out by the same pattern wherever it is assembled (`Shape.DraftsTo`), so its
values are the same in every arena, and are told by the pattern (`Arena.Lays.value_iff`).
-/

namespace Recast

open Position List Arena Letter

variable {shape source destination : Shape} {draft : Draft} {setting : Setting} {arena : Arena}
  {inquiry : Inquiry} {size : Nat} {id : LayoutId}

namespace Shape

variable {catalog : Catalog} {machine : Machine}

/-- The shape comes to the draft in every workshop, and leaves the workshop as it is. -/
def DraftsTo (shape : Shape) (catalog : Catalog) (machine : Machine) (draft : Draft) : Prop :=
  shape.planIn catalog machine {} 0 = Assembly.ofExcept (.ok draft)

theorem Plain.exists_draftsTo {shop later : Workshop} (plain : shape.Plain catalog)
    (assembled : shape.assemble catalog machine none shop = .ok id later) :
    ∃ draft, shape.DraftsTo catalog machine draft := by
  rcases Shape.assemble_eq_ok assembled with ⟨draft, _, isDraft, _⟩
  rcases plain.aloof_planIn machine {} 0 with ⟨verdict, isVerdict⟩
  cases verdict with
  | ok draft => exact ⟨draft, isVerdict⟩
  | error =>
    rw [isVerdict] at isDraft
    cases isDraft

section Drafts

variable (drafts : shape.DraftsTo catalog machine draft) (machineWords : machine.FitsWords)
  (catalogWords : catalog.FitsWords) (words : shape.FitsWords)

include drafts machineWords catalogWords words

theorem DraftsTo.sound (plain : shape.Plain catalog) : draft.Sound True 0 := by
  have planned := Shape.sound_planIn machineWords catalogWords words (fun _ : True => plain) {} 0 {}
    (by simp [Scope.FitsWords]) Workshop.sound_empty
  rw [drafts] at planned
  exact planned.2.2

theorem DraftsTo.measures : draft.Measures catalog machine shape := by
  have draws :=
    Shape.draws_planIn (Draft.passes_measures machineWords) machineWords catalogWords words
  have planned := draws.draws [] {} 0 {} (by simp [Scope.FitsWords]) Workshop.sound_empty
    (by constructor <;> simp)
  rw [drafts] at planned
  exact planned.2.2.2 rfl

end Drafts

end Shape

namespace Setting

variable {draftToo : Draft}

theorem define_of_draftsTo {larger : Arena}
    (drafts : shape.DraftsTo setting.catalog setting.machine draft)
    (assembled : setting.assemble shape none arena = .ok (id, larger)) :
    id.index < arena.reserve.2.layouts.size ∧
    arena.reserve.2.define id draft.pattern = .ok larger := by
  rcases assemble_eq_ok assembled with ⟨_, isOk, _, rfl⟩
  rcases Shape.assemble_eq_ok isOk with ⟨_, _, isDraft, rfl, defined⟩
  rw [drafts] at isDraft
  cases isDraft
  exact ⟨by simp [reserve, Workshop.size], defined⟩

/-- The shapes are plain, and come to the drafts wherever they are assembled. No lengths are given
for them. -/
structure Drafts (setting : Setting) (source destination : Shape) (draft draftToo : Draft) : Prop
    extends setting.Plain source destination where
  noSourceLength : setting.sourceLength = none
  noDestinationLength : setting.destinationLength = none
  drafts : source.DraftsTo setting.catalog setting.machine draft
  draftsToo : destination.DraftsTo setting.catalog setting.machine draftToo

theorem Plain.exists_drafts (plain : setting.Plain source destination)
    (noSourceLength : setting.sourceLength = none)
    (noDestinationLength : setting.destinationLength = none)
    (assembles : setting.Assembles source destination inquiry arena) :
    ∃ draft draftToo, setting.Drafts source destination draft draftToo := by
  rcases assembles with ⟨_, first, second⟩
  rw [noSourceLength] at first
  rw [noDestinationLength] at second
  rcases assemble_eq_ok first with ⟨_, assembled, _⟩
  rcases assemble_eq_ok second with ⟨_, assembledToo, _⟩
  rcases plain.sourcePlain.exists_draftsTo assembled with ⟨draft, drafts⟩
  rcases plain.destinationPlain.exists_draftsTo assembledToo with ⟨draftToo, draftsToo⟩
  exact ⟨draft, draftToo, plain, noSourceLength, noDestinationLength, drafts, draftsToo⟩

namespace Drafts

variable (drafted : setting.Drafts source destination draft draftToo)
include drafted

theorem sound : draft.Sound True 0 ∧ draftToo.Sound True 0 :=
  ⟨drafted.drafts.sound drafted.words.machine drafted.words.catalog drafted.sourceWords
    drafted.sourcePlain, drafted.draftsToo.sound drafted.words.machine drafted.words.catalog
    drafted.destinationWords drafted.destinationPlain⟩

theorem firm : draft.pattern.Firm ∧ draftToo.pattern.Firm := by
  have each {draft : Draft} (sound : draft.Sound True 0) : draft.pattern.Firm := by
    refine ⟨sound.shaped, sound.leaves.mono ?_⟩
    rintro _ ⟨isProper, isCell⟩
    rcases isCell trivial with ⟨_ | _, rfl⟩ <;> exact isProper
  exact ⟨each drafted.sound.1, each drafted.sound.2⟩

variable (assembles : setting.Assembles source destination inquiry arena)
include assembles

theorem exists_define :
    ∃ base middle baseToo : Arena,
      (inquiry.1.index < base.layouts.size ∧ base.define inquiry.1 draft.pattern = .ok middle) ∧
      (inquiry.2.index < baseToo.layouts.size ∧ baseToo.define inquiry.2 draftToo.pattern = .ok
        arena) ∧ middle.Keeps arena ∧ middle.WellIndexed ∧ arena.WellIndexed := by
  have words := drafted.words
  rcases assembles with ⟨middle, first, second⟩
  have firstSound :=
    sound_assemble words drafted.sourceWords words.source False.elim Workshop.sound_empty first
  have secondSound :=
    sound_assemble words drafted.destinationWords words.destination False.elim firstSound.1 second
  rw [drafted.noSourceLength] at first
  rw [drafted.noDestinationLength] at second
  exact ⟨_, middle, _, define_of_draftsTo drafted.drafts first,
    define_of_draftsTo drafted.draftsToo second, secondSound.2.2.2, firstSound.1.indexed,
      secondSound.1.indexed⟩

theorem lays : (∃ plot, arena.Charts plot (Token.Admitted True arena.layouts.size)) ∧
    arena.Lays inquiry.1 draft.pattern ∧ arena.Lays inquiry.2 draftToo.pattern := by
  rcases drafted.exists_define assembles with
    ⟨_, _, _, ⟨inside, defined⟩, ⟨insideToo, definedToo⟩, keeps, indexed, _⟩
  exact ⟨(drafted.charted assembles).1, (lays_define inside defined).kept keeps indexed,
    lays_define insideToo definedToo⟩

end Drafts

end Setting

section Values

variable {letters : List Letter} {pattern : Pattern} {count : Count}

def Symbol.letter : Symbol → Letter
  | .byte value => .byte value
  | _ => .uninit

theorem Letter.map_letter_symbols (isCell : ∀ letter ∈ letters, letter.IsCell) :
    (letters.flatMap symbols).map Symbol.letter = letters := by
  induction letters with
  | nil => rfl
  | cons letter _ ih =>
    rw [forall_mem_cons] at isCell
    cases letter with
    | byte | uninit => simp [symbols, Symbol.letter, ih isCell.2]
    | reference | marker => exact isCell.1.elim

namespace Pattern

/-- The letters are a value of the pattern, if it is plain. -/
def Value (pattern : Pattern) (letters : List Letter) : Prop :=
  (∀ letter ∈ letters, letter.IsCell) ∧ pattern.Spells (letters.flatMap symbols)

theorem value_alt {options : List Pattern} :
    (alt options).Value letters ↔ ∃ option ∈ options, option.Value letters := by
  rw [Value, Spells, spellsAny_iff]
  constructor
  · rintro ⟨isCell, option, member, spells⟩
    exact ⟨option, member, isCell, spells⟩
  · rintro ⟨option, member, isCell, spells⟩
    exact ⟨isCell, option, member, spells⟩

/-- The values of a repeat are rows of values of its body. -/
theorem value_rep : (rep pattern count).Value letters ↔ count.Repeats pattern.Value letters := by
  constructor
  · rintro ⟨isCell, rounds, admitted, each, isAll⟩
    have whole := map_letter_symbols isCell
    rw [← isAll, map_flatten] at whole
    refine ⟨_, by rwa [length_map], ?_, whole⟩
    rw [forall_mem_map]
    intro round member
    have cells : ∀ symbol ∈ round, symbol.letter.IsCell ∧ symbol.letter.symbols = [symbol] := by
      intro symbol isSymbol
      have found : symbol ∈ letters.flatMap symbols := isAll ▸ mem_flatten_of_mem member isSymbol
      rcases mem_flatMap.mp found with ⟨letter, isLetter, shown⟩
      have letterCell := isCell letter isLetter
      cases letter with
      | byte | uninit =>
        cases mem_singleton.mp shown
        exact ⟨trivial, rfl⟩
      | reference | marker => exact letterCell.elim
    refine ⟨forall_mem_map.mpr fun symbol isSymbol => (cells symbol isSymbol).1, ?_⟩
    rw [flatMap_map, flatMap_congr fun symbol isSymbol => (cells symbol isSymbol).2,
      flatMap_singleton']
    exact each round member
  · rintro ⟨rounds, admitted, each, rfl⟩
    refine ⟨fun letter member => ?_, rounds.map (·.flatMap symbols), by rwa [length_map], ?_, ?_⟩
    · rcases mem_flatten.mp member with ⟨round, isRound, isLetter⟩
      exact (each round isRound).1 letter isLetter
    · exact forall_mem_map.mpr fun round isRound => (each round isRound).2
    · rw [flatMap_def, map_flatten, flatten_flatten, map_map]
      rfl

end Pattern

theorem Arena.Lays.value_iff {plot : Plot} {layouts : Nat}
    (charts : arena.Charts plot (Token.Admitted True layouts)) (lays : arena.Lays id pattern)
    (firm : pattern.Firm) : arena.Value id letters ↔ pattern.Value letters := by
  have means (symbols : List Symbol) : arena.Means id symbols ↔ pattern.Spells symbols := by
    rw [means_iff_route, lays.unfolds.route_iff, firm.spelled_iff]
  have isCell {value : List Letter} (isValue : arena.Value id value) : ∀ letter ∈ value,
      letter.IsCell :=
    isValue.isCell charts (fun _ admitted => admitted.2 trivial) lays.inside
  constructor
  · intro isValue
    exact ⟨isCell isValue, (means _).mp ⟨_, isValue, rfl⟩⟩
  · rintro ⟨cells, spells⟩
    rcases (means _).mpr spells with ⟨other, isValue, same⟩
    rwa [← map_letter_symbols cells, ← same, map_letter_symbols (isCell isValue)]

end Values

/-- A question about plain shapes, where the source reaches to the end of the destination, is
answered with yes, if the budget allows, exactly when each value of the first can be read as one of
the second. -/
theorem Setting.Drafts.recast_iff_readable {draftToo : Draft} {assumed : Assumptions}
    (drafted : setting.Drafts source destination draft draftToo) (strict : .validity ∉ assumed)
    (assembles : setting.Assembles source destination inquiry arena) (live : draft.pattern.Live)
    (isSize : draftToo.pattern.size = some size)
    (covers : ∀ value, draft.pattern.Value value → size ≤ value.length) :
    ∀ᶠ budget in Budget.growing,
      ({ setting with budget }.recast source destination assumed).isOk ↔
      ∀ value, draft.pattern.Value value →
        ∃ other, draftToo.pattern.Value other ∧ ReadableAs size value other := by
  rcases drafted.lays assembles with ⟨⟨_, charts⟩, lays, laysToo⟩
  have accepts := recast_iff_serves drafted.toPlain strict assembles (lays.live_iff.mpr live)
  rw [Budget.forLarge_iff] at accepts
  filter_upwards [accepts] with budget isOk_iff
  rw [isOk_iff]
  refine forall_congr' fun value => ?_
  rw [lays.value_iff charts drafted.firm.1]
  refine imp_congr_right fun isValue => ?_
  rw [Rules.serves_iff_readable charts (fun _ admitted => admitted.2 trivial) laysToo.inside
    (laysToo.size.trans isSize) strict isValue.1 (covers value isValue)]
  simp only [laysToo.value_iff charts drafted.firm.2]

end Recast
