import Recast.Proofs.Assembly.Plans
import Recast.Question

/-!
# Assembled arenas are sound

Every shape whose sizes are numbers of a machine word has a sound plan: by induction on the shape
where the parts are at hand, and by induction on what is done for names where one leads to the
catalog. So every workshop that assemblies have filled is sound.
-/

namespace Recast

open Shape Extent Workshop

variable {plain : Prop} {catalog : Catalog} {shop : Workshop} {shape : Shape}
  {totalLength : Option Nat}

/-- Every size that a definition of the catalog states is a number of a machine word. -/
def Catalog.FitsWords (catalog : Catalog) : Prop :=
  ∀ id definition, catalog.get? id = some definition → definition.shape.FitsWords

theorem Catalog.FitsWords.of_fits (fits : catalog.entries.all (·.2.shape.fits)) :
    catalog.FitsWords := by
  intro id definition found
  rcases List.lookup_eq_some_iff.mp found with ⟨_, _, isEntries, _⟩
  simp only [isEntries, List.all_append, List.all_cons, Bool.and_eq_true] at fits
  exact .of_fits fits.2.1

def Machine.FitsWords (machine : Machine) : Prop :=
  machine.pointerSize ≤ cap

section Shapes

open Assembly Plan

variable {machine : Machine} {calls : Calls}

/-- What is done for names is sound. Names are expected to be plain if all that is wanted are plain
layouts, and then there are no referents. -/
structure Calls.Sound (plain : Prop) (catalog : Catalog) (calls : Calls) : Prop where
  expand : ∀ id, (plain → (Shape.named id).Plain catalog) → (calls.expand id).Sound plain
  referent : ¬ plain → ∀ id, Refers plain (calls.referent id)

section

variable (inside : machine.FitsWords)
include inside

theorem Shape.sound_plan (sound : calls.Sound plain catalog) (words : shape.FitsWords)
    (isPlain : plain → shape.Plain catalog) :
    (shape.plan machine calls.expand calls.referent).Sound plain := by
  induction shape using recipe_induction with
  | direct shape inside ih =>
    intro scope offset shop known sound
    refine (ensures_plan (fun _ => True) (fun later _ draft => draft.Sound plain later.size) inside
      offset (fun _ _ grows _ _ => Draft.Sound.mono grows.grown) ?_ sound trivial le_rfl).mono
      le_rfl fun _ _ _ made => made.2.sound words known isPlain
    intro part isPart offset shop partSound _
    have isSound :=
      ih part isPart (words.parts part isPart) fun yes => (isPlain yes).parts part isPart
    exact (isSound scope offset shop known partSound).mono le_rfl fun _ _ _ made => ⟨trivial, made⟩
  | reference referent _ ih =>
    have notPlain : ¬ plain := by
      intro yes
      cases isPlain yes
    cases words with
    | reference _ referentWords =>
      rw [plan_reference_eq]
      intro _ _ _ _ shopSound
      refine ensures_reference notPlain inside ?_ shopSound
      by_cases isNamed : ∃ id, referent = .named id
      · rcases isNamed with ⟨id, rfl⟩
        exact sound.referent notPlain id
      · rw [referent_of_not_named isNamed]
        exact refers_anonymousReferent (ih referentWords fun yes => absurd yes notPlain)
  | named id => exact sound.expand id isPlain

theorem Catalog.sound_step (words : catalog.FitsWords) (sound : calls.Sound plain catalog) :
    (catalog.step machine calls).Sound plain catalog := by
  refine ⟨fun id isPlain scope offset shop scopeWords shopSound => ?_,
    fun notPlain id shop shopSound => ?_⟩
  · refine ensures_ofExcept_bind shopSound (Catalog.sensible_find id) fun definition isDefinition =>
      ?_
    have found := Catalog.find_eq_ok isDefinition
    refine ensures_unless shopSound not_false fun _ => ensures_unless shopSound not_false fun _ =>
      ?_
    have planSound := sound_plan inside sound (words id definition found) fun yes => by
      cases isPlain yes with
      | named each => exact each definition found
    exact planSound _ offset shop scopeWords shopSound
  · rcases known : shop.referents.lookup id with _ | layout
    · rcases found : catalog.get? id with _ | definition
      · rw [Ensures, Catalog.step_of_undefined known found]
        exact ⟨.refl _, shopSound, not_false⟩
      have planSound :=
        sound_plan inside sound (words id definition found) fun yes => absurd yes notPlain
      rcases shopSound.opened (opened_begun known) with ⟨begunSound, blank, begins⟩
      exact (planSound.ensures_fill (by simp [Scope.FitsWords]) begunSound blank).opened begins
        (Catalog.step_of_found known found)
    · rw [Ensures, Catalog.step_of_known known]
      exact ⟨.refl _, shopSound, shopSound.referents id layout known⟩

theorem Catalog.sound_calls (words : catalog.FitsWords) :
    (catalog.calls machine).Sound plain catalog :=
  catalog.calls_induction machine ⟨fun _ _ _ _ _ _ sound => ensures_throw sound not_false,
    fun _ _ _ sound => ensures_throw sound not_false⟩ fun _ => Catalog.sound_step inside words

theorem Shape.sound_planIn (catalogWords : catalog.FitsWords) (words : shape.FitsWords)
    (isPlain : plain → shape.Plain catalog) :
    (shape.planIn catalog machine).Sound plain :=
  sound_plan inside (Catalog.sound_calls inside catalogWords) words isPlain

theorem Shape.refers_assemble (catalogWords : catalog.FitsWords) (words : shape.FitsWords)
    (lengthWords : ∀ length, totalLength = some length → length ≤ cap)
    (isPlain : plain → shape.Plain catalog) :
    Refers plain (shape.assemble catalog machine totalLength) := by
  intro shop sound
  have planned :=
    sound_planIn inside catalogWords words isPlain { totalLength } 0 shop lengthWords sound
  refine planned.bind ?_
  intro draft later grows laterSound draftSound
  rcases laterSound.opened later.opened_reserved with ⟨reservedSound, blank, begins⟩
  have leaves := draftSound.leaves.mono fun _ admitted => admitted.mono begins.grown
  let own : LayoutId := ⟨later.size⟩
  have defines : Ensures plain later.size (define own draft.pattern >>= fun _ => pure own)
      later.reserved fun id last => id.index < last.size :=
    (ensures_define reservedSound blank le_rfl draftSound.shaped leaves).bind
      fun _ _ _ finalSound isLayout => ensures_pure finalSound isLayout
  exact (defines.opened begins rfl).mono grows.grown fun _ _ _ isLayout => isLayout

theorem Shape.exists_assemble {later : Workshop} {draft : Draft} (catalogWords : catalog.FitsWords)
    (words : shape.FitsWords) (lengthWords : ∀ length, totalLength = some length → length ≤ cap)
    (sound : shop.Sound False)
    (planned : shape.planIn catalog machine { totalLength } 0 shop = .ok draft later) :
    ∃ layout last, shape.assemble catalog machine totalLength shop = .ok layout last ∧
      last.referents = later.referents := by
  have ensures :=
    sound_planIn inside catalogWords words False.elim { totalLength } 0 shop lengthWords sound
  rcases ensures.ok planned with ⟨_, laterSound, draftSound⟩
  rcases laterSound.opened later.opened_reserved with ⟨reservedSound, blank, begins⟩
  rcases exists_define reservedSound blank draftSound.shaped
    (draftSound.leaves.mono fun _ admitted => admitted.mono begins.grown) with
    ⟨last, defined, settles⟩
  refine ⟨⟨later.size⟩, last, ?_, settles.names⟩
  rw [assemble, bind_of_ok planned]
  change (define ⟨later.size⟩ draft.pattern >>= fun _ => pure _) later.reserved = _
  rw [bind_of_ok defined]
  rfl

end

theorem Shape.size_of_assemble {later : Workshop} {id : LayoutId}
    (assembled : shape.assemble catalog machine totalLength shop = .ok id later) :
    ∃ draft planned, shape.planIn catalog machine { totalLength } 0 shop = .ok draft planned ∧
      id = ⟨planned.size⟩ ∧ (later.arena.layout id).size = draft.pattern.size := by
  rcases assemble_eq_ok assembled with ⟨draft, planned, isDraft, rfl, defined⟩
  rcases Arena.define_eq_ok defined with ⟨_, _, _, isLayouts⟩
  have within : planned.size < planned.arena.reserve.2.layouts.size := by simp [Arena.reserve, size]
  refine ⟨draft, planned, isDraft, rfl, ?_⟩
  rw [(Arena.layout_define isLayouts within).1, Pattern.record]

end Shapes

namespace Workshop

theorem fitsWords_machine : Machine.FitsWords {} := show 8 ≤ cap by decide

theorem fitsWords_noLength (length : Nat) (no : none = some length) : length ≤ cap := by
  cases no

/-- What a shape is assembled with: a catalog, a machine and perhaps the length of the whole value,
all with numbers of a machine word. -/
structure Job where
  shape : Shape
  catalog : Catalog
  machine : Machine
  totalLength : Option Nat
  words : shape.FitsWords
  catalogWords : catalog.FitsWords
  machineWords : machine.FitsWords
  lengthWords : ∀ length, totalLength = some length → length ≤ cap

def Job.run (job : Job) : Assembly LayoutId :=
  job.shape.assemble job.catalog job.machine job.totalLength

/-- The job of making the layout of a shape, with no definitions and on the usual machine. -/
def Job.ofShape (shape : Shape) (words : shape.FitsWords) : Job where
  shape := shape
  catalog := {}
  machine := {}
  totalLength := none
  words := words
  catalogWords := .of_fits rfl
  machineWords := fitsWords_machine
  lengthWords := fitsWords_noLength

/-- A workshop that has been filled by assemblies, those that failed included. At any time another
one may take over the arena without its memory of referents. -/
inductive Filled : Workshop → Prop
  | empty : Filled {}
  | renewed {shop : Workshop} (filled : Filled shop) : Filled { arena := shop.arena }
  | assembled {shop later : Workshop} {id : LayoutId} (job : Job) (filled : Filled shop)
      (done : job.run shop = .ok id later) : Filled later
  | failed {shop later : Workshop} {defect : Defect} (job : Job) (filled : Filled shop)
      (stopped : job.run shop = .error defect later) : Filled later

/-- What the job leaves, be it that it fails. -/
def Job.leave (job : Job) (shop : Workshop) : Workshop :=
  match job.run shop with
  | .ok _ later => later
  | .error _ later => later

theorem Filled.leave (job : Job) (filled : shop.Filled) : (job.leave shop).Filled := by
  rw [Job.leave]
  split
  · exact .assembled job filled ‹_›
  · exact .failed job filled ‹_›

theorem sound_empty : Sound plain {} := ⟨⟨fun _ => none, Arena.charts_empty _ _⟩, .empty, by simp⟩

theorem Sound.renewed (sound : shop.Sound plain) : Sound plain { arena := shop.arena } :=
  ⟨sound.charted, sound.indexed, by simp⟩

theorem Job.refers (job : Job) : Assembly.Refers False job.run :=
  refers_assemble job.machineWords job.catalogWords job.words job.lengthWords fun no => no.elim

theorem Filled.sound (filled : shop.Filled) : shop.Sound False := by
  induction filled with
  | empty => exact sound_empty
  | renewed _ ih => exact ih.renewed
  | assembled job _ done ih => exact ((job.refers _ ih).ok done).2.1
  | failed job _ stopped ih => exact ((job.refers _ ih).error stopped).2.1

theorem Filled.exists_plotted {arena : Arena} (filled : shop.Filled)
    (isArena : arena = shop.arena) :
    ∃ plot, arena.Plotted plot := by
  subst isArena
  rcases filled.sound.charted with ⟨plot, charts⟩
  exact ⟨plot, charts.mono fun _ => And.left⟩

end Workshop

namespace Setting

/-- All numbers of the setting that shapes and layouts depend on are numbers of a machine word. -/
structure FitsWords (setting : Setting) : Prop where
  catalog : setting.catalog.FitsWords
  machine : setting.machine.FitsWords
  source : ∀ length, setting.sourceLength = some length → length ≤ cap
  destination : ∀ length, setting.destinationLength = some length → length ≤ cap

theorem assemble_eq_ok {setting : Setting} {arena larger : Arena} {id : LayoutId}
    (assembled : setting.assemble shape totalLength arena = .ok (id, larger)) :
    ∃ later, shape.assemble setting.catalog setting.machine totalLength { arena } = .ok id later ∧
      later.arena.inCapacity ∧ later.arena = larger := by
  simp only [Setting.assemble] at assembled
  split at assembled
  · rename_i later isOk
    cases assembled
    rcases Assembly.bounded_eq_ok.mp isOk with ⟨isOk, room⟩
    exact ⟨later, isOk, room, rfl⟩
  · cases assembled

theorem sound_assemble {setting : Setting} {arena larger : Arena} {id : LayoutId}
    (words : setting.FitsWords) (shapeWords : shape.FitsWords)
    (lengthWords : ∀ length, totalLength = some length → length ≤ cap)
    (isPlain : plain → shape.Plain setting.catalog) (sound : Sound plain { arena })
    (assembled : setting.assemble shape totalLength arena = .ok (id, larger)) :
    Sound plain { arena := larger } ∧ id.index < larger.layouts.size ∧
      arena.layouts.size ≤ larger.layouts.size ∧ arena.Keeps larger := by
  rcases assemble_eq_ok assembled with ⟨_, isOk, _, rfl⟩
  have refers :=
    (refers_assemble words.machine words.catalog shapeWords lengthWords isPlain { arena } sound).ok
      isOk
  exact ⟨refers.2.1.renewed, refers.2.2, refers.1.grown, refers.1.keeps⟩

end Setting

end Recast
