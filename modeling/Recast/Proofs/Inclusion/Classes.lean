import Recast.Inclusion.Cells
import Recast.Proofs.Inclusion.Footholds

/-!
# Classes of byte values

The values of a byte are parted by nothing but the cells that accept them: each class lists the
footholds behind these cells, and the classes have no value in common (`ByteClass.Exact`). Only one
of them can be without footholds, so the values that are refused, unless validity is assumed, are
all those that no cell accepts (`Terms.matchBytes_exact`).
-/

namespace Recast

open List ByteSet

variable {values : ByteSet} {reads : List (Token × Foothold)} {classes : List ByteClass}
  {byte : UInt8} {token : Token} {foothold : Foothold}

/-- The footholds behind those cells that accept a value, in the order of the reads. -/
def Foothold.accepting (reads : List (Token × Foothold)) (byte : UInt8) : List Foothold :=
  reads.filterMap fun (token, foothold) =>
    match token with
    | .cell contents => if byte ∈ contents.accepted then some foothold else none
    | _ => none

theorem Foothold.mem_accepting :
    foothold ∈ accepting reads byte ↔
      ∃ contents : Cell, (.cell contents, foothold) ∈ reads ∧ byte ∈ contents.accepted := by
  simp only [accepting, mem_filterMap, Prod.exists]
  constructor
  · rintro ⟨token, _, isRead, found⟩
    cases token with
    | cell contents =>
      rw [Option.ite_none_right_eq_some, Option.some.injEq] at found
      exact ⟨contents, found.2 ▸ isRead, found.1⟩
    | reference | marker => cases found
  · exact fun ⟨_, isRead, accepts⟩ => ⟨_, _, isRead, if_pos accepts⟩

namespace ByteClass

open Foothold (accepting)

/-- The classes part the values by the cells that accept them, each cell counted as often as it is
read. The last cell is the first one in a class. -/
structure Exact (values : ByteSet) (reads : List (Token × Foothold)) (classes : List ByteClass) :
    Prop where
  nonempty : ∀ part ∈ classes, ∃ byte, byte ∈ part.values
  disjoint : classes.Pairwise fun first second => ∀ byte ∈ first.values, byte ∉ second.values
  covers : ∀ byte, byte ∈ values ↔ ∃ part ∈ classes, byte ∈ part.values
  footholds : ∀ part ∈ classes, ∀ byte ∈ part.values,
    part.footholds = (accepting reads byte).reverse

variable {part other : ByteClass} {accepted : ByteSet}

theorem mem_split :
    other ∈ split accepted foothold part ↔
      (∃ byte, byte ∈ other.values) ∧
        (other = ⟨part.values ∩ accepted, foothold :: part.footholds⟩ ∨
          other = ⟨part.values \ accepted, part.footholds⟩) := by
  have some_iff : (!other.values.isEmpty) ↔ ∃ byte, byte ∈ other.values := by
    have empty_iff : other.values.isEmpty ↔ _ := isEmpty_iff
    rw [Bool.not_eq_true', ← Bool.not_eq_true, empty_iff]
    simp
  simp only [split, mem_filter, mem_cons, not_mem_nil, or_false, some_iff]
  exact and_comm

/-- The parts of a class have its values. -/
theorem exists_mem_split :
    (∃ other ∈ split accepted foothold part, byte ∈ other.values) ↔ byte ∈ part.values := by
  simp only [mem_split]
  constructor
  · rintro ⟨_, ⟨_, rfl | rfl⟩, inside⟩
    · exact (mem_inter.mp inside).1
    · exact (mem_sdiff.mp inside).1
  · intro inPart
    by_cases isAccepted : byte ∈ accepted
    · have inside := mem_inter.mpr ⟨inPart, isAccepted⟩
      exact ⟨_, ⟨⟨byte, inside⟩, .inl rfl⟩, inside⟩
    · have outside := mem_sdiff.mpr ⟨inPart, isAccepted⟩
      exact ⟨_, ⟨⟨byte, outside⟩, .inr rfl⟩, outside⟩

theorem partition_induction {motive : List (Token × Foothold) → List ByteClass → Prop}
    (start : motive [] [⟨values, []⟩])
    (cell : ∀ before classes contents foothold, motive before classes →
      motive (before ++ [(.cell contents, foothold)])
        (classes.flatMap (ByteClass.split contents.accepted foothold)))
    (other : ∀ before classes token foothold, (∀ contents, token ≠ .cell contents) →
      motive before classes → motive (before ++ [(token, foothold)]) classes)
        (reads : List (Token × Foothold)) :
    motive reads (partition values reads) := by
  have folds (step : List ByteClass → Token × Foothold → List ByteClass)
      (keeps : ∀ before classes read, motive before classes →
      motive (before ++ [read]) (step classes read)) (before after : List (Token × Foothold))
        (classes : List ByteClass) (held : motive before classes) :
      motive (before ++ after) (after.foldl step classes) := by
    induction after generalizing before classes with
    | nil => simpa using held
    | cons _ _ ih =>
      rw [append_cons, foldl_cons]
      exact ih _ _ (keeps _ _ _ held)
  refine folds _ ?_ [] reads _ start
  rintro _ _ ⟨token, _⟩ held
  cases token with
  | cell => exact cell _ _ _ _ held
  | reference | marker => exact other _ _ _ _ (by simp) held

/-- Two classes have no value in common, and at most one of them is without footholds. -/
structure Apart (first second : ByteClass) : Prop where
  disjoint : ∀ byte ∈ first.values, byte ∉ second.values
  single : first.footholds = [] → second.footholds ≠ []

theorem pairwise_split (accepted : ByteSet) (foothold : Foothold) (part : ByteClass) :
    (split accepted foothold part).Pairwise Apart := by
  refine Pairwise.filter _ (pairwise_pair.mpr ⟨fun byte inside outside => ?_, by simp⟩)
  exact (mem_sdiff.mp outside).2 (mem_inter.mp inside).2

/-- Parts of classes that are apart are apart. -/
theorem Apart.of_split {whole others : ByteClass} (apart : Apart whole others)
    (member : part ∈ split accepted foothold whole)
    (memberToo : other ∈ split accepted foothold others) :
    Apart part other where
  disjoint byte inside outside :=
    apart.disjoint byte (exists_mem_split.mp ⟨_, member, inside⟩)
      (exists_mem_split.mp ⟨_, memberToo, outside⟩)
  single := by
    rcases (mem_split.mp member).2 with rfl | rfl
    · simp
    · rcases (mem_split.mp memberToo).2 with rfl | rfl
      · simp
      · exact apart.single

theorem pairwise_partition (values : ByteSet) (reads : List (Token × Foothold)) :
    (partition values reads).Pairwise Apart := by
  refine partition_induction (motive := fun _ classes => classes.Pairwise Apart) ?start ?cell ?other
    reads
  case start => exact pairwise_singleton _ _
  case other => exact fun _ _ _ _ _ apart => apart
  case cell =>
    intro _ classes contents foothold apart
    refine pairwise_flatMap.mpr ⟨fun part _ => pairwise_split .., apart.imp ?_⟩
    exact fun apart _ isFirst _ isSecond => apart.of_split isFirst isSecond

theorem covers_partition (reads : List (Token × Foothold)) :
    byte ∈ values ↔ ∃ part ∈ partition values reads, byte ∈ part.values := by
  refine partition_induction (motive := fun _ classes => byte ∈ values ↔
    ∃ part ∈ classes, byte ∈ part.values) ?start ?cell ?other reads
  case start => simp
  case other => exact fun _ _ _ _ _ covers => covers
  case cell =>
    intro _ classes contents foothold covers
    refine covers.trans ⟨fun ⟨part, isPart, inside⟩ => ?_, fun ⟨other, isOther, inside⟩ => ?_⟩
    · rcases exists_mem_split.mpr inside with ⟨other, isSplit, inOther⟩
      exact ⟨other, mem_flatMap.mpr ⟨part, isPart, isSplit⟩, inOther⟩
    · rcases mem_flatMap.mp isOther with ⟨part, isPart, isSplit⟩
      exact ⟨part, isPart, exists_mem_split.mp ⟨other, isSplit, inside⟩⟩

/-- Each class lists the footholds behind the cells that accept its values. -/
theorem footholds_partition (values : ByteSet) (reads : List (Token × Foothold)) :
    ∀ part ∈ partition values reads, ∀ byte ∈ part.values,
      part.footholds = (accepting reads byte).reverse := by
  refine partition_induction (motive := fun reads classes => ∀ part ∈ classes, ∀ byte ∈ part.values,
    part.footholds = (accepting reads byte).reverse) ?start ?cell ?other reads
  case start => simp [accepting]
  case cell =>
    intro _ classes contents foothold ih other isOther byte inside
    simp only [mem_flatMap, mem_split] at isOther
    rcases isOther with ⟨part, isPart, _, rfl | rfl⟩
    · rcases mem_inter.mp inside with ⟨inPart, isAccepted⟩
      simp [accepting, isAccepted, ih part isPart byte inPart]
    · rcases mem_sdiff.mp inside with ⟨inPart, notAccepted⟩
      simp [accepting, notAccepted, ih part isPart byte inPart]
  case other =>
    intro _ _ token _ notCell ih part isPart byte inside
    rw [ih part isPart byte inside]
    cases token with
    | cell contents => exact absurd rfl (notCell contents)
    | reference | marker => simp [accepting]

theorem exact_partition (some : ∃ byte, byte ∈ values) (reads : List (Token × Foothold)) :
    Exact values reads (partition values reads) where
  nonempty := by
    refine partition_induction (motive := fun _ classes => ∀ part ∈ classes, ∃ byte,
      byte ∈ part.values) (by simpa using some) ?cell (fun _ _ _ _ _ each => each) reads
    intro _ _ _ _ _ part isPart
    rcases mem_flatMap.mp isPart with ⟨_, _, isSplit⟩
    exact (mem_split.mp isSplit).1
  disjoint := (pairwise_partition values reads).imp Apart.disjoint
  covers byte := covers_partition reads
  footholds := footholds_partition values reads

theorem Exact.mem_footholds (parted : Exact values reads classes) (isPart : part ∈ classes)
    (inPart : byte ∈ part.values) :
    foothold ∈ part.footholds ↔
      ∃ contents : Cell, (.cell contents, foothold) ∈ reads ∧ byte ∈ contents.accepted := by
  rw [parted.footholds part isPart byte inPart, mem_reverse, Foothold.mem_accepting]

theorem exists_read_of_partition (member : part ∈ partition values reads)
    (isFoothold : foothold ∈ part.footholds) :
    ∃ contents : Cell, (.cell contents, foothold) ∈ reads := by
  refine partition_induction (motive := fun reads classes => ∀ part ∈ classes,
    ∀ foothold ∈ part.footholds, ∃ contents : Cell, (.cell contents, foothold) ∈ reads) (by simp)
      ?cell ?other reads part member foothold isFoothold
  case cell =>
    intro before classes contents other all _ isPart foothold isFoothold
    rcases mem_flatMap.mp isPart with ⟨whole, isWhole, isSplit⟩
    have listed : foothold = other ∨ foothold ∈ whole.footholds := by
      rcases (mem_split.mp isSplit).2 with rfl | rfl
      · exact mem_cons.mp isFoothold
      · exact .inr isFoothold
    rcases listed with rfl | inWhole
    · exact ⟨contents, by simp⟩
    · exact (all whole isWhole foothold inWhole).imp fun _ => mem_append_left _
  case other =>
    intro _ _ _ _ _ all part isPart foothold isFoothold
    exact (all part isPart foothold isFoothold).imp fun _ => mem_append_left _

/-- A class without footholds holds all values that no cell accepts, and no others. -/
theorem mem_values_of_footholds_eq_nil {part : ByteClass} (some : ∃ byte, byte ∈ values)
    (isPart : part ∈ partition values reads) (isEmpty : part.footholds = []) :
    byte ∈ part.values ↔ byte ∈ values ∧ accepting reads byte = [] := by
  have exact_ := exact_partition some reads
  constructor
  · intro inside
    have listed := exact_.footholds part isPart byte inside
    rw [isEmpty, eq_comm, reverse_eq_nil_iff] at listed
    exact ⟨(exact_.covers byte).mpr ⟨part, isPart, inside⟩, listed⟩
  · rintro ⟨inValues, unaccepted⟩
    rcases (exact_.covers byte).mp inValues with ⟨other, isOther, inOther⟩
    have alsoEmpty : other.footholds = [] := by
      rw [exact_.footholds other isOther byte inOther, unaccepted, reverse_nil]
    -- There are no two classes without footholds.
    have single : (partition values reads).Pairwise fun first second =>
        first.footholds = [] → second.footholds ≠ [] :=
          (pairwise_partition values reads).imp Apart.single
    have same : other = part := by
      by_contra different
      have : Std.Symm fun first second : ByteClass => first.footholds = [] →
          second.footholds ≠ [] :=
        ⟨fun _ _ apart isSecond isFirst => apart isFirst isSecond⟩
      exact single.forall isOther isPart different alsoEmpty isEmpty
    exact same ▸ inOther

end ByteClass

namespace Terms

open ByteClass

variable {terms : Terms} {entry : Entry} {source : Position} {parts : List ByteClass}
  {diagnostic : Diagnostic}

section

variable (strict : terms.assumed.validity = false)
include strict

theorem matchClass_eq_error_iff {part : ByteClass} :
    terms.matchClass entry part = .error diagnostic ↔
      part.footholds = [] ∧ diagnostic = entry.refusal (.bytes part.values) := by
  cases isEmpty : part.footholds <;> simp [matchClass, isEmpty, strict, eq_comm]

/-- The first class without footholds is the one that is refused. -/
theorem matchClasses_eq_error_iff :
    terms.matchClasses entry source parts = .error diagnostic ↔
      ∃ part, parts.find? (·.footholds.isEmpty) = some part ∧
        diagnostic = entry.refusal (.bytes part.values) := by
  induction parts with
  | nil => simp [matchClasses]
  | cons part rest ih =>
    rw [matchClasses, find?_cons]
    cases found : terms.matchClass entry part with
    | error other =>
      rcases (matchClass_eq_error_iff strict).mp found with ⟨isEmpty, rfl⟩
      simp [isEmpty, eq_comm]
    | ok =>
      have listed : part.footholds ≠ [] := fun isEmpty => by
        have refused : terms.matchClass entry part = .error _ :=
          (matchClass_eq_error_iff strict).mpr ⟨isEmpty, rfl⟩
        simp [found] at refused
      have notEmpty : part.footholds.isEmpty = false := by simpa using listed
      simp only [notEmpty, ← ih]
      cases terms.matchClasses entry source rest <;> simp

end

/-- The values of a byte fall into classes of those that are accepted by the same cells. Unless
validity is assumed, they are refused if and only if there are some that no cell accepts, and all
these are reported. -/
theorem matchBytes_exact (terms : Terms) (entry : Entry) (source : Position) (values : ByteSet)
    (some : ∃ byte, byte ∈ values) :
    ByteClass.Exact values entry.prospects.reads
      (ByteClass.partition values entry.prospects.reads) ∧
      (terms.assumed.validity = false → ∀ diagnostic,
        terms.matchBytes entry source values = .error diagnostic ↔
          ∃ refused : ByteSet, (∃ byte, byte ∈ refused) ∧
            (∀ byte, byte ∈ refused ↔ byte ∈ values ∧
              Foothold.accepting entry.prospects.reads byte = []) ∧
            diagnostic = entry.refusal (.bytes refused)) := by
  have exact_ := exact_partition some entry.prospects.reads
  refine ⟨exact_, fun strict diagnostic => ?_⟩
  rw [matchBytes, matchClasses_eq_error_iff strict]
  constructor
  · rintro ⟨part, found, isDiagnostic⟩
    have isPart := mem_of_find?_eq_some found
    have isEmpty : part.footholds = [] := by simpa using find?_some found
    exact ⟨part.values, exact_.nonempty part isPart,
      fun byte => mem_values_of_footholds_eq_nil some isPart isEmpty, isDiagnostic⟩
  · rintro ⟨refused, ⟨byte, isRefused⟩, mem_refused, rfl⟩
    rcases (mem_refused byte).mp isRefused with ⟨inValues, unaccepted⟩
    rcases (exact_.covers byte).mp inValues with ⟨part, isPart, inPart⟩
    have isEmpty : part.footholds = [] := by
      rw [exact_.footholds part isPart byte inPart, unaccepted, reverse_nil]
    obtain ⟨first, found⟩ : ∃ first, (ByteClass.partition values entry.prospects.reads).find?
        (·.footholds.isEmpty) = Option.some first :=
      Option.isSome_iff_exists.mp (find?_isSome.mpr ⟨part, isPart, by simp [isEmpty]⟩)
    have firstEmpty : first.footholds = [] := by simpa using find?_some found
    have same : first.values = refused := ext_mem fun other =>
      (mem_values_of_footholds_eq_nil some (mem_of_find?_eq_some found) firstEmpty).trans
        (mem_refused other).symm
    exact ⟨first, found, by rw [same]⟩

/-- Of the values up to 30, those from 21 on are refused by two cells that overlap and accept the
others. -/
theorem matchBytes_exact_overlapping :
    let behind (number : Nat) : Foothold := ⟨⟨⟨number⟩, []⟩, false⟩
    let reads : List (Token × Foothold) :=
      [(.cell (.init (.range 0 9)), behind 1),
        (.reference ⟨⟨1, .shared, .static⟩, ⟨0⟩, 8⟩, behind 2),
          (.cell (.init (.range 5 20)), behind 3)]
    let entry : Entry := ⟨[], ⟨false, false, false, reads, []⟩, none⟩
    ByteClass.Exact (.range 0 30) reads (ByteClass.partition (.range 0 30) reads) ∧
      Terms.matchBytes { arena := {} } entry ⟨⟨0⟩, []⟩ (.range 0 30) =
        .error (entry.refusal (.bytes (.range 21 30))) := by
  intro behind reads entry
  have facts := matchBytes_exact { arena := {} } entry ⟨⟨0⟩, []⟩ (.range 0 30) ⟨0, by decide⟩
  have refused : ∀ byte ∈ allBytes, byte ∈ range 21 30 ↔
      byte ∈ range 0 30 ∧ Foothold.accepting entry.prospects.reads byte = [] := by decide +kernel
  exact ⟨facts.1, (facts.2 rfl _).mpr
    ⟨.range 21 30, ⟨21, by decide⟩, fun byte => refused byte mem_allBytes, rfl⟩⟩

end Terms

end Recast
