import Recast.Proofs.Arena.Unfold
import Recast.Proofs.Arena.Route

/-!
# Compiled patterns

The walks of a layout are the values of the pattern that it was defined by (`means_define`). A
layout unfolds its pattern, so that its routes are what the pattern spells from one head to the next
(`Unfolds.route_iff`); for patterns of known sizes these are their values (`spelled_iff`).
-/

namespace Recast

open List

variable {pattern : Pattern} {patterns : List Pattern} {symbols : List Symbol} {count : Count}

namespace Pattern

theorem Shaped.of_fits {width : Nat} (fits : pattern.Fits width) (inside : width ≤ Extent.cap) :
    pattern.Shaped :=
  .inl ⟨width, fits, inside⟩

theorem shaped_of_fitTogether {parts : List Pattern} {width : Nat} (fits : FitTogether parts width)
    (inside : width ≤ Extent.cap) : ∀ part ∈ parts, part.Shaped := by
  induction parts generalizing width with
  | nil => simp
  | cons part rest ih =>
    rcases fits with ⟨first, others, partFits, restFit, rfl⟩
    rw [forall_mem_cons]
    exact ⟨.of_fits partFits (by omega), ih restFit (by omega)⟩

theorem shaped_of_openAtEnd {parts : List Pattern} (isOpen : OpenAtEnd parts) :
    ∀ part ∈ parts, part.Shaped := by
  induction parts with
  | nil => simp
  | cons _ _ ih =>
    rw [forall_mem_cons]
    rcases isOpen with ⟨rfl, partOpen⟩ | ⟨⟨_, fits, inside⟩, restOpen⟩
    · exact ⟨.inr partOpen, by simp⟩
    · exact ⟨.of_fits fits inside, ih restOpen⟩

theorem Shaped.parts {parts : List Pattern} (shaped : (seq parts).Shaped) :
    ∀ part ∈ parts, part.Shaped := by
  rcases shaped with ⟨_, fits, inside⟩ | isOpen
  · exact shaped_of_fitTogether fits inside
  · exact shaped_of_openAtEnd isOpen

theorem Shaped.options {options : List Pattern} (shaped : (alt options).Shaped) :
    ∃ width, width ≤ Extent.cap ∧ (alt options).Fits width ∧ ∀ option ∈ options, option.Shaped := by
  rcases shaped with ⟨width, fits, inside⟩ | isOpen
  · exact ⟨width, inside, fits, fun option member =>
      .of_fits (fitEach_iff.mp fits.2 option member) inside⟩
  · exact isOpen.elim

theorem Shaped.body {body : Pattern} (shaped : (rep body count).Shaped) : body.Shaped := by
  cases count with
  | exact number =>
    rcases shaped with ⟨_, ⟨unit, fits, _, several, rfl⟩, inside⟩ | isOpen
    · refine .of_fits fits ?_
      calc
        unit = unit * 1 := (Nat.mul_one unit).symm
        _ ≤ unit * number := Nat.mul_le_mul_left unit (by omega)
        _ ≤ Extent.cap := inside
    · exact isOpen.elim
  | atLeast =>
    rcases shaped with ⟨_, fits, _⟩ | ⟨_, fits, _, inside⟩
    · exact fits.elim
    · exact .of_fits fits inside

section Firm

variable {option unit : Pattern} {after elements choices rest : List Pattern} {head : Head}
  {front back : List Symbol}

/-- The pattern has a known size, and its references are not empty. -/
structure Firm (pattern : Pattern) : Prop where
  shaped : pattern.Shaped
  solid : pattern.Leaves Token.Solid

theorem Firm.parts (firm : (seq elements).Firm) : ∀ part ∈ elements, part.Firm := by
  rcases firm with ⟨shaped, solid⟩
  simp only [Leaves] at solid
  exact fun part member => ⟨shaped.parts part member, leavesOfAll_iff.mp solid part member⟩

theorem Firm.options (firm : (alt choices).Firm) : ∀ option ∈ choices, option.Firm := by
  rcases firm with ⟨shaped, solid⟩
  rcases shaped.options with ⟨_, _, _, each⟩
  simp only [Leaves] at solid
  exact fun option member => ⟨each option member, leavesOfAll_iff.mp solid option member⟩

theorem Firm.body (firm : (rep unit count).Firm) : unit.Firm := by
  rcases firm with ⟨shaped, solid⟩
  simp only [Leaves] at solid
  exact ⟨shaped.body, solid⟩

theorem Firm.spells_empty (firm : (alt choices).Firm) (noBytes : (alt choices).size.getD 0 = 0) :
    (alt choices).Spells symbols ↔ anyHasValue choices ∧ symbols = [] := by
  rcases firm.shaped.options with ⟨_, inside, fits, _⟩
  rw [size_of_fits fits inside, Option.getD_some] at noBytes
  subst noBytes
  simpa only [hasValue] using spells_iff_of_fits_zero fits firm.solid

theorem Firm.not_spells_nil (firm : (alt choices).Firm) (bytes : (alt choices).size.getD 0 ≠ 0)
    (member : option ∈ choices) : ¬ option.Spells [] := by
  rcases firm.shaped.options with ⟨_, inside, fits, _⟩
  rw [size_of_fits fits inside, Option.getD_some] at bytes
  intro spells
  have whole : (alt choices).Spells [] := by
    simp only [Spells]
    exact spellsAny_iff.mpr ⟨option, member, spells⟩
  exact bytes (extent_of_spells fits whole).symm

theorem firm_of_begins (begins : Begins patterns head after)
    (firm : ∀ pattern ∈ patterns, pattern.Firm) :
    (∀ pattern ∈ after, pattern.Firm) ∧ ∀ body count, head = .rep body count → body.Firm := by
  induction begins with
  | token => exact ⟨(forall_mem_cons.mp firm).2, by simp⟩
  | rep =>
    rcases forall_mem_cons.mp firm with ⟨here, later⟩
    refine ⟨later, ?_⟩
    rintro _ _ ⟨⟩
    exact here.body
  | seq _ ih =>
    rcases forall_mem_cons.mp firm with ⟨here, later⟩
    exact ih (forall_mem_append.mpr ⟨here.parts, later⟩)
  | option _ member _ ih =>
    rcases forall_mem_cons.mp firm with ⟨here, later⟩
    exact ih (forall_mem_cons.mpr ⟨here.options _ member, later⟩)
  | empty _ _ _ ih => exact ih (forall_mem_cons.mp firm).2

def Head.Spells : Head → List Symbol → Prop
  | .token single, symbols => single.Shows symbols
  | .rep body count, symbols => count.Repeats body.Spells symbols

theorem spells_of_done (done : Done patterns) (firm : ∀ pattern ∈ patterns, pattern.Firm) :
    SpellsInTurn patterns [] := by
  induction done with
  | nil => simp only [SpellsInTurn]
  | seq _ ih =>
    rcases forall_mem_cons.mp firm with ⟨here, later⟩
    rcases spellsInTurn_append.mp (ih (forall_mem_append.mpr ⟨here.parts, later⟩)) with
      ⟨front, back, spells, onward, same⟩
    exact ⟨front, back, by simpa only [Spells] using spells, onward, same⟩
  | empty noBytes hasValue _ ih =>
    rcases forall_mem_cons.mp firm with ⟨here, later⟩
    exact ⟨[], [], (here.spells_empty noBytes).mpr ⟨hasValue, rfl⟩, ih later, rfl⟩

theorem spells_of_begins (begins : Begins patterns head after)
    (firm : ∀ pattern ∈ patterns, pattern.Firm) (reads : head.Spells front)
    (onward : SpellsInTurn after back) : SpellsInTurn patterns (front ++ back) := by
  induction begins with
  | token | rep => exact ⟨front, back, by simpa only [Spells, Head.Spells] using reads, onward, rfl⟩
  | seq _ ih =>
    rcases forall_mem_cons.mp firm with ⟨here, later⟩
    rcases spellsInTurn_append.mp (ih (forall_mem_append.mpr ⟨here.parts, later⟩) reads onward) with
      ⟨first, second, spells, others, same⟩
    exact ⟨first, second, by simpa only [Spells] using spells, others, same⟩
  | option _ member _ ih =>
    rcases forall_mem_cons.mp firm with ⟨here, later⟩
    rcases ih (forall_mem_cons.mpr ⟨here.options _ member, later⟩) reads onward with
      ⟨first, second, spells, others, same⟩
    refine ⟨first, second, ?_, others, same⟩
    simp only [Spells]
    exact spellsAny_iff.mpr ⟨_, member, spells⟩
  | empty noBytes hasValue _ ih =>
    rcases forall_mem_cons.mp firm with ⟨here, later⟩
    exact ⟨[], _, (here.spells_empty noBytes).mpr ⟨hasValue, rfl⟩, ih later reads onward, rfl⟩

/-- The symbols are read from one head of the patterns to the next. -/
inductive Spelled : List Pattern → List Symbol → Prop
  | done {patterns : List Pattern} (done : Done patterns) : Spelled patterns []
  | token {patterns after : List Pattern} {token : Token} {front back : List Symbol}
      (begins : Begins patterns (.token token) after) (shown : token.Shows front)
        (onward : Spelled after back) :
      Spelled patterns (front ++ back)
  | rep {patterns after : List Pattern} {body : Pattern} {count : Count}
      {rounds : List (List Symbol)} {back : List Symbol}
        (begins : Begins patterns (.rep body count) after)
      (admitted : count.Admits rounds.length) (each : ∀ round ∈ rounds, Spelled [body] round)
      (onward : Spelled after back) : Spelled patterns (rounds.flatten ++ back)

theorem Spelled.spells (spelled : Spelled patterns symbols)
    (firm : ∀ pattern ∈ patterns, pattern.Firm) :
    SpellsInTurn patterns symbols := by
  induction spelled with
  | done done => exact spells_of_done done firm
  | token begins shown _ ih =>
    exact spells_of_begins begins firm shown (ih (firm_of_begins begins firm).1)
  | rep begins admitted _ _ ihEach ih =>
    rcases firm_of_begins begins firm with ⟨later, body⟩
    refine spells_of_begins begins firm ⟨_, admitted, fun round member => ?_, rfl⟩ (ih later)
    exact spellsInTurn_singleton.mp (ihEach round member (forall_mem_singleton.mpr (body _ _ rfl)))

theorem Spelled.of_begins (spelled : Spelled patterns symbols) (notDone : ¬ Done patterns)
    (wider : ∀ head after, Begins patterns head after → Begins rest head after) :
    Spelled rest symbols := by
  cases spelled with
  | done done => exact absurd done notDone
  | token begins shown onward => exact .token (wider _ _ begins) shown onward
  | rep begins admitted each onward => exact .rep (wider _ _ begins) admitted each onward

theorem Spelled.seq (spelled : Spelled (elements ++ rest) symbols) :
    Spelled (.seq elements :: rest) symbols := by
  cases spelled with
  | done done => exact .done (.seq done)
  | token begins shown onward => exact .token (.seq begins) shown onward
  | rep begins admitted each onward => exact .rep (.seq begins) admitted each onward

theorem Spelled.empty (noBytes : (alt choices).size.getD 0 = 0) (hasValue : anyHasValue choices)
    (spelled : Spelled rest symbols) : Spelled (.alt choices :: rest) symbols := by
  cases spelled with
  | done done => exact .done (.empty noBytes hasValue done)
  | token begins shown onward => exact .token (.empty noBytes hasValue begins) shown onward
  | rep begins admitted each onward =>
    exact .rep (.empty noBytes hasValue begins) admitted each onward

theorem Done.of_append (done : Done (elements ++ rest)) : Done elements := by
  generalize whole : elements ++ rest = patterns at done
  induction done generalizing elements with
  | nil =>
    rw [(append_eq_nil_iff.mp whole).1]
    exact .nil
  | seq _ ih =>
    rcases append_eq_cons_iff.mp whole with ⟨rfl, _⟩ | ⟨_, rfl, rfl⟩
    · exact .nil
    · exact .seq (ih (append_assoc ..))
  | empty noBytes hasValue _ ih =>
    rcases append_eq_cons_iff.mp whole with ⟨rfl, _⟩ | ⟨_, rfl, rfl⟩
    · exact .nil
    · exact .empty noBytes hasValue (ih rfl)

theorem Firm.not_done (firm : pattern.Firm) (notEmpty : ¬ pattern.Spells []) :
    ¬ Done (pattern :: rest) := by
  intro done
  have alone : Done [pattern] := done.of_append
  exact notEmpty (spellsInTurn_singleton.mp (spells_of_done alone (forall_mem_singleton.mpr firm)))

mutual

theorem spelled_cons :
    {pattern : Pattern} → {rest : List Pattern} → {front back : List Symbol} → pattern.Firm →
    pattern.Spells front → Spelled rest back → Spelled (pattern :: rest) (front ++ back)
  | leaf _, _, _, _, _, spells, onward => by
    simp only [Spells] at spells
    exact .token (.token ..) spells onward
  | seq _, _, _, _, firm, spells, onward => by
    simp only [Spells] at spells
    exact (spelled_append firm.parts spells onward).seq
  | alt options, _, _, _, firm, spells, onward => by
    by_cases noBytes : (alt options).size.getD 0 = 0
    · rcases (firm.spells_empty noBytes).mp spells with ⟨hasValue, rfl⟩
      exact onward.empty noBytes hasValue
    · simp only [Spells] at spells
      rcases spelled_option firm.options spells onward with ⟨option, member, spelled⟩
      refine spelled.of_begins ?_ fun _ _ begins => .option noBytes member begins
      exact (firm.options option member).not_done (firm.not_spells_nil noBytes member)
  | rep _ _, _, _, _, firm, spells, onward => by
    simp only [Spells] at spells
    rcases spells with ⟨_, admitted, each, rfl⟩
    refine .rep (.rep ..) admitted (fun round member => ?_) onward
    have spelled := spelled_cons firm.body (each round member) (.done .nil)
    rwa [append_nil] at spelled

theorem spelled_append :
    {parts : List Pattern} → {rest : List Pattern} → {front back : List Symbol} →
    (∀ part ∈ parts, part.Firm) → SpellsInTurn parts front → Spelled rest back →
    Spelled (parts ++ rest) (front ++ back)
  | [], _, _, _, _, spells, onward => by
    simp only [SpellsInTurn] at spells
    subst spells
    exact onward
  | _ :: _, _, _, _, firm, spells, onward => by
    simp only [SpellsInTurn] at spells
    rcases forall_mem_cons.mp firm with ⟨here, later⟩
    rcases spells with ⟨_, _, spellsFirst, spellsSecond, rfl⟩
    rw [append_assoc]
    exact spelled_cons here spellsFirst (spelled_append later spellsSecond onward)

theorem spelled_option :
    {options : List Pattern} → {rest : List Pattern} → {front back : List Symbol} →
    (∀ option ∈ options, option.Firm) → SpellsAny options front → Spelled rest back →
    ∃ option ∈ options, Spelled (option :: rest) (front ++ back)
  | [], _, _, _, _, spells, _ => by simp only [SpellsAny] at spells
  | option :: _, _, _, _, firm, spells, onward => by
    simp only [SpellsAny] at spells
    rcases forall_mem_cons.mp firm with ⟨here, later⟩
    rcases spells with spells | spells
    · exact ⟨option, mem_cons_self, spelled_cons here spells onward⟩
    · rcases spelled_option later spells onward with ⟨other, member, spelled⟩
      exact ⟨other, mem_cons_of_mem _ member, spelled⟩

end

theorem Firm.spelled_iff (firm : pattern.Firm) :
    Spelled [pattern] symbols ↔ pattern.Spells symbols := by
  constructor
  · intro spelled
    exact spellsInTurn_singleton.mp (spelled.spells (forall_mem_singleton.mpr firm))
  · intro spells
    have spelled := spelled_cons firm spells (.done .nil)
    rwa [append_nil] at spelled

end Firm

end Pattern

namespace Arena

open Pattern (Begins Done Spelled)

variable {arena larger : Arena} {id : LayoutId} {goal state : StateId}

/-- The routes to the goal are what is spelled by the patterns still to come. -/
theorem Unfolds.route_iff (unfolds : arena.Unfolds goal state patterns) :
    arena.Route state symbols goal ↔ Spelled patterns symbols := by
  constructor
  · intro route
    induction route generalizing patterns with
    | nil => exact .done (unfolds.done.mp rfl)
    | token edge shown _ ih =>
      rcases unfolds.opens.forth _ edge with ⟨_, _, begins, labels, onward⟩
      cases labels with
      | token => exact .token begins shown (ih onward)
    | rep edge admitted _ _ ihEach ih =>
      rcases unfolds.opens.forth _ edge with ⟨_, _, begins, labels, onward⟩
      cases labels with
      | rep isBody =>
        exact .rep begins admitted (fun round member => ihEach round member isBody) (ih onward)
  · intro spelled
    induction spelled generalizing goal state with
    | done done =>
      rw [unfolds.done.mpr done]
      exact .nil goal
    | token begins shown _ ih =>
      rcases unfolds.opens.back _ _ begins with ⟨⟨_, _⟩, edge, labels, onward⟩
      cases labels with
      | token => exact .token edge shown (ih onward)
    | rep begins admitted _ _ ihEach ih =>
      rcases unfolds.opens.back _ _ begins with ⟨⟨_, _⟩, edge, labels, onward⟩
      cases labels with
      | rep isBody =>
        exact .rep edge admitted (fun round member => ihEach round member isBody) (ih onward)

theorem means_define (inside : id.index < arena.layouts.size) (shaped : pattern.Shaped)
    (leaves : pattern.Leaves Token.Solid) (defined : arena.define id pattern = .ok larger) :
    larger.Means id symbols ↔ pattern.Spells symbols := by
  rw [means_iff_route, (unfolds_define inside defined).route_iff,
    Pattern.Firm.spelled_iff ⟨shaped, leaves⟩]

end Arena

end Recast
