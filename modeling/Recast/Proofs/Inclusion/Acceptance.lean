import Recast.Proofs.Assembly.Shapes
import Recast.Proofs.Inclusion.Verdict

/-!
# Accepted layouts

If a check accepts two layouts of an arena that assemblies have filled, then they belong to a
relation of layouts in which every value of the first is read by a walk of the second, with
referents that are related in turn. This holds whatever the check assumes, whatever outlives what,
and whatever the budget.
-/

namespace Recast

open Position

variable {arena : Arena} {plot : Plot} {proper : Token → Prop} {inside : LayoutId → Prop}
  {letters : List Letter} {tokens : List Token} {inquiry : Inquiry}

/-- The letter, if it is a reference, is one to a layout that meets the condition. -/
def Letter.RefersTo (inside : LayoutId → Prop) : Letter → Prop
  | .reference target => inside target.referent
  | _ => True

/-- The token, if it is a reference, is one to a layout that meets the condition. -/
def Token.RefersTo (inside : LayoutId → Prop) : Token → Prop
  | .reference target => inside target.referent
  | _ => True

theorem Token.Holds.refersTo {token : Token} {letter : Letter} (holds : token.Holds letter)
    (refers : token.RefersTo inside) : letter.RefersTo inside := by
  cases holds with
  | reference => exact refers
  | byte | uninit | marker => trivial

theorem Token.Proper.refersTo {layouts : Nat} {token : Token} (isProper : token.Proper layouts) :
    token.RefersTo fun id => id.index < layouts := by
  cases token with
  | reference => exact isProper
  | cell | marker => trivial

theorem Token.exists_holds {letter : Letter} (holds : List.Forall₂ Token.Holds tokens letters)
    (member : letter ∈ letters) :
    ∃ token ∈ tokens, token.Holds letter := by
  induction holds with
  | nil => simp at member
  | cons held _ ih =>
    rcases List.mem_cons.mp member with rfl | later
    · exact ⟨_, List.mem_cons_self, held⟩
    · rcases ih later with ⟨token, isToken, isHeld⟩
      exact ⟨token, List.mem_cons_of_mem _ isToken, isHeld⟩

namespace Rules

variable {rules : Rules}

def confine (rules : Rules) (inside : LayoutId → Prop) : Rules :=
  { rules with
    related := fun inquiry => rules.related inquiry ∧ inside inquiry.1 ∧ inside inquiry.2 }

theorem Replaces.confine {source destination : Reference} (sourceInside : inside source.referent)
    (destinationInside : inside destination.referent)
    (replaces : rules.Replaces source destination) :
    (rules.confine inside).Replaces source destination where
  access := replaces.access
  width := replaces.width
  aligned := replaces.aligned
  outlived := replaces.outlived
  forth := ⟨replaces.forth, sourceInside, destinationInside⟩
  back exclusive := ⟨replaces.back exclusive, destinationInside, sourceInside⟩

theorem Covers.confine (covers : rules.Covers letters tokens)
    (lettersInside : ∀ letter ∈ letters, letter.RefersTo inside)
    (tokensInside : ∀ token ∈ tokens, token.RefersTo inside) :
    (rules.confine inside).Covers letters tokens := by
  induction covers with
  | finished letters => exact .finished letters
  | padding _ ih =>
    exact .padding (ih lettersInside fun _ member => tokensInside _ (.tail _ member))
  | byte accepted _ ih =>
    exact .byte accepted (ih (fun _ member => lettersInside _ (.tail _ member))
      fun _ member => tokensInside _ (.tail _ member))
  | forgottenByte _ ih =>
    exact .forgottenByte (ih (fun _ member => lettersInside _ (.tail _ member))
      fun _ member => tokensInside _ (.tail _ member))
  | uninit _ ih =>
    exact .uninit (ih (fun _ member => lettersInside _ (.tail _ member))
      fun _ member => tokensInside _ (.tail _ member))
  | reference replaces _ ih =>
    exact .reference (replaces.confine (lettersInside _ (.head _)) (tokensInside _ (.head _)))
      (ih (fun _ member => lettersInside _ (.tail _ member)) fun _ member =>
      tokensInside _ (.tail _ member))
  | forgottenReference _ ih =>
    exact .forgottenReference (ih (fun _ member => lettersInside _ (.tail _ member))
      fun _ member => tokensInside _ (List.mem_append_right _ member))
  | marker _ ih =>
    exact .marker (ih (fun _ member => lettersInside _ (.tail _ member))
      fun _ member => tokensInside _ (.tail _ member))
  | bare _ ih => exact .bare (ih (fun _ member => lettersInside _ (.tail _ member)) tokensInside)
  | entered safe _ ih =>
    exact .entered safe (ih lettersInside fun _ member => tokensInside _ (.tail _ member))

theorem Sustains.covers (charts : arena.Charts plot proper) {leaping : Prop}
    (sourceInside : inquiry.1.index < arena.layouts.size)
    (destinationInside : inquiry.2.index < arena.layouts.size)
    (sustains : rules.Sustains arena leaping inquiry) (value : arena.Value inquiry.1 letters) :
    ∃ tokens, arena.Walk inquiry.2 tokens ∧ rules.Covers letters tokens := by
  rcases sustains with ⟨_, atRoots, coherent⟩
  rcases value with ⟨_, walk, holds⟩
  have trace := (walk_iff charts sourceInside).mp walk
  rcases Rules.covers coherent.walks trace holds atRoots with ⟨_, rfl, tokens, onward, covers⟩
  exact ⟨tokens, (walk_iff charts destinationInside).mpr onward, covers⟩

end Rules

theorem Arena.Walk.isProper {id : LayoutId} (charts : arena.Charts plot proper)
    (inside : id.index < arena.layouts.size) (walk : arena.Walk id tokens) :
    ∀ token ∈ tokens, proper token :=
  ((walk_iff charts inside).mp walk).isProper charts (within_root charts inside)

theorem Arena.Value.refersTo {id : LayoutId} (charts : arena.Plotted plot)
    (inside : id.index < arena.layouts.size) (value : arena.Value id letters) :
    ∀ letter ∈ letters, letter.RefersTo fun id => id.index < arena.layouts.size := by
  rcases value with ⟨_, walk, holds⟩
  intro _ member
  rcases Token.exists_holds holds member with ⟨token, isToken, held⟩
  exact held.refersTo (walk.isProper charts inside token isToken).refersTo

namespace Terms

variable {terms : Terms} {related : Inquiry → Prop}

theorem lower_of_none (terms : Terms) (leaping : Prop) : terms.Bounds leaping nothing where
  assumed _ member := by simp [nothing] at member
  strict := by simp [nothing]
  outlives _ _ no := by simp [nothing] at no
  sustains _ no := no.elim

theorem upheld_of_check (charts : terms.arena.Plotted plot)
    {earlier : List Inquiry} (earlierInside : ∀ other ∈ earlier, terms.Inside other)
    (inside : terms.Inside inquiry) {exercised : Assumptions}
    (accepted : (terms.check inquiry.1 inquiry.2 (terms.after earlier {})).1 = .ok exercised) :
    (terms.relying exercised).Upheld True (fun _ => False) inquiry := by
  have settled : Budget.Settled (pure terms.budget) := .inl ⟨_, rfl⟩
  rcases between_after charts settled (terms.lower_of_none True) earlierInside between_start with
    ⟨progress, isProgress, between⟩
  rcases checkBy_verdict (steps_step _ charts) charts settled (terms.lower_of_none True)
    inside between with ⟨_, _, isOutcome, _, verdict⟩
  rw [Filter.eventually_pure] at isProgress isOutcome
  rw [isProgress, terms.check_eq_checkBy terms.budget] at accepted
  rw [isOutcome] at accepted
  subst accepted
  exact verdict

/-- An acceptance relates the two layouts, and of related layouts, every value of the first is read
by a walk of the second. -/
theorem covers_of_check (charts : terms.arena.Plotted plot) {earlier : List Inquiry}
    (earlierInside : ∀ other ∈ earlier, terms.Inside other) (inside : terms.Inside inquiry)
    (accepted : (terms.check inquiry.1 inquiry.2 (terms.after earlier {})).1 = .ok exercised) :
    ∃ related : Inquiry → Prop, related inquiry ∧ ∀ pair, related pair → terms.Inside pair ∧
      ∀ letters, terms.arena.Value pair.1 letters →
        ∃ tokens, terms.arena.Walk pair.2 tokens ∧ (terms.rules related).Covers letters tokens := by
  have upheld := upheld_of_check charts earlierInside inside accepted
  rcases upheld.ease (terms.eased_relying exercised) with ⟨related, member, each⟩
  refine ⟨fun pair => related pair ∧ terms.Inside pair, ⟨member, inside⟩, ?_⟩
  rintro pair ⟨isRelated, pairInside⟩
  refine ⟨pairInside, fun _ value => ?_⟩
  have sustained : terms.Sustained True related pair := (each pair isRelated).resolve_left id
  rcases sustained.covers charts pairInside.1 pairInside.2 value with ⟨tokens, walk, covers⟩
  refine ⟨tokens, walk, covers.confine (value.refersTo charts pairInside.1) ?_⟩
  exact fun token isToken => (walk.isProper charts pairInside.2 token isToken).refersTo

/-- In an arena that assemblies have filled, whatever the check assumes, whatever its budget and
whatever was checked before: an acceptance relates the two layouts, and of related layouts, every
value of the first is read by a walk of the second. -/
theorem check_sound {shop : Workshop} (filled : shop.Filled) (isArena : terms.arena = shop.arena)
    {earlier : List Inquiry} (earlierInside : ∀ other ∈ earlier, terms.Inside other)
    (inside : terms.Inside inquiry) {exercised : Assumptions}
    (accepted : (terms.check inquiry.1 inquiry.2 (terms.after earlier {})).1 = .ok exercised) :
    ∃ related : Inquiry → Prop, related inquiry ∧ ∀ pair, related pair → terms.Inside pair ∧
      ∀ letters, terms.arena.Value pair.1 letters →
        ∃ tokens, terms.arena.Walk pair.2 tokens ∧ (terms.rules related).Covers letters tokens := by
  rcases filled.exists_plotted isArena with ⟨_, charts⟩
  exact covers_of_check charts earlierInside inside accepted

end Terms

section Sample

open Workshop

/-- A workshop with the layouts of an exclusive reference to a boolean and of a shared reference to
a byte. -/
def Workshop.references : Workshop :=
  let guarantee (access : Access) : Guarantee := ⟨1, access, .static⟩
  let first := Job.ofShape (.reference (.scalar .bool) (guarantee .exclusive)) (.of_fits rfl)
  let second := Job.ofShape (.reference (.scalar (.int 1)) (guarantee .shared)) (.of_fits rfl)
  second.leave (first.leave {})

theorem Workshop.filled_references : references.Filled := by
  unfold references
  exact .leave _ (.leave _ .empty)

/-- The exclusive reference to a boolean is accepted as the shared reference to a byte. -/
theorem Terms.check_sound_references : let terms : Terms := { arena := Workshop.references.arena }
    (terms.check ⟨1⟩ ⟨3⟩ {}).1.toOption = some ∅ ∧
      ∃ related : Inquiry → Prop, related (⟨1⟩, ⟨3⟩) ∧ ∀ pair, related pair → terms.Inside pair ∧
        ∀ letters, terms.arena.Value pair.1 letters →
          ∃ tokens, terms.arena.Walk pair.2 tokens ∧
            (terms.rules related).Covers letters tokens := by
  intro terms
  have accepted : (terms.check ⟨1⟩ ⟨3⟩ {}).1.toOption = some ∅ := by decide +kernel
  have inside : terms.Inside (⟨1⟩, ⟨3⟩) := by decide +kernel
  exact ⟨accepted, Terms.check_sound Workshop.filled_references rfl (List.forall_mem_nil _) inside
    (eq_ok_of_toOption accepted)⟩

end Sample

end Recast
