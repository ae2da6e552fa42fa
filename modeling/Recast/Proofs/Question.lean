import Recast.Proofs.Inclusion.Exercised

/-!
# Answers to questions

A question about two shapes is answered by a check, once both have been assembled in one arena
(`Setting.Assembles`). What is known of checks in arenas that assemblies have filled carries over.
-/

namespace Recast

namespace Setting

variable {setting : Setting} {source destination : Shape} {inquiry : Inquiry} {arena : Arena}
  {assumed exercised : Assumptions}

/-- The two shapes have been assembled one after the other, with their layouts in the arena. -/
def Assembles (setting : Setting) (source destination : Shape) (inquiry : Inquiry) (arena : Arena) :
    Prop :=
  ∃ middle, setting.assemble source setting.sourceLength {} = .ok (inquiry.1, middle) ∧
    setting.assemble destination setting.destinationLength middle = .ok (inquiry.2, arena)

section Assembled

variable (assembles : setting.Assembles source destination inquiry arena)
include assembles

theorem Assembles.recast_eq (assumed : Assumptions) :
    setting.recast source destination assumed =
      ((setting.terms arena assumed).check inquiry.1 inquiry.2 {}).1.mapError .rejected := by
  rcases assembles with ⟨_, first, second⟩
  simp only [recast, first, second]
  cases ((setting.terms arena assumed).check inquiry.1 inquiry.2 {}).1 <;> rfl

theorem Assembles.recast_eq_ok_iff :
    setting.recast source destination assumed = .ok exercised ↔
      ((setting.terms arena assumed).check inquiry.1 inquiry.2 {}).1 = .ok exercised := by
  rw [assembles.recast_eq]
  cases ((setting.terms arena assumed).check inquiry.1 inquiry.2 {}).1 <;> simp [Except.mapError]

theorem Assembles.isOk_recast :
    (setting.recast source destination assumed).isOk =
      ((setting.terms arena assumed).check inquiry.1 inquiry.2 {}).1.isOk := by
  rw [assembles.recast_eq]
  cases ((setting.terms arena assumed).check inquiry.1 inquiry.2 {}).1 <;> rfl

end Assembled

/-- The layouts of the two shapes, if both can be assembled, one after the other, and their arena.
-/
def assembled? (setting : Setting) (source destination : Shape) : Option (Inquiry × Arena) :=
  (setting.assemble source setting.sourceLength {}).toOption.bind fun first =>
    (setting.assemble destination setting.destinationLength first.2).toOption.map fun second =>
      ((first.1, second.1), second.2)

theorem assembles_of_assembled? {found : Inquiry × Arena}
    (isFound : setting.assembled? source destination = some found) :
    setting.Assembles source destination found.1 found.2 := by
  simp only [assembled?, Option.bind_eq_some_iff, Option.map_eq_some_iff] at isFound
  rcases isFound with ⟨first, isFirst, _, isSecond, rfl⟩
  exact ⟨first.2, eq_ok_of_toOption isFirst, eq_ok_of_toOption isSecond⟩

theorem assembles_of_recast (accepted : setting.recast source destination assumed = .ok exercised) :
    ∃ inquiry arena, setting.Assembles source destination inquiry arena := by
  simp only [recast] at accepted
  split at accepted
  · cases accepted
  · rename_i sourceId middle first
    split at accepted
    · cases accepted
    · rename_i destinationId arena second
      exact ⟨(sourceId, destinationId), arena, middle, first, second⟩

section

variable (assembles : setting.Assembles source destination inquiry arena)
  (words : setting.FitsWords) (sourceWords : source.FitsWords)
  (destinationWords : destination.FitsWords)
include assembles words sourceWords destinationWords

theorem Assembles.charted {plain : Prop}
    (isPlain : plain → source.Plain setting.catalog ∧ destination.Plain setting.catalog) :
    (∃ plot, arena.Charts plot (Token.Admitted plain arena.layouts.size)) ∧
      inquiry.1.index < arena.layouts.size ∧ inquiry.2.index < arena.layouts.size := by
  rcases assembles with ⟨_, first, second⟩
  have firstSound := sound_assemble words sourceWords words.source (fun yes => (isPlain yes).1)
    Workshop.sound_empty first
  have secondSound := sound_assemble words destinationWords words.destination
    (fun yes => (isPlain yes).2) firstSound.1 second
  exact ⟨secondSound.1.charted, lt_of_lt_of_le firstSound.2.1 secondSound.2.2.1, secondSound.2.1⟩

theorem Assembles.plotted :
    (∃ plot, arena.Plotted plot) ∧
      inquiry.1.index < arena.layouts.size ∧ inquiry.2.index < arena.layouts.size := by
  rcases assembles.charted words sourceWords destinationWords False.elim with
    ⟨⟨plot, charts⟩, inside⟩
  exact ⟨⟨plot, charts.mono fun _ => And.left⟩, inside⟩

/-- The layouts of the shapes are accepted, if the budget allows, where the lower rules relate them;
and the assumptions that are needed are among those given. -/
theorem Assembles.recast_accepts {lower : Rules}
    (bounds : (setting.terms arena assumed).Bounds True lower) (isRelated : lower.related inquiry) :
    ∃ exercised, exercised ⊆ assumed ∧ Budget.ForLarge fun budget =>
      { setting with budget }.recast source destination assumed = .ok exercised := by
  rcases assembles.plotted words sourceWords destinationWords with ⟨⟨plot, charts⟩, inside⟩
  let terms := setting.terms arena assumed
  have steps : terms.Steps Budget.growing plot True terms.step := Terms.steps_step _ charts
  rcases Terms.checkBy_accepts steps charts bounds inside isRelated with
    ⟨exercised, least, accepts⟩
  simp only [← Terms.check_eq_checkBy] at accepts
  refine ⟨exercised, ?_, least, fun budget enoughPairs enoughDepth => ?_⟩
  · exact Terms.check_subset (accepts ⟨least, least⟩ le_rfl le_rfl)
  · have assemblesToo : { setting with budget }.Assembles source destination inquiry arena :=
      assembles
    exact assemblesToo.recast_eq_ok_iff.mpr (accepts budget enoughPairs enoughDepth)

end

theorem fitsWords_default : Setting.FitsWords {} :=
  ⟨.of_fits rfl, Workshop.fitsWords_machine, Workshop.fitsWords_noLength,
    Workshop.fitsWords_noLength⟩

end Setting

end Recast
