import Mathlib.Data.Set.Finite.List
import Recast.Proofs.Inclusion.Step

/-!
# Agendas

An agenda keeps track of pairings: those still to be looked at, and all that were ever put down
(`Agenda.Keeps`). Putting pairings down adds those that are new to both. There are only so many
pairings that may occur (`Pairing.finite_valid`), so a survey comes to an end.
-/

namespace Recast

open List

open Foothold (positions)

theorem Foothold.key_injective {foothold other : Foothold}
    (same : (if foothold.guarded then 1 else 0) :: foothold.position.key =
      (if other.guarded then 1 else 0) :: other.position.key) : foothold = other := by
  rcases foothold with ⟨position, guarded⟩
  rcases other with ⟨otherPosition, otherGuarded⟩
  simp only [cons.injEq] at same
  have samePosition := Position.key_injective same.2
  cases guarded <;> cases otherGuarded <;> simp_all

theorem Pairing.key_injective {pairing other : Pairing} (same : pairing.key = other.key) :
    pairing = other := by
  rcases pairing with ⟨_, _⟩
  rcases other with ⟨_, _⟩
  simp only [Pairing.key, cons.injEq] at same
  rw [Position.key_injective same.1]
  congr 1
  exact map_injective_iff.mpr (fun _ _ => Foothold.key_injective) same.2

namespace Agenda

variable {queue rest : List Bucket} {offset : Nat} {pairing : Pairing} {agenda filled : Agenda}
  {known : List Pairing}

/-- The pairings still to look at. -/
def pending (queue : List Bucket) : List Pairing :=
  queue.flatMap fun bucket => bucket.front ++ bucket.back.reverse

theorem pending_cons (bucket : Bucket) :
    pending (bucket :: queue) = bucket.front ++ bucket.back.reverse ++ pending queue := by
  simp [pending]

theorem pending_insert (offset : Nat) (pairing : Pairing) (queue : List Bucket) :
    (pending (insert offset pairing queue)).Perm (pairing :: pending queue) := by
  induction queue with
  | nil => simp [insert, pending]
  | cons bucket rest ih =>
    rw [insert]
    split
    · simp [pending_cons]
    · split
      · have placed : pending ({ bucket with back := pairing :: bucket.back } :: rest) =
            bucket.front ++ bucket.back.reverse ++ pairing :: pending rest := by
          simp [pending_cons]
        rw [placed, pending_cons]
        exact perm_middle
      · simp only [pending_cons]
        exact (ih.append_left _).trans perm_middle

theorem pending_of_pop (found : pop? queue = some ((offset, pairing), rest)) :
    pending queue = pairing :: pending rest := by
  induction queue with
  | nil => simp [pop?] at found
  | cons bucket others ih =>
    rcases bucket with ⟨place, front, back⟩
    cases front with
    | cons =>
      simp only [pop?, Option.some.injEq, Prod.mk.injEq] at found
      rcases found with ⟨⟨rfl, rfl⟩, rfl⟩
      simp [pending_cons]
    | nil =>
      rw [pop?] at found
      split at found
      · rename_i first front isBack
        simp only [Option.some.injEq, Prod.mk.injEq] at found
        rcases found with ⟨⟨rfl, rfl⟩, rfl⟩
        simp [pending_cons, isBack]
      · rename_i isBack
        rw [pending_cons, ih found]
        simp [isBack]

theorem pending_of_pop_eq_none (found : pop? queue = none) : pending queue = [] := by
  induction queue with
  | nil => rfl
  | cons bucket others ih =>
    rcases bucket with ⟨place, front, back⟩
    cases front with
    | cons => simp [pop?] at found
    | nil =>
      rw [pop?] at found
      split at found
      · simp at found
      · rename_i isBack
        simp [pending_cons, isBack, ih found]

theorem next_eq_some (found : agenda.next? = some ((offset, pairing), filled)) :
    pending agenda.queue = pairing :: pending filled.queue ∧ filled.seen = agenda.seen := by
  simp only [next?, Option.map_eq_some_iff, Prod.mk.injEq, Prod.exists] at found
  rcases found with ⟨_, _, _, popped, ⟨rfl, rfl⟩, rfl⟩
  exact ⟨pending_of_pop popped, rfl⟩

theorem next_eq_none (found : agenda.next? = none) : pending agenda.queue = [] := by
  simp only [next?, Option.map_eq_none_iff] at found
  exact pending_of_pop_eq_none found

/-- The agenda knows the pairings that were ever put down, each of them once. -/
structure Keeps (known : List Pairing) (agenda : Agenda) : Prop where
  seen : ∀ pairing : Pairing, agenda.seen.contains pairing.key ↔ pairing ∈ known
  distinct : known.Nodup

theorem Keeps.add (keeps : agenda.Keeps known) (added : agenda.add? offset pairing = some filled) :
    filled.Keeps (pairing :: known) ∧ (pending filled.queue).Perm
      (pairing :: pending agenda.queue) := by
  simp only [add?] at added
  split at added
  · simp at added
  · rename_i isNew
    simp only [Option.some.injEq] at added
    subst added
    rw [keeps.seen] at isNew
    refine ⟨⟨fun _ => ?_, nodup_cons.mpr ⟨isNew, keeps.distinct⟩⟩, pending_insert _ _ _⟩
    rw [Std.TreeSet.contains_insert, Bool.or_eq_true, keeps.seen, beq_iff_eq,
      Std.LawfulEqCmp.compare_eq_iff_eq, mem_cons]
    refine or_congr_left ⟨fun same => (Pairing.key_injective same).symm, fun same => ?_⟩
    rw [same]

theorem Keeps.of_add_eq_none (keeps : agenda.Keeps known)
    (refused : agenda.add? offset pairing = none) : pairing ∈ known := by
  simp only [add?] at refused
  split at refused
  · rename_i isKnown
    exact (keeps.seen pairing).mp isKnown
  · simp at refused

theorem Keeps.addAll {next : List (Nat × Pairing)} (keeps : agenda.Keeps known) :
    ∃ more, (agenda.addAll offset next).1.Keeps (more ++ known) ∧
      (pending (agenda.addAll offset next).1.queue).Perm (more ++ pending agenda.queue) ∧
      (∀ pairing ∈ more, ∃ entry ∈ next, entry.2 = pairing) ∧
      ∀ entry ∈ next, entry.2 ∈ more ++ known := by
  induction next generalizing agenda known with
  | nil => exact ⟨[], keeps, .refl _, by simp, by simp⟩
  | cons entry _ ih =>
    rcases entry with ⟨distance, pairing⟩
    rcases added : agenda.add? (Extent.satAdd offset distance) pairing with
      _ | _ <;> simp only [Agenda.addAll, added]
    · rcases ih keeps with ⟨more, keepsMore, isPending, fromNext, isKnown⟩
      refine ⟨more, keepsMore, isPending, fun other member => ?_, fun other member => ?_⟩
      · rcases fromNext other member with ⟨entry, isEntry, same⟩
        exact ⟨entry, mem_cons_of_mem _ isEntry, same⟩
      · rcases mem_cons.mp member with rfl | inRest
        · exact mem_append_right _ (keeps.of_add_eq_none added)
        · exact isKnown other inRest
    · rcases keeps.add added with ⟨keepsOne, isPendingOne⟩
      rcases ih keepsOne with ⟨more, keepsMore, isPending, fromNext, isKnown⟩
      rw [append_cons] at keepsMore isKnown
      refine ⟨more ++ [pairing], keepsMore, ?_, fun other member => ?_, fun other member => ?_⟩
      · refine isPending.trans ?_
        rw [← append_cons]
        exact isPendingOne.append_left more
      · rcases mem_append.mp member with inMore | isPairing
        · rcases fromNext other inMore with ⟨entry, isEntry, same⟩
          exact ⟨entry, mem_cons_of_mem _ isEntry, same⟩
        · exact ⟨_, mem_cons_self, (mem_singleton.mp isPairing).symm⟩
      · rcases mem_cons.mp member with rfl | inRest
        · simp
        · exact isKnown other inRest

theorem mem_pending_addAll {next : List (Nat × Pairing)}
    (member : pairing ∈ pending (agenda.addAll offset next).1.queue) :
    pairing ∈ pending agenda.queue ∨ ∃ entry ∈ next, entry.2 = pairing := by
  induction next generalizing agenda with
  | nil => exact .inl member
  | cons entry _ ih =>
    rcases entry with ⟨distance, other⟩
    simp only [addAll, add?] at member
    rw [exists_mem_cons_iff]
    split at member
    · rename_i added
      split at added
      · cases added
      · rw [← Option.some.inj added] at member
        rcases ih member with before | fromRest
        · rcases mem_cons.mp ((pending_insert _ _ _).mem_iff.mp before) with rfl | before
          · exact .inr (.inl rfl)
          · exact .inl before
        · exact .inr (.inr fromRest)
    · exact (ih member).imp_right .inr

end Agenda

section Finite

variable {arena : Arena} {plot : Plot} {proper : Token → Prop}

theorem Foothold.finite_lists (charts : arena.Charts plot proper) :
    {footholds : List Foothold | Located arena plot (positions footholds) ∧
      (footholds.map Foothold.position).Nodup}.Finite := by
  have finite := Position.finite_within charts
  -- Footholds are positions with a flag.
  have finiteFootholds : {foothold : Foothold | ∃ root,
      foothold.position.Within arena plot root}.Finite := by
    have flagged := (finite.prod (Set.toFinite (Set.univ : Set Bool))).image fun pair =>
      Foothold.mk pair.1 pair.2
    refine flagged.subset ?_
    rintro ⟨position, guarded⟩ within
    exact ⟨(position, guarded), ⟨within, Set.mem_univ _⟩, rfl⟩
  have := finiteFootholds.to_subtype
  have short := finite_length_le
    {foothold : Foothold | ∃ root, foothold.position.Within arena plot root} finite.toFinset.card
  refine (short.image (map Subtype.val)).subset ?_
  rintro footholds ⟨located, distinct⟩
  have allWithin (foothold : Foothold) (member : foothold ∈ footholds) :=
    located foothold.position ⟨foothold, member, rfl⟩
  refine ⟨footholds.attachWith _ allWithin, ?_, attachWith_map_subtype_val allWithin⟩
  rw [Set.mem_ofPred_eq, length_attachWith]
  calc
    footholds.length = (footholds.map Foothold.position).length := by simp
    _ = (footholds.map Foothold.position).toFinset.card :=
      (toFinset_card_of_nodup distinct).symm
    _ ≤ finite.toFinset.card := by
      refine Finset.card_le_card fun _ member => ?_
      rw [mem_toFinset, mem_map] at member
      rcases member with ⟨foothold, isFoothold, rfl⟩
      exact finite.mem_toFinset.mpr (allWithin foothold isFoothold)

theorem Pairing.finite_valid (charts : arena.Charts plot proper) :
    {pairing : Pairing | pairing.Valid arena plot}.Finite := by
  have pairs :=
    ((Position.finite_within charts).prod (Foothold.finite_lists charts)).image fun pair =>
    Pairing.mk pair.1 pair.2
  refine pairs.subset ?_
  rintro ⟨source, footholds⟩ valid
  exact ⟨(source, footholds), ⟨valid.source, valid.located, valid.distinct⟩, rfl⟩

/-- There are no more valid pairings than so many. -/
def Pairing.Limited (arena : Arena) (plot : Plot) (limit : Nat) : Prop :=
  ∀ known : List Pairing, known.Nodup → (∀ pairing ∈ known, pairing.Valid arena plot) →
    known.length ≤ limit

theorem Pairing.exists_limit (charts : arena.Charts plot proper) :
    ∃ limit, Limited arena plot limit := by
  have finite := Pairing.finite_valid charts
  refine ⟨finite.toFinset.card, fun _ distinct valid => ?_⟩
  rw [← toFinset_card_of_nodup distinct]
  refine Finset.card_le_card fun pairing member => ?_
  exact finite.mem_toFinset.mpr (valid pairing (mem_toFinset.mp member))

end Finite

end Recast
