import Mathlib.Data.List.Perm.Basic
import Mathlib.Data.List.Nodup

/-!
# Queues in two stages

Items enter at the front stage of a queue, or wait at the back stage until that is moved up behind the
front stage.  Items are taken from the front stage, all at once or, with its first item, only those
that are marked.

* `Move.conserved`: every item that entered is in a stage or has been taken, once.
* `Move.inTurn`: the unmarked items are taken in the order in which they entered.  For this an
  unmarked item may enter at the front stage only when nobody waits at the back.
* `Move.precedes`: an unmarked item that is behind a marked one is not taken before it.
-/

namespace Staged

open List

variable {κ : Type*} {marked : κ → Prop} [DecidablePred marked]

/-- Where two items are that follow one another in a list of two parts. -/
theorem pair_sublist_append_iff {a b : κ} {l r : List κ} : [a, b].Sublist (l ++ r) ↔
    [a, b].Sublist l ∨ a ∈ l ∧ b ∈ r ∨ [a, b].Sublist r := by
  constructor
  · intro h
    obtain ⟨l₁, l₂, heq, h₁, h₂⟩ := sublist_append_iff.1 h
    rcases l₁ with - | ⟨x, - | ⟨y, l₁⟩⟩
    · exact .inr (.inr (heq ▸ h₂))
    · obtain ⟨rfl, rfl⟩ := List.cons.inj heq
      exact .inr (.inl ⟨singleton_sublist.1 h₁, singleton_sublist.1 h₂⟩)
    · obtain ⟨rfl, hta⟩ := List.cons.inj heq
      obtain ⟨rfl, hnil⟩ := List.cons.inj hta
      obtain ⟨rfl, -⟩ := append_eq_nil_iff.1 hnil.symm
      exact .inl h₁
  · rintro (h | ⟨ha, hb⟩ | h)
    · exact h.trans (sublist_append_left _ _)
    · exact (singleton_sublist.2 ha).append (singleton_sublist.2 hb)
    · exact h.trans (sublist_append_right _ _)

/-- A queue in two stages: the items that entered, those that have been taken, each time together, and
those in the stages. -/
structure Stages (κ : Type*) where
  added : List κ
  taken : List (List κ)
  front : List κ
  back : List κ

open Stages

namespace Stages

/-- The items in the order in which they have been taken and will be, as far as that is known. -/
def all (s : Stages κ) : List κ := s.taken.flatten ++ s.front ++ s.back

/-- The items that have been taken, and those of the front stage. -/
def served (s : Stages κ) : List κ := s.taken.flatten ++ s.front

end Stages

/-- What happens to the queue. -/
inductive Move (marked : κ → Prop) [DecidablePred marked] : Stages κ → Stages κ → Prop
  | enterFront {s : Stages κ} (k : κ) (h : marked k ∨ s.back = []) :
    Move marked s { s with added := s.added ++ [k], front := s.front ++ [k] }
  | enterBack {s : Stages κ} (k : κ) : Move marked s { s with added := s.added ++ [k], back := s.back ++ [k] }
  | advance {s : Stages κ} : Move marked s { s with front := s.front ++ s.back, back := [] }
  | takeAll {s : Stages κ} : Move marked s { s with taken := s.taken ++ [s.front], front := [] }
  | takeFirst {s : Stages κ} (k : κ) (rest : List κ) (h : s.front = k :: rest) (hk : ¬ marked k) :
    Move marked s { s with
      taken := s.taken ++ [k :: rest.filter (marked ·)]
      front := rest.filter (¬ marked ·) }

namespace Move

variable {s s' : Stages κ}

/-- **Nothing is lost or duplicated.** -/
theorem conserved (h : Move marked s s') (hs : s.added.Perm s.all) : s'.added.Perm s'.all := by
  rcases h with ⟨k, -⟩ | ⟨k⟩ | - | - | ⟨k, rest, hf, -⟩
  · refine (hs.append_right [k]).trans ?_
    simp only [Stages.all, append_assoc]
    exact (perm_append_comm.append_left _).append_left _
  · simpa [Stages.all, append_assoc] using hs.append_right [k]
  · simpa [Stages.all, append_assoc] using hs
  · simpa [Stages.all, append_assoc] using hs
  · refine hs.trans ?_
    simp only [Stages.all, hf, flatten_append, flatten_singleton, append_assoc, cons_append]
    refine List.Perm.append_left _ (List.Perm.cons k ?_)
    rw [← append_assoc]
    refine List.Perm.append_right _ ?_
    simpa using (filter_append_perm (marked ·) rest).symm

/-- **Unmarked items are taken in turn.** -/
theorem inTurn (h : Move marked s s') (hs : s.all.filter (¬ marked ·) = s.added.filter (¬ marked ·)) :
    s'.all.filter (¬ marked ·) = s'.added.filter (¬ marked ·) := by
  rcases h with ⟨k, hk⟩ | ⟨k⟩ | - | - | ⟨k, rest, hf, hk⟩
  · rcases hk with hk | hba
    · simpa [Stages.all, filter_append, filter_cons, hk] using hs
    · simp only [Stages.all, hba, append_nil] at hs ⊢
      rw [← append_assoc, filter_append, hs, filter_append]
  · simp only [Stages.all] at hs ⊢
    rw [← append_assoc, filter_append, hs, filter_append]
  · simpa [Stages.all, append_assoc] using hs
  · simpa [Stages.all, append_assoc] using hs
  · rw [← hs]
    simp [Stages.all, hf, filter_append, filter_filter, hk]

/-- **Unmarked items do not overtake marked ones.** -/
theorem precedes (h : Move marked s s') {a b : κ} (ha : marked a) (hb : ¬ marked b)
    (hab : [a, b].Sublist s.served) : [a, b].Sublist s'.served := by
  rcases h with ⟨k, -⟩ | ⟨k⟩ | - | - | ⟨k, rest, hf, hk⟩
  · simp only [served, ← append_assoc]
    exact hab.trans (sublist_append_left _ _)
  · exact hab
  · simp only [served, ← append_assoc]
    exact hab.trans (sublist_append_left _ _)
  · simpa [served] using hab
  · have hse : s.served = s.taken.flatten ++ [k] ++ rest := by
      rw [served, hf, append_assoc, singleton_append]
    have hs' : served { s with
        taken := s.taken ++ [k :: rest.filter (marked ·)]
        front := rest.filter (¬ marked ·) } =
        s.taken.flatten ++ [k] ++ (rest.filter (marked ·) ++ rest.filter (¬ marked ·)) := by
      simp [served]
    rw [hse, pair_sublist_append_iff] at hab
    have hst : b ∈ rest → b ∈ rest.filter (¬ marked ·) := fun hmem =>
      mem_filter.2 ⟨hmem, by simpa using hb⟩
    rw [hs']
    refine pair_sublist_append_iff.2 ?_
    rcases hab with hab | ⟨hmem, hre⟩ | hab
    · exact .inl hab
    · exact .inr (.inl ⟨hmem, mem_append_right _ (hst hre)⟩)
    · -- the marked one is taken, the other one stays
      have hmem := hab.subset
      refine .inr (.inr (pair_sublist_append_iff.2 (.inr (.inl ⟨?_, ?_⟩))))
      · exact mem_filter.2 ⟨hmem mem_cons_self, by simpa using ha⟩
      · exact hst (hmem (mem_cons_of_mem _ mem_cons_self))

end Move

abbrev Moves (marked : κ → Prop) [DecidablePred marked] : Stages κ → Stages κ → Prop :=
  Relation.ReflTransGen (Move marked)

namespace Moves

variable {s s' : Stages κ}

section

variable (h : Moves marked s s')
include h

theorem conserved (hs : s.added.Perm s.all) : s'.added.Perm s'.all := by
  induction h with
  | refl => exact hs
  | tail _ hm ih => exact hm.conserved ih

theorem inTurn (hs : s.all.filter (¬ marked ·) = s.added.filter (¬ marked ·)) :
    s'.all.filter (¬ marked ·) = s'.added.filter (¬ marked ·) := by
  induction h with
  | refl => exact hs
  | tail _ hm ih => exact hm.inTurn ih

theorem precedes {a b : κ} (ha : marked a) (hb : ¬ marked b)
    (hab : [a, b].Sublist s.served) : [a, b].Sublist s'.served := by
  induction h with
  | refl => exact hab
  | tail _ hm ih => exact hm.precedes ha hb ih

/-- An unmarked item that was behind a marked one in the front stage is taken after it. -/
theorem taken_precedes (hn : s'.all.Nodup) {a b : κ} (ha : marked a)
    (hb : ¬ marked b) (hab : [a, b].Sublist s.front) (hta : b ∈ s'.taken.flatten) :
    [a, b].Sublist s'.taken.flatten := by
  have hse := h.precedes ha hb (hab.trans (sublist_append_right s.taken.flatten s.front))
  have hd := disjoint_of_nodup_append (nodup_append.1 hn).1
  rcases pair_sublist_append_iff.1 hse with hab | ⟨-, hf⟩ | hab
  · exact hab
  · exact absurd hf (hd hta)
  · exact absurd (hab.subset (mem_cons_of_mem _ mem_cons_self)) (hd hta)

end

end Moves

end Staged
