import Mathlib.Data.Set.Card
import GuardianCouncil.Lib.MoveToFront

/-!
# Lists in order of a partial rank

Some elements have a rank, and a list holds them all with the highest rank first; it may hold elements that have
none, at any place.  Then the ranked elements that come before a ranked one in the list are those of a higher
rank (`Ranked.lt_iff`).
An element that gets a rank above all others moves to the front (`Ranked.toFront`), and one may lose its rank
anywhere (`Ranked.drop`).
-/

namespace MoveToFront

open List Function

variable {α : Type*} [DecidableEq α] {f : α → Option ℕ} {l : List α} {a b : α} {i m : ℕ}

/-- What comes before `a` in the list. -/
def before (l : List α) (a : α) : List α := l.take (l.idxOf a)

theorem length_before (l : List α) (a : α) : (before l a).length = l.idxOf a :=
  length_take_of_le idxOf_le_length

theorem exists_eq_before_append (ha : a ∈ l) : ∃ r, l = before l a ++ a :: r := by
  refine ⟨l.drop (l.idxOf a + 1), ?_⟩
  have hlt := idxOf_lt_length_iff.2 ha
  conv_lhs => rw [← take_append_drop (l.idxOf a) l, drop_eq_getElem_cons hlt, getElem_idxOf hlt]
  rfl

structure Ranked (f : α → Option ℕ) (l : List α) : Prop where
  nodup : l.Nodup
  mem : ∀ a, f a ≠ none → a ∈ l
  desc : l.Pairwise fun a b => ∀ i i', f a = some i → f b = some i' → i' < i

theorem Ranked.nil : Ranked (fun _ : α => none) [] := ⟨.nil, fun _ h => absurd rfl h, .nil⟩

section

variable (h : Ranked f l)
include h

/-- The elements of a higher rank are those that come before. -/
theorem Ranked.lt_iff (ha : f a = some i) (b : α) : (∃ j, f b = some j ∧ i < j) ↔ b ∈ before l a ∧ f b ≠ none := by
  have hmem : a ∈ l := h.mem a (by simp [ha])
  obtain ⟨r, hr⟩ := exists_eq_before_append hmem
  have hd := h.desc
  rw [hr, pairwise_append, pairwise_cons] at hd
  obtain ⟨-, ⟨haf, -⟩, hbe⟩ := hd
  constructor
  · rintro ⟨j, hj, hij⟩
    refine ⟨?_, by simp [hj]⟩
    have hb : b ∈ l := h.mem b (by simp [hj])
    rw [hr, mem_append, mem_cons] at hb
    rcases hb with hb | rfl | hb
    · exact hb
    · rw [ha] at hj
      cases hj
      exact absurd hij (lt_irrefl _)
    · exact absurd (haf b hb i j ha hj) (by omega)
  · rintro ⟨hb, hne⟩
    obtain ⟨j, hj⟩ := Option.ne_none_iff_exists'.1 hne
    exact ⟨j, hj, hbe b hb a mem_cons_self j i hj ha⟩

theorem Ranked.nodup_before (a : α) : (before l a).Nodup :=
  h.nodup.sublist (take_sublist _ _)

/-- There are as many elements of a higher rank as ranked elements that come before. -/
theorem Ranked.ncard_lt (ha : f a = some i) :
    {b | ∃ j, f b = some j ∧ i < j}.ncard = (before l a).countP fun b => (f b).isSome := by
  have hset : {b | ∃ j, f b = some j ∧ i < j} = (((before l a).filter fun b => (f b).isSome).toFinset : Set α) := by
    ext b
    rw [Set.mem_ofPred_eq, h.lt_iff ha b, Finset.mem_coe, mem_toFinset, mem_filter, Option.isSome_iff_ne_none]
  rw [hset, Set.ncard_coe_finset, toFinset_card_of_nodup ((h.nodup_before a).filter _), countP_eq_length_filter]

/-- And as many higher ranks. -/
theorem Ranked.card_lt {S : Finset ℕ} (hS : ∀ j, j ∈ S ↔ ∃ b, f b = some j) (ha : f a = some i) :
    (S.filter (i < ·)).card = (before l a).countP fun b => (f b).isSome := by
  have hset : S.filter (i < ·) = ((before l a).filterMap f).toFinset := by
    ext j
    rw [Finset.mem_filter, hS, mem_toFinset, mem_filterMap]
    constructor
    · rintro ⟨⟨b, hb⟩, hij⟩
      exact ⟨b, ((h.lt_iff ha b).1 ⟨j, hb, hij⟩).1, hb⟩
    · rintro ⟨b, hmem, hb⟩
      obtain ⟨j', hb', hij⟩ := (h.lt_iff ha b).2 ⟨hmem, by simp [hb]⟩
      rw [hb] at hb'
      cases hb'
      exact ⟨⟨b, hb⟩, hij⟩
  have hn : ((before l a).filterMap f).Nodup := by
    rw [List.Nodup, pairwise_filterMap]
    refine (h.desc.sublist (take_sublist _ _)).imp fun hlt j hj j' hj' => ?_
    exact (hlt j j' hj hj').ne'
  rw [hset, toFinset_card_of_nodup hn, length_filterMap_eq_countP]

theorem Ranked.toFront (hm : ∀ b i, f b = some i → i < m) (a : α) : Ranked (update f a (some m)) (toFront l a) := by
  refine ⟨?_, fun b hb => ?_, pairwise_toFront h.desc h.nodup ?_ ?_⟩
  · exact nodup_cons.2 ⟨h.nodup.not_mem_erase, h.nodup.erase a⟩
  · by_cases hba : b = a
    · exact hba ▸ mem_cons_self
    · rw [update_of_ne hba] at hb
      exact mem_cons_of_mem _ ((mem_erase_of_ne hba).2 (h.mem b hb))
  · intro b _ c _ hb hc hlt i j
    rw [update_of_ne hb, update_of_ne hc]
    exact hlt i j
  · intro b _ hb i j hi hj
    rw [update_self] at hi
    rw [update_of_ne hb] at hj
    cases hi
    exact hm b j hj

theorem Ranked.drop (a : α) : Ranked (update f a none) l := by
  have hold : ∀ b i, update f a none b = some i → f b = some i := by
    intro b i hb
    by_cases hba : b = a
    · rw [hba, update_self] at hb
      cases hb
    · rwa [update_of_ne hba] at hb
  refine ⟨h.nodup, fun b hb => ?_, h.desc.imp fun hlt i j hi hj => hlt i j (hold _ _ hi) (hold _ _ hj)⟩
  obtain ⟨i, hi⟩ := Option.ne_none_iff_exists'.1 hb
  exact h.mem b (by rw [hold b i hi]; simp)

end

end MoveToFront
