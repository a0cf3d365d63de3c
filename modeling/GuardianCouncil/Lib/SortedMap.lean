import Mathlib.Data.List.TakeWhile

/-!
# A sorted list as an ordered map

The elements are sorted by a transitive relation `lt`, which decides only what may stand before what:
two elements that it does not tell apart count as the same key.  A place in the list is given by the
property `p` of coming after it, and `below p l` and `above p l` are the elements without and with it.
-/

namespace SortedMap

open List

variable {α : Type*}

/-- The elements in front of a place. -/
def below (p : α → Bool) (l : List α) : List α := l.takeWhile fun x => !p x

/-- The elements from a place on. -/
def above (p : α → Bool) (l : List α) : List α := l.dropWhile fun x => !p x

variable (lt : α → α → Bool)

/-- A new element is put at its upper bound, unless there is one with the same key. -/
def insert (x : α) (l : List α) : List α :=
  if (below (lt x) l).getLast?.any fun y => !lt y x then l
  else below (lt x) l ++ x :: above (lt x) l

def Sorted (l : List α) : Prop := l.Pairwise fun x y => lt x y = true

/-- What comes after an element with the property has it too. -/
def Upward (p : α → Bool) : Prop := ∀ x y, lt x y = true → p x = true → p y = true

variable {lt} {p : α → Bool} {x : α} {l : List α}

theorem below_append_above : below p l ++ above p l = l := takeWhile_append_dropWhile

theorem of_mem_above (hp : Upward lt p) (hl : Sorted lt l) (hx : x ∈ above p l) : p x = true := by
  induction l with
  | nil => cases hx
  | cons y l ih =>
    rw [above, dropWhile_cons] at hx
    split_ifs at hx with hy
    · exact ih (List.Pairwise.of_cons hl) hx
    · have hy : p y = true := by simpa using hy
      rcases mem_cons.1 hx with rfl | hx
      · exact hy
      · exact hp y x (rel_of_pairwise_cons hl hx) hy

theorem mem_below (hp : Upward lt p) (hl : Sorted lt l) : x ∈ below p l ↔ x ∈ l ∧ p x = false := by
  constructor
  · intro hx
    exact ⟨(takeWhile_sublist _).mem hx, by simpa using mem_takeWhile_imp hx⟩
  · rintro ⟨hx, hpx⟩
    have hsp : x ∈ below p l ++ above p l := by rwa [below_append_above]
    rcases mem_append.1 hsp with hx | hx
    · exact hx
    · rw [of_mem_above hp hl hx] at hpx
      cases hpx

theorem mem_insert {y : α} (hy : y ∈ insert lt x l) : y = x ∨ y ∈ l := by
  rw [insert] at hy
  split at hy
  · exact .inr hy
  · rcases mem_append.1 hy with hy | hy
    · exact .inr ((takeWhile_sublist _).mem hy)
    · exact (mem_cons.1 hy).imp_right (dropWhile_sublist _).mem

/-- A new element keeps the list sorted. -/
theorem sorted_insert (htr : ∀ x y z, lt x y = true → lt y z = true → lt x z = true)
    (hl : Sorted lt l) : Sorted lt (insert lt x l) := by
  rw [insert]
  split_ifs with hnew
  · exact hl
  have hup : Upward lt (lt x) := fun y z hyz hxy => htr x y z hxy hyz
  have hbe : Sorted lt (below (lt x) l) := hl.sublist (takeWhile_sublist _)
  have ha : Sorted lt (above (lt x) l) := hl.sublist (dropWhile_sublist _)
  -- the last element in front is of another key, and the others come before it
  have hbef : ∀ y ∈ below (lt x) l, lt y x = true := by
    intro y hy
    rcases eq_nil_or_concat (below (lt x) l) with hnil | ⟨front, last, hco⟩
    · rw [hnil] at hy
      cases hy
    rw [concat_eq_append] at hco
    have hla : lt last x = true := by simpa [hco] using hnew
    rw [hco] at hy hbe
    rcases mem_append.1 hy with hy | hy
    · exact htr _ _ _ ((pairwise_append.1 hbe).2.2 y hy last (by simp)) hla
    · rwa [mem_singleton.1 hy]
  refine pairwise_append.2 ⟨hbe, pairwise_cons.2 ⟨?_, ha⟩, ?_⟩
  · exact fun y hy => of_mem_above hup hl hy
  · intro y hy z hz
    rcases mem_cons.1 hz with rfl | hz
    · exact hbef y hy
    · exact htr _ _ _ (hbef y hy) (of_mem_above hup hl hz)

end SortedMap
