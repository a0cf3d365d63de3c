import Mathlib.Data.List.Nodup

/-!
# A few slots in front of a table

The slots hold entries of a table, so that the last few need not be looked up again; a slot that holds
nothing is `none`.  A new entry is pushed in at the front and the last slot falls out.  `erase` empties
the first slot for a key, and *only* the first: it is enough as long as no key has two slots, and that
is half of `Coherent`.  The other half is that what a slot holds is what the table has.
-/

namespace FrontCache

open List Function

variable {κ υ : Type*}

/-- The slots, front first. -/
abbrev Slots (κ υ : Type*) := List (Option (κ × υ))

section

variable [DecidableEq κ]

def holds (k : κ) : Option (κ × υ) → Bool
  | none => false
  | some (k', _) => k' = k

/-- The first slot for a key. -/
def find (k : κ) (c : Slots κ υ) : Option υ :=
  c.findSome? fun slot => if holds k slot then slot.map Prod.snd else none

def push (k : κ) (v : υ) (c : Slots κ υ) : Slots κ υ := some (k, v) :: c.dropLast

def erase (k : κ) : Slots κ υ → Slots κ υ
  | [] => []
  | slot :: c => if holds k slot then none :: c else slot :: erase k c

end

/-- The keys that have a slot, with repetitions. -/
def keys (c : Slots κ υ) : List κ := c.filterMap fun slot => slot.map Prod.fst

/-- The slots agree with the table, and no key has two of them. -/
structure Coherent (table : κ → Option υ) (c : Slots κ υ) : Prop where
  agrees : ∀ k v, some (k, v) ∈ c → table k = some v
  nodup : (keys c).Nodup

variable {table : κ → Option υ} {c : Slots κ υ} {k k' : κ} {v : υ}

theorem mem_keys : k ∈ keys c ↔ ∃ v, some (k, v) ∈ c := by
  simp [keys]

theorem keys_cons (slot : Option (κ × υ)) : keys (slot :: c) = (slot.map Prod.fst).toList ++ keys c := by
  cases slot <;> rfl

theorem keys_dropLast_sublist : (keys c.dropLast).Sublist (keys c) :=
  (dropLast_sublist c).filterMap _

theorem Coherent.dropLast (h : Coherent table c) : Coherent table c.dropLast where
  agrees k v hmem := h.agrees k v ((dropLast_sublist c).mem hmem)
  nodup := h.nodup.sublist keys_dropLast_sublist

/-- An entry of the table is pushed in.  The slot that falls out need not have been coherent. -/
theorem Coherent.push (h : Coherent table c.dropLast) (hk : k ∉ keys c.dropLast)
    (hv : table k = some v) : Coherent table (FrontCache.push k v c) where
  agrees k' v' hmem := by
    rcases mem_cons.1 hmem with heq | hmem
    · cases heq
      exact hv
    · exact h.agrees k' v' hmem
  nodup := by
    rw [FrontCache.push, keys_cons]
    exact nodup_cons.2 ⟨hk, h.nodup⟩

theorem length_push (hc : 0 < c.length) : (FrontCache.push k v c).length = c.length := by
  rw [FrontCache.push, length_cons, length_dropLast]
  omega

/-- The slots in front after a new entry: it, and those in front before, less one. -/
theorem mem_keys_take_push {n : Nat} (h : k' ∈ keys ((FrontCache.push k v c).take (n + 1))) :
    k' = k ∨ k' ∈ keys (c.take n) := by
  rw [FrontCache.push, take_succ_cons, keys_cons] at h
  refine (mem_append.1 h).imp (by simp) fun hmem => ?_
  rw [dropLast_eq_take, take_take] at hmem
  exact ((take_sublist_take_left (Nat.min_le_left ..)).filterMap _).mem hmem

section

variable [DecidableEq κ]

theorem keys_erase_sublist : (keys (erase k c)).Sublist (keys c) := by
  induction c with
  | nil => exact List.Sublist.refl _
  | cons slot c ih =>
    rw [erase]
    split
    · rw [keys_cons, keys_cons]
      exact sublist_append_right _ _
    · rw [keys_cons, keys_cons]
      exact ih.append_left _

theorem mem_of_mem_erase {slot : κ × υ} (h : some slot ∈ erase k c) : some slot ∈ c := by
  induction c with
  | nil => exact h
  | cons first c ih =>
    rw [erase] at h
    split at h
    · rcases mem_cons.1 h with h | h
      · cases h
      · exact mem_cons_of_mem _ h
    · rcases mem_cons.1 h with h | h
      · exact h ▸ mem_cons_self
      · exact mem_cons_of_mem _ (ih h)

/-- Without repetitions, emptying the first slot of a key is enough. -/
theorem not_mem_keys_erase (h : (keys c).Nodup) : k ∉ keys (erase k c) := by
  induction c with
  | nil => exact not_mem_nil
  | cons slot c ih =>
    rw [keys_cons, nodup_append] at h
    rw [erase]
    rcases slot with - | ⟨k', v⟩
    · simpa [holds, keys_cons] using ih h.2.1
    · by_cases hk : k' = k
      · subst hk
        simpa [holds, keys_cons] using fun hmem => h.2.2 k' (by simp) k' hmem rfl
      · simpa [holds, keys_cons, hk, Ne.symm hk] using ih h.2.1

theorem find_eq_some (h : find k c = some v) : some (k, v) ∈ c := by
  obtain ⟨slot, hsl, hv⟩ := exists_of_findSome?_eq_some h
  rcases slot with - | ⟨k', v'⟩
  · simp [holds] at hv
  simp only [holds, decide_eq_true_eq, Option.map_some] at hv
  split at hv
  · rename_i hk
    cases hv
    exact hk ▸ hsl
  · cases hv

theorem find_eq_none (h : find k c = none) : k ∉ keys c := by
  rw [mem_keys]
  rintro ⟨v, hmem⟩
  have := findSome?_eq_none_iff.1 h _ hmem
  simp [holds] at this

namespace Coherent

theorem find_eq (h : Coherent table c) (hf : find k c = some v) : table k = some v :=
  h.agrees k v (find_eq_some hf)

theorem erase (h : Coherent table c) (k : κ) : Coherent table (erase k c) where
  agrees k' v hmem := h.agrees k' v (mem_of_mem_erase hmem)
  nodup := h.nodup.sublist keys_erase_sublist

/-- The table changes at a key that has no slot. -/
theorem update (h : Coherent table c) (hk : k ∉ keys c) (e : Option υ) : Coherent (update table k e) c where
  agrees k' v hmem := by
    have hne : k' ≠ k := fun heq => hk (mem_keys.2 ⟨v, heq ▸ hmem⟩)
    rw [update_of_ne hne]
    exact h.agrees k' v hmem
  nodup := h.nodup

end Coherent

theorem length_erase : (erase k c).length = c.length := by
  induction c with
  | nil => rfl
  | cons slot c ih =>
    rw [erase]
    split
    · rfl
    · rw [length_cons, ih, length_cons]

/-- Erasing adds no key to the slots in front. -/
theorem mem_keys_take_erase {n : Nat} (h : k' ∈ keys ((erase k c).take n)) : k' ∈ keys (c.take n) := by
  induction c generalizing n with
  | nil => exact h
  | cons slot c ih =>
    rcases n with - | n
    · exact h
    rw [erase] at h
    rw [take_succ_cons, keys_cons]
    split at h
    · exact mem_append_right _ h
    · rw [take_succ_cons, keys_cons] at h
      exact (mem_append.1 h).elim (mem_append_left _) fun h => mem_append_right _ (ih h)

end

end FrontCache
