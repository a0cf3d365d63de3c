import Mathlib.Data.BitVec

/-!
# Words as sets

A set of at most `w` things as a word of `w` bits: each thing in a list `things` has the bit of its
position, and `mask` is the word with only this bit.  `Has` is membership, read off with a mask as
programs do it, and the lemmas say what the bitwise operations do to the set.
-/

namespace OneHot

open BitVec

variable {ι : Type*} [DecidableEq ι] {w : Nat} (things : List ι)

/-- The word with the bit of one thing, or with none if it is not listed. -/
def mask (w : Nat) (i : ι) : BitVec w := if i ∈ things then 1#w <<< things.idxOf i else 0#w

def Has (m : BitVec w) (i : ι) : Prop := m &&& mask things w i ≠ 0#w
deriving Decidable

variable {things} {m m' : BitVec w} {i j : ι}

theorem mem_of_has (h : Has things m i) : i ∈ things := by
  by_contra hi
  rw [Has, mask, if_neg hi, and_zero] at h
  exact h rfl

theorem not_has_zero : ¬ Has things (0#w) i := by
  rw [Has, zero_and]
  exact fun h => h rfl

/-- A word with a member is not zero. -/
theorem ne_zero_of_has (h : Has things m i) : m ≠ 0#w := by
  rintro rfl
  exact not_has_zero h

variable (hw : things.length ≤ w)
include hw

/-- Membership is one bit. -/
theorem has_iff (hi : i ∈ things) : Has things m i ↔ m.getLsbD (things.idxOf i) = true := by
  have hlt : things.idxOf i < w := lt_of_lt_of_le (List.idxOf_lt_length_iff.2 hi) hw
  rw [Has, mask, if_pos hi, ← twoPow_eq, and_twoPow]
  by_cases hbit : m.getLsbD (things.idxOf i)
  · rw [if_pos hbit]
    refine iff_of_true (fun hzero => ?_) hbit
    have := congrArg (·.getLsbD (things.idxOf i)) hzero
    simp [hlt] at this
  · rw [if_neg hbit]
    exact iff_of_false (fun h => h rfl) hbit

theorem has_or_iff : Has things (m ||| m') i ↔ Has things m i ∨ Has things m' i := by
  by_cases hi : i ∈ things
  · rw [has_iff hw hi, has_iff hw hi, has_iff hw hi, getLsbD_or, Bool.or_eq_true]
  · exact iff_of_false (fun h => hi (mem_of_has h)) fun h => hi (h.elim mem_of_has mem_of_has)

theorem has_mask_iff : Has things (mask things w j) i ↔ i ∈ things ∧ i = j := by
  by_cases hi : i ∈ things
  · have hlt : things.idxOf i < w := lt_of_lt_of_le (List.idxOf_lt_length_iff.2 hi) hw
    rw [has_iff hw hi, mask]
    by_cases hj : j ∈ things
    · rw [if_pos hj, ← twoPow_eq, getLsbD_twoPow, ← List.idxOf_inj hi]
      have hlt' : things.idxOf j < w := lt_of_lt_of_le (List.idxOf_lt_length_iff.2 hj) hw
      simp [hi, hlt', eq_comm]
    · rw [if_neg hj]
      refine iff_of_false (by simp) fun h => hj (h.2 ▸ hi)
  · exact iff_of_false (fun h => hi (mem_of_has h)) fun h => hi h.1

/-- Taking one thing out. -/
theorem has_and_not_mask_iff : Has things (m &&& ~~~mask things w j) i ↔ Has things m i ∧ i ≠ j := by
  by_cases hi : i ∈ things
  · have hlt : things.idxOf i < w := lt_of_lt_of_le (List.idxOf_lt_length_iff.2 hi) hw
    have hm := has_mask_iff hw (i := i) (j := j)
    rw [has_iff hw hi] at hm
    rw [has_iff hw hi, has_iff hw hi, getLsbD_and, getLsbD_not, Bool.and_eq_true]
    simp only [hlt, decide_true, Bool.true_and, Bool.not_eq_true', ← Bool.not_eq_true, hm, hi, true_and, ne_eq]
  · exact iff_of_false (fun h => hi (mem_of_has h)) fun h => hi (mem_of_has h.1)

end OneHot
