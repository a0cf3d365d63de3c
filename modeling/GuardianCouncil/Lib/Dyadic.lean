import Mathlib.Order.Interval.Finset.Nat
import Mathlib.Tactic.Ring

/-!
# Counting in dyadic blocks

The numbers are divided into blocks of length `2 ^ l`, for every level `l`; block `k` of level `l + 1` is made
of the blocks `2 * k` and `2 * k + 1` of level `l`.  `count S l k` is the number of elements of a finite set
in a block.  The number of elements above a given one adds up level by level on the way to the top: a
block that is a left half adds its sibling (`above_succ`).

A block is *spent* when all of its numbers have been used and none is left in the set.
-/

namespace Dyadic

open Finset

variable {S T : Finset ℕ} {j l k n : ℕ}

/-- How many elements of `S` are in block `k` of level `l`. -/
def count (S : Finset ℕ) (l k : ℕ) : ℕ := (S.filter fun x => x / 2 ^ l = k).card

/-- How many elements of `S` are above `j`, in the block of `j` of level `l`. -/
def above (S : Finset ℕ) (j l : ℕ) : ℕ := (S.filter fun x => j < x ∧ x / 2 ^ l = j / 2 ^ l).card

theorem div_two_pow_succ (x l : ℕ) : x / 2 ^ (l + 1) = x / 2 ^ l / 2 := by
  rw [pow_succ, Nat.div_div_eq_div_mul]

theorem count_succ (S : Finset ℕ) (l k : ℕ) : count S (l + 1) k = count S l (2 * k) + count S l (2 * k + 1) := by
  have hsp : S.filter (fun x => x / 2 ^ (l + 1) = k) =
      S.filter (fun x => x / 2 ^ l = 2 * k) ∪ S.filter (fun x => x / 2 ^ l = 2 * k + 1) := by
    rw [← filter_or]
    refine filter_congr fun x _ => ?_
    rw [div_two_pow_succ]
    omega
  rw [count, hsp, card_union_of_disjoint, count, count]
  refine disjoint_filter.2 fun x _ h h' => ?_
  omega

/-- Blocks without `j` do not see a change at `j`. -/
theorem count_congr (h : ∀ x, x ≠ j → (x ∈ S ↔ x ∈ T)) (hk : k ≠ j / 2 ^ l) : count S l k = count T l k := by
  refine congrArg Finset.card (Finset.ext fun x => ?_)
  rw [mem_filter, mem_filter]
  refine and_congr_left fun hx => h x ?_
  rintro rfl
  exact hk hx.symm

theorem count_le (S : Finset ℕ) (l k : ℕ) : count S l k ≤ 2 ^ l := by
  have hsub : S.filter (fun x => x / 2 ^ l = k) ⊆ Finset.Ico (k * 2 ^ l) (k * 2 ^ l + 2 ^ l) := by
    intro x hx
    have hx := (mem_filter.1 hx).2
    have hpos : 0 < 2 ^ l := Nat.two_pow_pos l
    rw [Nat.div_eq_iff hpos] at hx
    rw [mem_Ico]
    omega
  calc count S l k ≤ (Finset.Ico (k * 2 ^ l) (k * 2 ^ l + 2 ^ l)).card := card_le_card hsub
    _ = 2 ^ l := by rw [Nat.card_Ico, Nat.add_sub_cancel_left]

theorem count_eq_zero (hS : ∀ x ∈ S, x < n) (hn : n ≤ k * 2 ^ l) : count S l k = 0 := by
  rw [count, card_eq_zero, filter_eq_empty_iff]
  intro x hx hk
  have hlt := hS x hx
  have hle := Nat.div_mul_le_self x (2 ^ l)
  rw [hk] at hle
  omega

theorem count_pos (hj : j ∈ S) (l : ℕ) : 0 < count S l (j / 2 ^ l) :=
  card_pos.2 ⟨j, mem_filter.2 ⟨hj, rfl⟩⟩

theorem count_zero (S : Finset ℕ) (k : ℕ) : count S 0 k = if k ∈ S then 1 else 0 := by
  rw [count]
  split_ifs with hk
  · refine card_eq_one.2 ⟨k, Finset.ext fun x => ?_⟩
    rw [mem_filter, pow_zero, Nat.div_one, mem_singleton]
    exact ⟨And.right, fun hx => ⟨hx ▸ hk, hx⟩⟩
  · rw [card_eq_zero, filter_eq_empty_iff]
    intro x hx hxk
    rw [pow_zero, Nat.div_one] at hxk
    exact hk (hxk ▸ hx)

theorem above_zero (S : Finset ℕ) (j : ℕ) : above S j 0 = 0 := by
  rw [above, card_eq_zero, filter_eq_empty_iff]
  rintro x _ ⟨hlt, heq⟩
  rw [pow_zero, Nat.div_one, Nat.div_one] at heq
  omega

/-- The way up to the next block: a left half adds its sibling. -/
theorem above_succ (S : Finset ℕ) (j l : ℕ) : above S j (l + 1) =
      above S j l + if j / 2 ^ l % 2 = 0 then count S l (j / 2 ^ l + 1) else 0 := by
  have hm : ∀ x y : ℕ, x ≤ y → x / 2 ^ l ≤ y / 2 ^ l := fun x y h => Nat.div_le_div_right h
  split_ifs with hev
  · have hsp : S.filter (fun x => j < x ∧ x / 2 ^ (l + 1) = j / 2 ^ (l + 1)) =
        S.filter (fun x => j < x ∧ x / 2 ^ l = j / 2 ^ l) ∪
          S.filter (fun x => x / 2 ^ l = j / 2 ^ l + 1) := by
      rw [← filter_or]
      refine filter_congr fun x _ => ?_
      rw [div_two_pow_succ, div_two_pow_succ]
      have hx := hm x j
      omega
    rw [above, hsp, card_union_of_disjoint, above, count]
    refine disjoint_filter.2 fun x _ h h' => ?_
    omega
  · refine congrArg Finset.card (filter_congr fun x _ => ?_)
    rw [div_two_pow_succ, div_two_pow_succ]
    have hx := hm j x
    omega

theorem above_top {d : ℕ} (hS : ∀ x ∈ S, x < 2 ^ d) (hj : j < 2 ^ d) : above S j d = (S.filter (j < ·)).card := by
  refine congrArg Finset.card (filter_congr fun x hx => ?_)
  rw [Nat.div_eq_of_lt (hS x hx), Nat.div_eq_of_lt hj]
  simp

/-- All numbers of the block are below `n`, and none of them is in `S`. -/
def Spent (n : ℕ) (S : Finset ℕ) (l k : ℕ) : Prop := (k + 1) * 2 ^ l ≤ n ∧ count S l k = 0

theorem Spent.join (h : Spent n S l (2 * k)) (h' : Spent n S l (2 * k + 1)) : Spent n S (l + 1) k := by
  refine ⟨?_, ?_⟩
  · calc (k + 1) * 2 ^ (l + 1) = (2 * k + 1 + 1) * 2 ^ l := by ring
      _ ≤ n := h'.1
  · rw [count_succ, h.2, h'.2]

theorem Spent.mono {m : ℕ} (h : Spent n S l k) (hnm : n ≤ m) : Spent m S l k := ⟨h.1.trans hnm, h.2⟩

theorem Spent.subset (h : Spent n S l k) (hsub : T ⊆ S) : Spent n T l k :=
  ⟨h.1, Nat.le_zero.1 (h.2 ▸ card_le_card (filter_subset_filter _ hsub))⟩

theorem not_spent_of_le (hj : n ≤ j) (l : ℕ) : ¬ Spent n S l (j / 2 ^ l) := by
  intro h
  have hlt := Nat.lt_div_mul_add (a := j) (Nat.two_pow_pos l)
  have hle := h.1
  rw [Nat.add_mul, Nat.one_mul] at hle
  omega

/-- A number that comes later does not go to a block that is spent. -/
theorem Spent.insert (h : Spent n S l k) (hj : n ≤ j) : Spent n (Insert.insert j S) l k := by
  refine ⟨h.1, ?_⟩
  rw [← h.2]
  refine count_congr (j := j) (fun x hx => ?_) ?_
  · rw [mem_insert]
    exact ⟨fun hx' => hx'.resolve_left hx, Or.inr⟩
  · rintro rfl
    exact not_spent_of_le hj l h

theorem not_spent_of_mem (hj : j ∈ S) (l : ℕ) : ¬ Spent n S l (j / 2 ^ l) :=
  fun h => ne_of_gt (count_pos hj l) h.2

end Dyadic
