import Mathlib.Data.Nat.Bitwise

/-!
# Rotating the bits of a number

`rotl w n x` rotates the `w` bits of `x` by `n`, with a shift to the left, a mask, a shift to the right, and an addition.
The upper `n` bits and the others change places (`rotl_mul_add`), so nothing is lost: rotating by `w - n` undoes it.
-/

namespace BitRotation

variable {w n x y : ℕ}

def rotl (w n x : ℕ) : ℕ := ((x <<< n) &&& (2 ^ w - 1)) + (x >>> (w - n))

theorem rotl_mul_add {q r : ℕ} (hn : n ≤ w) (hr : r < 2 ^ (w - n)) : rotl w n (q * 2 ^ (w - n) + r) = r * 2 ^ n + q := by
  have hpow : 2 ^ (w - n) * 2 ^ n = 2 ^ w := by rw [← pow_add, Nat.sub_add_cancel hn]
  have hlow : ((q * 2 ^ (w - n) + r) <<< n) &&& (2 ^ w - 1) = r * 2 ^ n := by
    have hlt : r * 2 ^ n < 2 ^ w := by
      rw [← hpow]
      exact Nat.mul_lt_mul_of_pos_right hr (Nat.two_pow_pos n)
    rw [Nat.shiftLeft_eq, Nat.and_two_pow_sub_one_eq_mod, Nat.add_mul, Nat.mul_assoc, hpow, Nat.add_comm,
      Nat.add_mul_mod_self_right, Nat.mod_eq_of_lt hlt]
  have hhigh : (q * 2 ^ (w - n) + r) >>> (w - n) = q := by
    rw [Nat.shiftRight_eq_div_pow, Nat.add_comm, Nat.add_mul_div_right _ _ (Nat.two_pow_pos _), Nat.div_eq_of_lt hr,
      Nat.zero_add]
  rw [rotl, hlow, hhigh]

/-- A number is its upper bits and its lower bits. -/
theorem exists_eq_mul_add (hn : n ≤ w) (hx : x < 2 ^ w) : ∃ q r, q < 2 ^ n ∧ r < 2 ^ (w - n) ∧ x = q * 2 ^ (w - n) + r := by
  refine ⟨x / 2 ^ (w - n), x % 2 ^ (w - n), ?_, Nat.mod_lt _ (Nat.two_pow_pos _), ?_⟩
  · rw [Nat.div_lt_iff_lt_mul (Nat.two_pow_pos _), ← pow_add, Nat.add_sub_cancel' hn]
    exact hx
  · rw [mul_comm]
    exact (Nat.div_add_mod x _).symm

theorem rotl_lt (hn : n ≤ w) (hx : x < 2 ^ w) : rotl w n x < 2 ^ w := by
  obtain ⟨q, r, hq, hr, rfl⟩ := exists_eq_mul_add hn hx
  have hpow : 2 ^ (w - n) * 2 ^ n = 2 ^ w := by rw [← pow_add, Nat.sub_add_cancel hn]
  rw [rotl_mul_add hn hr]
  calc r * 2 ^ n + q < (r + 1) * 2 ^ n := by rw [Nat.add_mul, one_mul]; omega
    _ ≤ 2 ^ (w - n) * 2 ^ n := Nat.mul_le_mul_right _ hr
    _ = 2 ^ w := hpow

theorem rotl_rotl (hn : n ≤ w) (hx : x < 2 ^ w) : rotl w (w - n) (rotl w n x) = x := by
  obtain ⟨q, r, hq, hr, rfl⟩ := exists_eq_mul_add hn hx
  have hba : w - (w - n) = n := Nat.sub_sub_self hn
  have := rotl_mul_add (w := w) (n := w - n) (q := r) (r := q) (Nat.sub_le w n) (by rwa [hba])
  rw [hba] at this
  rw [rotl_mul_add hn hr, this]

theorem rotl_injOn (hn : n ≤ w) (hx : x < 2 ^ w) (hy : y < 2 ^ w) (h : rotl w n x = rotl w n y) : x = y := by
  rw [← rotl_rotl hn hx, h, rotl_rotl hn hy]

end BitRotation
