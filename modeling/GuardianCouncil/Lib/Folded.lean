import Mathlib.Data.Nat.Bitwise

/-!
# Folding a long history into a short register

`fold len h n` is the exclusive or of the first `n` bits of a history `h`, the bit at `i` shifted to position `i % len`.
When a new bit comes in at the front and the bit at `n` leaves, the register need not be computed anew: it is shifted by
one, what leaves at the top comes in at the bottom (`wrap`), the new bit is put in and the old one is taken out
(`wrap_update`).
-/

namespace Folded

open BitVec

variable {w n len : ℕ}

/-! ## Exclusive or of a sequence -/

def xorSum (f : ℕ → BitVec w) : ℕ → BitVec w
  | 0 => 0#w
  | n + 1 => xorSum f n ^^^ f n

theorem xorSum_congr {f g : ℕ → BitVec w} (h : ∀ i < n, f i = g i) : xorSum f n = xorSum g n := by
  induction n with
  | zero => rfl
  | succ n ih => rw [xorSum, xorSum, ih fun i hi => h i (Nat.lt_succ_of_lt hi), h n (Nat.lt_succ_self n)]

theorem xorSum_succ_left (f : ℕ → BitVec w) (n : ℕ) : xorSum f (n + 1) = f 0 ^^^ xorSum (fun i => f (i + 1)) n := by
  induction n with
  | zero => rw [xorSum, xorSum, xorSum, zero_xor, BitVec.xor_zero]
  | succ n ih => rw [xorSum, ih, xorSum, BitVec.xor_assoc]

/-- An additive function goes through. -/
theorem map_xorSum {φ : BitVec w → BitVec w} (h0 : φ 0#w = 0#w) (hφ : ∀ x y, φ (x ^^^ y) = φ x ^^^ φ y)
    (f : ℕ → BitVec w) (n : ℕ) : φ (xorSum f n) = xorSum (fun i => φ (f i)) n := by
  induction n with
  | zero => exact h0
  | succ n ih => rw [xorSum, hφ, ih, xorSum]

/-! ## Single bits -/

def bit (w : ℕ) (b : Bool) : BitVec w := if b then 1#w else 0#w

theorem getLsbD_bit_shiftLeft (b : Bool) (j k : ℕ) :
    (bit w b <<< j).getLsbD k = (decide (k < w) && (decide (k = j) && b)) := by
  cases b with
  | false => simp [bit]
  | true =>
    simp only [bit, if_true, getLsbD_shiftLeft, getLsbD_one, Bool.and_true]
    by_cases hk : k < w
    · by_cases hj : k = j
      · subst hj
        simp [hk, Nat.zero_lt_of_lt hk]
      · have : k < j ∨ ¬ k < j ∧ k - j ≠ 0 := by omega
        rcases this with hlt | ⟨hlt, hne⟩
        · simp [hk, hj, hlt]
        · simp [hk, hj, hlt, hne]
    · simp [hk]

/-- What is beyond `len` bits comes in at the bottom. -/
def wrap (len : ℕ) (x : BitVec w) : BitVec w := (x ^^^ x >>> len) &&& BitVec.ofNat w (2 ^ len - 1)

theorem getLsbD_wrap (x : BitVec w) (k : ℕ) :
    (wrap len x).getLsbD k = ((x.getLsbD k ^^ x.getLsbD (len + k)) && (decide (k < w) && decide (k < len))) := by
  rw [wrap, getLsbD_and, getLsbD_xor, getLsbD_ushiftRight, getLsbD_ofNat, Nat.testBit_two_pow_sub_one]

theorem wrap_zero : wrap len 0#w = 0#w := by simp [wrap]

theorem wrap_xor (x y : BitVec w) : wrap len (x ^^^ y) = wrap len x ^^^ wrap len y := by
  refine eq_of_getLsbD_eq fun k _ => ?_
  simp only [getLsbD_xor, getLsbD_wrap]
  cases x.getLsbD k <;> cases y.getLsbD k <;> cases x.getLsbD (len + k) <;> cases y.getLsbD (len + k) <;>
    cases decide (k < w) && decide (k < len) <;> rfl

theorem wrap_bit {j : ℕ} (hj : j < len) (b : Bool) : wrap len (bit w b <<< j) = bit w b <<< j := by
  refine eq_of_getLsbD_eq fun k hk => ?_
  rw [getLsbD_wrap, getLsbD_bit_shiftLeft, getLsbD_bit_shiftLeft]
  have hne : len + k ≠ j := by omega
  by_cases hkj : k = j
  · subst hkj
    have hpos : len ≠ 0 := by omega
    simp [hk, hpos, hj]
  · simp [hkj, hne]

theorem wrap_bit_len (hpos : 0 < len) (hlen : len < w) (b : Bool) : wrap len (bit w b <<< len) = bit w b <<< 0 := by
  refine eq_of_getLsbD_eq fun k hk => ?_
  rw [getLsbD_wrap, getLsbD_bit_shiftLeft, getLsbD_bit_shiftLeft, getLsbD_bit_shiftLeft]
  by_cases hk0 : k = 0
  · subst hk0
    simp [hk, hpos, hlen, hpos.ne]
  · by_cases hkl : k = len
    · subst hkl
      simp [hk0]
    · simp [hk0, hkl]

/-! ## Folding -/

def fold (w len : ℕ) (h : ℕ → Bool) (n : ℕ) : BitVec w := xorSum (fun i => bit w (h i) <<< (i % len)) n

theorem fold_congr {h h' : ℕ → Bool} (heq : ∀ i < n, h i = h' i) : fold w len h n = fold w len h' n :=
  xorSum_congr fun i hi => by rw [heq i hi]

/-- All bits move up by one. -/
theorem wrap_fold_shiftLeft (hpos : 0 < len) (hlen : len < w) (h : ℕ → Bool) :
    wrap len (fold w len h n <<< 1) = xorSum (fun i => bit w (h i) <<< ((i + 1) % len)) n := by
  rw [fold, map_xorSum (φ := fun x => wrap len (x <<< 1)) (by simp [wrap_zero])
    (fun x y => by rw [shiftLeft_xor_distrib, wrap_xor])]
  refine xorSum_congr fun i _ => ?_
  have hi := Nat.mod_lt i hpos
  rw [← shiftLeft_add]
  by_cases hla : i % len + 1 = len
  · have hmod : (i + 1) % len = 0 := by
      rw [Nat.add_mod_eq_add_mod_right 1 (Nat.mod_mod i len).symm, hla, Nat.mod_self]
    rw [hla, hmod, wrap_bit_len hpos hlen]
  · have hmod : (i + 1) % len = i % len + 1 := by
      rw [Nat.add_mod_eq_add_mod_right 1 (Nat.mod_mod i len).symm, Nat.mod_eq_of_lt (by omega)]
    rw [hmod, wrap_bit (by omega)]

/-- A new bit at the front is put in by an inclusive or, since its place is empty. -/
theorem shiftLeft_or_bit (x : BitVec w) (b : Bool) : x <<< 1 ||| bit w b = x <<< 1 ^^^ bit w b <<< 0 := by
  refine eq_of_getLsbD_eq fun k hk => ?_
  rw [shiftLeft_zero, getLsbD_or, getLsbD_xor]
  have hbit : (bit w b).getLsbD k = (decide (k < w) && (decide (k = 0) && b)) := by
    rw [← getLsbD_bit_shiftLeft, shiftLeft_zero]
  rw [hbit, getLsbD_shiftLeft]
  by_cases hk0 : k = 0
  · simp [hk0]
  · simp [hk0]

/-- **The register after a new bit has come in at the front of the history.** -/
theorem wrap_update {len : ℕ} (hpos : 0 < len) (hlen : len < w) {h h' : ℕ → Bool} (hsh : ∀ i < n, h' (i + 1) = h i) :
    wrap len ((fold w len h n <<< 1 ||| bit w (h' 0)) ^^^ bit w (h' n) <<< (n % len)) = fold w len h' n := by
  let g : ℕ → BitVec w := fun i => bit w (h' i) <<< (i % len)
  have hm : xorSum (fun i => bit w (h i) <<< ((i + 1) % len)) n = xorSum (fun i => g (i + 1)) n :=
    xorSum_congr fun i hi => by rw [← hsh i hi]
  have hsum : g 0 ^^^ xorSum (fun i => g (i + 1)) n = xorSum g n ^^^ g n := by
    rw [← xorSum_succ_left, xorSum]
  have hg0 : bit w (h' 0) <<< 0 = g 0 := by simp only [g, Nat.zero_mod]
  rw [shiftLeft_or_bit, wrap_xor, wrap_xor, wrap_fold_shiftLeft hpos hlen, wrap_bit hpos, wrap_bit (Nat.mod_lt n hpos),
    hm, hg0, BitVec.xor_comm (xorSum _ _), hsum]
  show xorSum g n ^^^ g n ^^^ g n = xorSum g n
  rw [BitVec.xor_assoc, BitVec.xor_self, BitVec.xor_zero]

end Folded
