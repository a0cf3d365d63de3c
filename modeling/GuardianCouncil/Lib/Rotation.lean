import Mathlib.Data.Int.CardIntervalMod

/-!
# Dealing in turn

There are `n` receivers `f 0, …, f (n - 1)`, who are served in turn, and `Deals f n l` says that `l` lists who has
been served so far.  Then nobody has been served two times more than somebody else (`Deals.count_le`).
-/

namespace Rotation

open List

variable {α : Type*} {f : ℕ → α} {n : ℕ} {l : List α}

def Deals (f : ℕ → α) (n : ℕ) (l : List α) : Prop := l = (range l.length).map fun i => f (i % n)

theorem Deals.nil (f : ℕ → α) (n : ℕ) : Deals f n [] := rfl

theorem Deals.concat (h : Deals f n l) : Deals f n (l ++ [f (l.length % n)]) := by
  rw [Deals, length_append, length_singleton, range_succ, map_append, ← h]
  rfl

variable [BEq α] [LawfulBEq α]

theorem Deals.count_eq (h : Deals f n l) (hf : ∀ i < n, ∀ j < n, f i = f j → i = j) {d : ℕ}
    (hd : d < n) : l.count (f d) = l.length / n + if d < l.length % n then 1 else 0 := by
  have hn : 0 < n := by omega
  have hco : l.count (f d) = l.length.count (· ≡ d [MOD n]) := by
    conv_lhs => rw [h]
    rw [count_eq_countP, countP_map, Nat.count]
    refine countP_congr fun i _ => ?_
    simp only [Function.comp_apply, beq_iff_eq, Nat.ModEq, Nat.mod_eq_of_lt hd, decide_eq_true_eq]
    exact ⟨hf _ (Nat.mod_lt i hn) d hd, fun heq => heq ▸ rfl⟩
  rw [hco, Nat.count_modEq_card _ hn, Nat.mod_eq_of_lt hd]

/-- **Dealing in turn is even.** -/
theorem Deals.count_le (h : Deals f n l) (hf : ∀ i < n, ∀ j < n, f i = f j → i = j) {d d' : ℕ}
    (hd : d < n) (hd' : d' < n) : l.count (f d) ≤ l.count (f d') + 1 := by
  rw [h.count_eq hf hd, h.count_eq hf hd']
  split <;> split <;> omega

end Rotation
