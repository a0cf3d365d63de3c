import Mathlib.Data.Fintype.BigOperators

/-!
# Items sorted into buckets, and a table of buckets that is folded in half

`bucket key x l` are the items of `l` whose key is `x`.  The buckets of
the keys below `n` make up the list (`sum_bucket`).  When all keys are halved, the bucket of `x` is what
was in the buckets of `2 * x` and `2 * x + 1` (`bucket_half_perm`).

`halve merge empty v` does this on a table, in place: entry `i` becomes the merge of the entries
`2 * i` and `2 * i + 1`, from the front to the back, and then the upper half is cleared.
-/

namespace Buckets

variable {α β M : Type*}

/-- The items of `l` whose key is `x`. -/
def bucket (key : α → Nat) (x : Nat) (l : List α) : List α := l.filter fun a => key a = x

variable {key : α → Nat} {x n : Nat} {l : List α} {a : α}

theorem mem_bucket : a ∈ bucket key x l ↔ a ∈ l ∧ key a = x := by
  simp [bucket]

theorem bucket_append {l' : List α} : bucket key x (l ++ l') = bucket key x l ++ bucket key x l' :=
  List.filter_append ..

theorem bucket_congr {key' : α → Nat} (h : ∀ a ∈ l, key a = key' a) : bucket key x l = bucket key' x l :=
  List.filter_congr fun a ha => by rw [h a ha]

/-- Halving every key puts two neighbouring buckets together. -/
theorem bucket_half_perm : (bucket (key · / 2) x l).Perm (bucket key (2 * x) l ++ bucket key (2 * x + 1) l) := by
  induction l with
  | nil => exact .refl _
  | cons a l ih =>
    have hca : key a / 2 = x ↔ key a = 2 * x ∨ key a = 2 * x + 1 := by omega
    simp only [bucket, List.filter_cons, decide_eq_true_eq, hca] at ih ⊢
    by_cases hev : key a = 2 * x
    · have hodd : key a ≠ 2 * x + 1 := by omega
      simpa [hev, hodd] using ih
    · by_cases hodd : key a = 2 * x + 1
      · simpa [hodd] using (ih.cons a).trans List.perm_middle.symm
      · simpa [hev, hodd] using ih

/-- A sum over all buckets is a sum over the list. -/
theorem sum_bucket [AddCommMonoid M] (f : α → M) (h : ∀ a ∈ l, key a < n) :
    ∑ x : Fin n, ((bucket key x l).map f).sum = (l.map f).sum := by
  induction l with
  | nil => simp [bucket]
  | cons a l ih =>
    have hone : ∀ x : Fin n, ((bucket key x (a :: l)).map f).sum =
        (if ⟨key a, h a List.mem_cons_self⟩ = x then f a else 0) + ((bucket key x l).map f).sum := by
      intro x
      by_cases hx : key a = x <;> simp [bucket, Fin.ext_iff, hx]
    simp only [hone, Finset.sum_add_distrib, Finset.sum_ite_eq, Finset.mem_univ, if_true,
      ih fun b hb => h b (List.mem_cons_of_mem a hb), List.map_cons, List.sum_cons]

/-! ## Folding a table in half -/

section

variable (merge : β → β → β) (empty : β)

/-- The first `k` entries become the merges of two neighbours. -/
def pairUp (v : Vector β (2 * n)) (k : Nat) (hk : k ≤ n) : Vector β (2 * n) :=
  k.fold (fun i hi v => v.set i (merge v[2 * i] v[2 * i + 1])) v

/-- The `k` entries after the first `n` are reset. -/
def clearUpper (v : Vector β (2 * n)) (k : Nat) (hk : k ≤ n) : Vector β (2 * n) :=
  k.fold (fun i hi v => v.set (n + i) empty) v

def halve (v : Vector β (2 * n)) : Vector β (2 * n) :=
  clearUpper empty (pairUp merge v n n.le_refl) n n.le_refl

variable {merge empty} {v : Vector β (2 * n)} {k i : Nat}

/-- Step `k` reads the entries `2 * k` and `2 * k + 1`, and no step before it has written them. -/
theorem getElem_pairUp (hk : k ≤ n) (hi : i < 2 * n) : (pairUp merge v k hk)[i] =
      if h : i < k then merge v[2 * i] v[2 * i + 1] else v[i] := by
  induction k generalizing i with
  | zero => simp [pairUp]
  | succ k ih =>
    have hst : pairUp merge v (k + 1) hk = (pairUp merge v k (by omega)).set k
          (merge (pairUp merge v k (by omega))[2 * k] (pairUp merge v k (by omega))[2 * k + 1]) := by
      simp only [pairUp, Nat.fold_succ]
    simp only [hst, Vector.getElem_set]
    by_cases hik : k = i
    · subst hik
      rw [if_pos rfl, dif_pos (Nat.lt_succ_self k), ih (by omega), ih (by omega),
        dif_neg (by omega), dif_neg (by omega)]
    · rw [if_neg hik, ih (by omega)]
      by_cases hlt : i < k
      · rw [dif_pos hlt, dif_pos (by omega)]
      · rw [dif_neg hlt, dif_neg (by omega)]

theorem getElem_clearUpper (hk : k ≤ n) (hi : i < 2 * n) :
    (clearUpper empty v k hk)[i] = if n ≤ i ∧ i < n + k then empty else v[i] := by
  induction k with
  | zero => simp [clearUpper]
  | succ k ih =>
    have hst : clearUpper empty v (k + 1) hk = (clearUpper empty v k (by omega)).set (n + k) empty := by
      simp only [clearUpper, Nat.fold_succ]
    rw [hst, Vector.getElem_set, ih (by omega)]
    by_cases hik : n + k = i
    · rw [if_pos hik, if_pos (by omega)]
    · rw [if_neg hik]
      exact if_congr (by omega) rfl rfl

theorem getElem_halve (hi : i < 2 * n) : (halve merge empty v)[i] =
      if h : i < n then merge v[2 * i] v[2 * i + 1] else empty := by
  rw [halve, getElem_clearUpper, getElem_pairUp]
  by_cases hlt : i < n
  · rw [if_neg (by omega), dif_pos hlt, dif_pos hlt]
  · rw [if_pos (by omega), dif_neg hlt]

end

end Buckets
