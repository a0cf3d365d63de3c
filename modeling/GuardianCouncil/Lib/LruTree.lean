import Mathlib.Data.List.Destutter
import Mathlib.Tactic.Ring

/-!
# Trees of bits that point to what was touched last

Touching a leaf makes every bit on its path point along it, and the victim is where every bit points the other
way.  A leaf that was touched is not the victim before `n` others have been (`le_along`), and the victims are
all different if each is touched as it is chosen (`victim_iterate_ne`).
-/

open Function List

/-- A perfect binary tree of bits. -/
inductive LruTree : ℕ → Type
  | leaf : LruTree 0
  | node {n : ℕ} (bit : Bool) (left right : LruTree n) : LruTree (n + 1)

namespace LruTree

variable {n : ℕ} {p q : List Bool}

/-- Makes the bits along a path, given from the root, point along it. -/
def touch : {n : ℕ} → LruTree n → List Bool → LruTree n
  | _, node _ l r, false :: p => node false (l.touch p) r
  | _, node _ l r, true :: p => node true l (r.touch p)
  | _, t, _ => t

/-- The path on which every bit points the other way. -/
def victim : {n : ℕ} → LruTree n → List Bool
  | _, leaf => []
  | _, node true l _ => false :: l.victim
  | _, node false _ r => true :: r.victim

/-- The number of bits on a path that point along it. -/
def along : {n : ℕ} → LruTree n → List Bool → ℕ
  | _, node bit l r, v :: p => (if bit = v then 1 else 0) + if v then r.along p else l.along p
  | _, _, _ => 0

@[simp] theorem length_victim (t : LruTree n) : t.victim.length = n := by
  induction t with
  | leaf => rfl
  | node bit l r hl hr => cases bit <;> simp [victim, hl, hr]

theorem along_victim (t : LruTree n) : t.along t.victim = 0 := by
  induction t with
  | leaf => rfl
  | node bit l r hl hr => cases bit <;> simp [victim, along, hl, hr]

theorem along_touch_self (t : LruTree n) (hp : p.length = n) : (t.touch p).along p = n := by
  induction t generalizing p with
  | leaf => rfl
  | node bit l r hl hr =>
    rcases p with _ | ⟨_ | _, p⟩
    · cases hp
    · simp [touch, along, hl (Nat.succ.inj hp), add_comm]
    · simp [touch, along, hr (Nat.succ.inj hp), add_comm]

/-- Another path takes at most one bit away: the one where they part. -/
theorem along_le_touch (t : LruTree n) : t.along p ≤ (t.touch q).along p + 1 := by
  induction t generalizing p q with
  | leaf => exact Nat.zero_le _
  | node bit l r hl hr =>
    rcases p with _ | ⟨_ | _, p⟩ <;> rcases q with _ | ⟨_ | _, q⟩ <;> cases bit <;> simp [touch, along] <;> grind

theorem touch_touch (t : LruTree n) : (t.touch p).touch p = t.touch p := by
  induction t generalizing p with
  | leaf => rfl
  | node bit l r hl hr => rcases p with _ | ⟨_ | _, p⟩ <;> simp [touch, hl, hr]

/-- What was touched, with `j` others since, still has `n - j` bits that point along its path. -/
theorem le_along {α : Type} [DecidableEq α] (f : α → List Bool) (hf : ∀ a, (f a).length = n) (t : LruTree n)
    {as : List α} {a : α} {j : ℕ} (hj : (as.destutter (· ≠ ·))[j]? = some a) :
    n ≤ (as.foldr (fun a t => t.touch (f a)) t).along (f a) + j := by
  induction as generalizing j with
  | nil => cases hj
  | cons b as ih =>
    have hself : n ≤ ((b :: as).foldr (fun a t => t.touch (f a)) t).along (f b) := (along_touch_self _ (hf b)).ge
    cases as with
    | nil =>
      cases j <;> cases hj
      exact hself
    | cons b' as =>
      rw [destutter_cons_cons] at hj
      split_ifs at hj with hb
      · cases j with
        | zero =>
          cases hj
          exact hself
        | succ j =>
          have hle := @along_le_touch _ (f a) (f b) ((b' :: as).foldr (fun a t => t.touch (f a)) t)
          have := ih hj
          rw [foldr_cons]
          omega
      · cases not_not.1 hb
        rw [foldr_cons, foldr_cons, touch_touch]
        exact ih hj

/-- The victim is touched as soon as it is chosen. -/
def next (t : LruTree n) : LruTree n := t.touch t.victim

/-- In two rounds the victim comes from each side once. -/
theorem next_iterate_two_mul (m : ℕ) (bit : Bool) (l r : LruTree n) :
    next^[2 * m] (node bit l r) = node bit (next^[m] l) (next^[m] r) := by
  induction m generalizing l r with
  | zero => rfl
  | succ m ih =>
    rw [Nat.mul_succ, iterate_add_apply, iterate_succ_apply, iterate_succ_apply]
    cases bit <;> exact ih _ _

theorem victim_iterate_ne (t : LruTree n) {d : ℕ} (h0 : 0 < d) (hd : d < 2 ^ n) : (next^[d] t).victim ≠ t.victim := by
  induction t generalizing d with
  | leaf => omega
  | node bit l r hl hr =>
    obtain ⟨m, rfl | rfl⟩ := d.even_or_odd'
    · have hm := Nat.lt_of_mul_lt_mul_left (hd.trans_eq (pow_succ' 2 _))
      rw [next_iterate_two_mul]
      cases bit
      · exact fun h => hr (by omega) hm (cons.inj h).2
      · exact fun h => hl (by omega) hm (cons.inj h).2
    · rw [iterate_succ_apply', next_iterate_two_mul]
      cases bit <;> simp [next, victim, touch]

/-! ## Paths as numbers -/

/-- The path to a way, the highest bit first. -/
def path : ℕ → ℕ → List Bool
  | 0, _ => []
  | n + 1, way => way.testBit n :: path n way

def value : List Bool → ℕ
  | [] => 0
  | v :: p => v.toNat * 2 ^ p.length + value p

theorem length_path (n way : ℕ) : (path n way).length = n := by
  induction n with
  | zero => rfl
  | succ n ih => rw [path, length_cons, ih]

theorem value_lt (p : List Bool) : value p < 2 ^ p.length := by
  induction p with
  | nil => decide
  | cons v p ih =>
    rw [value, length_cons, pow_succ]
    cases v <;> simp <;> omega

theorem path_add_value (p : List Bool) (c : ℕ) : path p.length (c * 2 ^ p.length + value p) = p := by
  induction p generalizing c with
  | nil => rfl
  | cons v p ih =>
    have heq : c * 2 ^ (p.length + 1) + value (v :: p) = (2 * c + v.toNat) * 2 ^ p.length + value p := by
      rw [value]
      ring
    rw [length_cons, path, heq, ih, Nat.testBit_eq_decide_div_mod_eq, mul_comm, Nat.mul_add_div (Nat.two_pow_pos _),
      Nat.div_eq_of_lt (value_lt p)]
    cases v <;> simp

theorem path_value (hp : p.length = n) : path n (value p) = p := by
  have h := path_add_value p 0
  rwa [zero_mul, zero_add, hp] at h

end LruTree

