import Mathlib.Data.List.Basic
import Mathlib.Data.Nat.ModEq

/-!
# Ring buffers

A ring of `cap` cells is filled at ever increasing positions, position `k` being cell `k % cap`.
For a list `l` of everything that was ever written, `Holds` says that the cells still hold `l` from
position `lo` on, which is where a reader is.  Writing keeps it as long as the writer is less than a
full lap ahead of the reader (`Holds.push`), reading always does (`Holds.mono`).

A ring whose both ends move is described by the cell of its first element and the list of what it
holds (`Window`).  Elements are added at its end and removed at both.  The cells from one to another
are visited in the order of the ring (`between`).  A program keeps the index of the first cell, the index
behind the last one, and often their number; `Queue` says that they agree with the list.
-/

namespace Ring

open List Function

variable {α : Type*} {cap lo : Nat} {cells : Nat → α} {l : List α}

/-- The cells hold the list from position `lo` on. -/
def Holds (cap : Nat) (cells : Nat → α) (lo : Nat) (l : List α) : Prop :=
  ∀ k, lo ≤ k → ∀ h : k < l.length, cells (k % cap) = l[k]

/-- Nothing is asked of a ring that has been read to the end. -/
theorem holds_of_length_le (h : l.length ≤ lo) : Holds cap cells lo l :=
  fun _ hlo hk => absurd (Nat.lt_of_le_of_lt hlo hk) (Nat.not_lt.2 h)

/-- A reader further on needs less. -/
theorem Holds.mono {lo' : Nat} (h : Holds cap cells lo l) (hle : lo ≤ lo') : Holds cap cells lo' l :=
  fun k hk hlt => h k (le_trans hle hk) hlt

/-- Two positions less than a lap apart are different cells. -/
theorem mod_ne_mod_of_lt {k n : Nat} (hkn : k < n) (hlap : n < k + cap) : k % cap ≠ n % cap := by
  intro h
  have hdvd : cap ∣ n - k := (Nat.modEq_iff_dvd' hkn.le).1 h
  exact absurd (Nat.le_of_dvd (by omega) hdvd) (by omega)

/-- **Writing within a lap of the reader overwrites nothing the reader still needs.** -/
theorem Holds.push (h : Holds cap cells lo l) (hlap : l.length < lo + cap) (x : α) :
    Holds cap (update cells (l.length % cap) x) lo (l ++ [x]) := by
  intro k hlo hk
  rcases lt_or_ge k l.length with hlt | hge
  · have hne : k % cap ≠ l.length % cap := mod_ne_mod_of_lt hlt (by omega)
    rw [update_of_ne hne, getElem_append_left hlt]
    exact h k hlo hlt
  have he : k = l.length := by
    rw [List.length_append, List.length_singleton] at hk
    omega
  subst he
  simp

/-- What the reader finds next. -/
theorem Holds.read (h : Holds cap cells lo l) (hlt : lo < l.length) : cells (lo % cap) = l[lo] :=
  h lo (le_refl lo) hlt

/-- The cells from the reader's position on, read off in order, are the rest of the list. -/
theorem Holds.map_range (h : Holds cap cells lo l) :
    (List.range (l.length - lo)).map (fun i => cells ((lo + i) % cap)) = l.drop lo := by
  refine ext_getElem (by simp) fun i h1 h2 => ?_
  rw [length_map, length_range] at h1
  rw [getElem_map, getElem_range, getElem_drop]
  exact h (lo + i) (Nat.le_add_right lo i) (by omega)

/-! ## Windows -/

/-- The index after `i`. -/
def next (cap i : Nat) : Nat := if cap ≤ i + 1 then 0 else i + 1

/-- The index before `i`. -/
def prev (cap i : Nat) : Nat := if i = 0 then cap - 1 else i - 1

/-- The indices from one up to another, in the order of the ring. -/
def between (cap lo hi : Nat) : List Nat :=
  (List.range ((hi + cap - lo) % cap)).map fun i => (lo + i) % cap

/-- How many steps it is from one index to another. -/
def distance (cap lo hi : Nat) : Nat := (hi + cap - lo) % cap

/-- Starting at `head`, the cells hold the list, and one cell is left over. -/
structure Window (cap : Nat) (cells : Nat → α) (head : Nat) (l : List α) : Prop where
  head_lt : head < cap
  length_lt : l.length < cap
  get : ∀ i, ∀ h : i < l.length, cells ((head + i) % cap) = l[i]

section

variable {i j head : Nat}

section

variable (hh : head < cap)
include hh

theorem add_mod_eq (hi : i < cap) : (head + i) % cap = if head + i < cap then head + i else head + i - cap := by
  split_ifs with h
  · exact Nat.mod_eq_of_lt h
  · rw [Nat.mod_eq_sub_mod (by omega), Nat.mod_eq_of_lt (by omega)]

/-- Positions within a lap are different cells. -/
theorem add_mod_inj (hi : i < cap) (hj : j < cap) (h : (head + i) % cap = (head + j) % cap) : i = j := by
  rw [add_mod_eq hh hi, add_mod_eq hh hj] at h
  split at h <;> split at h <;> omega

theorem next_add_mod : next cap ((head + i) % cap) = (head + (i + 1)) % cap := by
  have hcap : 0 < cap := by omega
  have hlt := Nat.mod_lt (head + i) hcap
  have hst : (head + (i + 1)) % cap = ((head + i) % cap + 1) % cap := by
    rw [Nat.mod_add_mod, Nat.add_assoc]
  rw [next, hst]
  split_ifs with h
  · rw [show (head + i) % cap + 1 = cap by omega, Nat.mod_self]
  · exact (Nat.mod_eq_of_lt (by omega)).symm

theorem prev_add_mod (hi : i + 1 < cap) : prev cap ((head + (i + 1)) % cap) = (head + i) % cap := by
  rw [add_mod_eq hh hi, add_mod_eq hh (by omega), prev]
  split <;> split <;> split <;> omega

/-- The distance between two positions of a lap. -/
theorem distance_add_mod (hij : i ≤ j) (hj : j < cap) : distance cap ((head + i) % cap) ((head + j) % cap) = j - i := by
  rw [distance, add_mod_eq hh hj, add_mod_eq hh (show i < cap by omega)]
  split <;> split
  · rw [show head + j + cap - (head + i) = (j - i) + cap by omega, Nat.add_mod_right, Nat.mod_eq_of_lt (by omega)]
  · omega
  · rw [show head + j - cap + cap - (head + i) = j - i by omega, Nat.mod_eq_of_lt (by omega)]
  · rw [show head + j - cap + cap - (head + i - cap) = (j - i) + cap by omega, Nat.add_mod_right,
      Nat.mod_eq_of_lt (by omega)]

/-- The distance from the beginning of a lap. -/
theorem distance_head (hj : j < cap) : distance cap head ((head + j) % cap) = j := by
  have h := distance_add_mod hh (Nat.zero_le j) hj
  rwa [Nat.add_zero, Nat.mod_eq_of_lt hh, Nat.sub_zero] at h

/-- The indices between two positions of a lap. -/
theorem between_add_mod (hij : i ≤ j) (hj : j < cap) :
    between cap ((head + i) % cap) ((head + j) % cap) = (List.range (j - i)).map fun k => (head + (i + k)) % cap := by
  have hco : ((head + j) % cap + cap - (head + i) % cap) % cap = j - i := distance_add_mod hh hij hj
  rw [between, hco]
  refine map_congr_left fun k _ => ?_
  rw [Nat.mod_add_mod, Nat.add_assoc]

/-- The indices from the beginning of a lap. -/
theorem between_head (hj : j < cap) :
    between cap head ((head + j) % cap) = (List.range j).map fun k => (head + k) % cap := by
  have h := between_add_mod hh (Nat.zero_le j) hj
  rw [Nat.add_zero, Nat.mod_eq_of_lt hh, Nat.sub_zero] at h
  rw [h]
  exact map_congr_left fun k _ => by rw [zero_add]

end

theorem between_self (hi : i < cap) : between cap i i = [] := by
  rw [between, show i + cap - i = cap by omega, Nat.mod_self]
  rfl

theorem next_lt (hcap : 0 < cap) : next cap i < cap := by
  rw [next]
  split <;> omega

/-- The first index between two positions, and the rest. -/
theorem between_succ (hh : head < cap) (hij : i < j) (hj : j < cap) :
    between cap ((head + i) % cap) ((head + j) % cap) =
      (head + i) % cap :: between cap ((head + (i + 1)) % cap) ((head + j) % cap) := by
  rw [between_add_mod hh hij.le hj, between_add_mod hh hij hj,
    show j - i = j - (i + 1) + 1 by omega, range_succ_eq_map, map_cons, map_map]
  refine congrArg₂ List.cons (by rw [Nat.add_zero]) (map_congr_left fun k _ => ?_)
  simp only [Function.comp]
  rw [show i + (k + 1) = i + 1 + k by omega]

theorem between_eq_cons {k : Nat} {rest : List Nat} (hi : i < cap) (hj : j < cap) (h : between cap i j = k :: rest) :
    k = i ∧ i ≠ j ∧ rest = between cap (next cap i) j := by
  have hne : i ≠ j := by
    rintro rfl
    rw [between_self hi] at h
    cases h
  -- the number of steps from `i` to `j`
  obtain ⟨n, hn, hpos, rfl⟩ : ∃ n, n < cap ∧ 0 < n ∧ j = (i + n) % cap := by
    rcases lt_or_ge i j with hlt | hge
    · exact ⟨j - i, by omega, by omega, by rw [show i + (j - i) = j by omega, Nat.mod_eq_of_lt hj]⟩
    · exact ⟨j + cap - i, by omega, by omega, by
        rw [show i + (j + cap - i) = j + cap by omega, Nat.add_mod_right, Nat.mod_eq_of_lt hj]⟩
  have hsu := between_succ hi hpos hn
  have hnext := next_add_mod (i := 0) hi
  rw [Nat.add_zero, Nat.mod_eq_of_lt hi] at hsu hnext
  rw [hsu] at h
  obtain ⟨rfl, rfl⟩ := List.cons.inj h
  exact ⟨rfl, hne, by rw [hnext]⟩

end

namespace Window

variable {head i : Nat} {x : α}

theorem nil (hh : head < cap) : Window cap cells head ([] : List α) :=
  ⟨hh, by simp only [length_nil]; omega, fun i h => absurd h (Nat.not_lt_zero i)⟩

/-- Writing beyond the window does not change it. -/
theorem update_of_le (h : Window cap cells head l) (hi : l.length ≤ i) (hlt : i < cap) (x : α) :
    Window cap (update cells ((head + i) % cap) x) head l where
  head_lt := h.head_lt
  length_lt := h.length_lt
  get k hk := by
    have hne : (head + k) % cap ≠ (head + i) % cap := fun heq => by
      have := add_mod_inj h.head_lt (by omega) hlt heq
      omega
    rw [update_of_ne hne, h.get k hk]

/-- Adding an element at the end. -/
theorem push (h : Window cap cells head l) (hro : l.length + 1 < cap) (x : α) :
    Window cap (update cells ((head + l.length) % cap) x) head (l ++ [x]) where
  head_lt := h.head_lt
  length_lt := by simpa using hro
  get k hk := by
    rw [List.length_append, List.length_singleton] at hk
    rcases lt_or_ge k l.length with hlt | hge
    · rw [(h.update_of_le le_rfl (by omega) x).get k hlt, getElem_append_left hlt]
    · obtain rfl : k = l.length := by omega
      simp

/-- Removing the first element. -/
theorem pop (h : Window cap cells head (x :: l)) : Window cap cells ((head + 1) % cap) l where
  head_lt := Nat.mod_lt _ (Nat.lt_of_le_of_lt (Nat.zero_le _) h.head_lt)
  length_lt := Nat.lt_of_succ_lt h.length_lt
  get k hk := by
    rw [Nat.mod_add_mod, Nat.add_assoc, Nat.add_comm 1 k, h.get (k + 1) (by simpa using hk), getElem_cons_succ]

/-- Removing several elements at the beginning. -/
theorem drop (h : Window cap cells head l) {n : Nat} (hn : n ≤ l.length) :
    Window cap cells ((head + n) % cap) (l.drop n) where
  head_lt := Nat.mod_lt _ (Nat.lt_of_le_of_lt (Nat.zero_le _) h.head_lt)
  length_lt := by
    rw [length_drop]
    exact Nat.lt_of_le_of_lt (Nat.sub_le _ _) h.length_lt
  get k hk := by
    rw [length_drop] at hk
    rw [Nat.mod_add_mod, Nat.add_assoc, h.get (n + k) (by omega), getElem_drop]

/-- Removing the last element. -/
theorem popBack (h : Window cap cells head (l ++ [x])) : Window cap cells head l where
  head_lt := h.head_lt
  length_lt := by
    have := h.length_lt
    rw [List.length_append, List.length_singleton] at this
    omega
  get k hk := by
    rw [h.get k (by rw [List.length_append]; omega), getElem_append_left hk]

/-- Replacing an element. -/
theorem set (h : Window cap cells head l) (hi : i < l.length) (x : α) :
    Window cap (update cells ((head + i) % cap) x) head (l.set i x) where
  head_lt := h.head_lt
  length_lt := by simpa using h.length_lt
  get k hk := by
    rw [length_set] at hk
    have hleng := h.length_lt
    rw [getElem_set]
    split
    · rename_i heq
      rw [heq, update_self]
    · rename_i hne
      rw [update_of_ne fun heq => hne (add_mod_inj h.head_lt (by omega) (by omega) heq).symm, h.get k hk]

end Window

/-! ## Queues -/

/-- The cells from `head` up to `tail` hold the list, and `count` is their number. -/
structure Queue (cap : Nat) (cells : Nat → α) (head tail count : Nat) (l : List α) : Prop where
  window : Window cap cells head l
  tail_eq : tail = (head + l.length) % cap
  count_eq : count = l.length

namespace Queue

variable {head tail count i k : Nat} {x y : α}

theorem nil (hcap : 1 ≤ cap) : Queue cap cells 0 0 0 ([] : List α) :=
  ⟨.nil hcap, (Nat.zero_mod cap).symm, rfl⟩

theorem get?_eq (h : Queue cap cells head tail count l) (hx : l[i]? = some x) : cells ((head + i) % cap) = x := by
  obtain ⟨hi, rfl⟩ := List.getElem?_eq_some_iff.1 hx
  exact h.window.get i hi

theorem first_eq (h : Queue cap cells head tail count (x :: l)) : cells head = x := by
  have := h.get?_eq (i := 0) rfl
  rwa [Nat.add_zero, Nat.mod_eq_of_lt h.window.head_lt] at this

theorem next_head (h : Queue cap cells head tail count l) : next cap head = (head + 1) % cap := by
  have := next_add_mod (i := 0) h.window.head_lt
  rwa [Nat.add_zero, Nat.mod_eq_of_lt h.window.head_lt] at this

theorem prev_tail (h : Queue cap cells head tail count (l ++ [x])) : prev cap tail = (head + l.length) % cap := by
  have hlen := h.window.length_lt
  rw [List.length_append, List.length_singleton] at hlen
  rw [h.tail_eq, List.length_append, List.length_singleton, prev_add_mod h.window.head_lt hlen]

theorem last_eq (h : Queue cap cells head tail count (l ++ [x])) : cells (prev cap tail) = x := by
  rw [h.prev_tail]
  exact h.get?_eq getElem?_concat_length

section

variable (h : Queue cap cells head tail count l)
include h

/-- The cells from the first to the last one. -/
theorem map_between : (between cap head tail).map cells = l := by
  rw [h.tail_eq, between_head h.window.head_lt h.window.length_lt, map_map]
  refine ext_getElem (by simp) fun i h1 h2 => ?_
  simp only [getElem_map, getElem_range, Function.comp]
  exact h.window.get i h2

theorem count_eq_distance : count = distance cap head tail := by
  rw [h.count_eq, h.tail_eq, distance_head h.window.head_lt h.window.length_lt]

/-- The cells that hold something, by their indices. -/
theorem exists_of_mem_between {idx : Nat} (hidx : idx ∈ between cap head tail) :
    ∃ i x, l[i]? = some x ∧ idx = (head + i) % cap := by
  rw [h.tail_eq, between_head h.window.head_lt h.window.length_lt] at hidx
  obtain ⟨i, hi, rfl⟩ := mem_map.1 hidx
  rw [mem_range] at hi
  exact ⟨i, l[i], getElem?_eq_getElem hi, rfl⟩

/-- If the index behind the last element is not next to the first one, there is room. -/
theorem length_succ_lt (hro : (tail + 1) % cap ≠ head) : l.length + 1 < cap := by
  have hlen := h.window.length_lt
  by_contra hfull
  refine hro ?_
  rw [h.tail_eq, Nat.mod_add_mod, show head + l.length + 1 = head + cap by omega, Nat.add_mod_right,
    Nat.mod_eq_of_lt h.window.head_lt]

theorem push (hro : (tail + 1) % cap ≠ head) (x : α) :
    Queue cap (update cells tail x) head (next cap tail) (count + 1) (l ++ [x]) where
  window := by
    rw [h.tail_eq]
    exact h.window.push (h.length_succ_lt hro) x
  tail_eq := by rw [h.tail_eq, next_add_mod h.window.head_lt, List.length_append, List.length_singleton]
  count_eq := by rw [h.count_eq, List.length_append, List.length_singleton]

/-- Removing several elements at the beginning. -/
theorem drop (hk : k ≤ l.length) : Queue cap cells ((head + k) % cap) tail (count - k) (l.drop k) where
  window := h.window.drop hk
  tail_eq := by
    rw [h.tail_eq, length_drop, Nat.mod_add_mod, show head + k + (l.length - k) = head + l.length by omega]
  count_eq := by rw [h.count_eq, length_drop]

end

/-- Removing the first element, whose cell is written. -/
theorem popFront (h : Queue cap cells head tail count (x :: l)) (y : α) :
    Queue cap (update cells head y) (next cap head) tail (count - 1) l where
  window := by
    have hh := h.window.head_lt
    have hlen := h.window.length_lt
    rw [length_cons] at hlen
    -- the old first cell is the last one of the lap that now begins
    have hce : ((head + 1) % cap + (cap - 1)) % cap = head := by
      rw [Nat.mod_add_mod, show head + 1 + (cap - 1) = head + cap by omega, Nat.add_mod_right, Nat.mod_eq_of_lt hh]
    have hpop := h.window.pop.update_of_le (i := cap - 1) (by omega) (by omega) y
    rwa [hce, ← h.next_head] at hpop
  tail_eq := by
    rw [h.next_head, h.tail_eq, length_cons, Nat.mod_add_mod, Nat.add_assoc, Nat.add_comm 1]
  count_eq := by rw [h.count_eq, length_cons, Nat.add_sub_cancel]

/-- Removing the last element, whose cell is written. -/
theorem popBack (h : Queue cap cells head tail count (l ++ [x])) (y : α) :
    Queue cap (update cells (prev cap tail) y) head (prev cap tail) (count - 1) l where
  window := by
    have hlen := h.window.length_lt
    rw [List.length_append, List.length_singleton] at hlen
    rw [h.prev_tail]
    exact h.window.popBack.update_of_le le_rfl (by omega) y
  tail_eq := h.prev_tail
  count_eq := by rw [h.count_eq, List.length_append, List.length_singleton, Nat.add_sub_cancel]

theorem set (h : Queue cap cells head tail count l) (hi : i < l.length) (x : α) :
    Queue cap (update cells ((head + i) % cap) x) head tail count (l.set i x) where
  window := h.window.set hi x
  tail_eq := by rw [length_set, h.tail_eq]
  count_eq := by rw [length_set, h.count_eq]

end Queue

/-! ## Cells that hold nothing -/

section

variable {cells : Nat → Option α} {head i : Nat} {x : α}

/-- The cells that hold something are those of the list. -/
def Only (cap : Nat) (cells : Nat → Option α) (head : Nat) (l : List α) : Prop :=
  ∀ idx x, cells idx = some x → ∃ i, l[i]? = some x ∧ idx = (head + i) % cap

theorem Only.push (h : Only cap cells head l) (x : α) :
    Only cap (update cells ((head + l.length) % cap) (some x)) head (l ++ [x]) := by
  intro idx y hy
  by_cases hidx : idx = (head + l.length) % cap
  · rw [hidx, update_self] at hy
    exact ⟨l.length, getElem?_concat_length.trans hy, hidx⟩
  · rw [update_of_ne hidx] at hy
    obtain ⟨i, hi, heq⟩ := h idx y hy
    obtain ⟨hlt, -⟩ := List.getElem?_eq_some_iff.1 hi
    exact ⟨i, (List.getElem?_append_left hlt).trans hi, heq⟩

theorem Only.set (h : Only cap cells head l) (hi : i < l.length) (x : α) :
    Only cap (update cells ((head + i) % cap) (some x)) head (l.set i x) := by
  intro idx y hy
  by_cases hidx : idx = (head + i) % cap
  · rw [hidx, update_self] at hy
    exact ⟨i, (getElem?_set_self hi).trans hy, hidx⟩
  · rw [update_of_ne hidx] at hy
    obtain ⟨j, hj, rfl⟩ := h idx y hy
    exact ⟨j, (getElem?_set_ne fun hij => hidx (by rw [hij])).trans hj, rfl⟩

theorem Only.popFront (h : Only cap cells head (x :: l)) (hh : head < cap) :
    Only cap (update cells head none) ((head + 1) % cap) l := by
  intro idx y hy
  by_cases hidx : idx = head
  · rw [hidx, update_self] at hy
    cases hy
  rw [update_of_ne hidx] at hy
  obtain ⟨j, hj, rfl⟩ := h idx y hy
  rcases j with - | j
  · exact absurd (Nat.mod_eq_of_lt hh) hidx
  · exact ⟨j, hj, by rw [Nat.mod_add_mod, Nat.add_assoc, Nat.add_comm 1]⟩

theorem Only.popBack (h : Only cap cells head (l ++ [x])) :
    Only cap (update cells ((head + l.length) % cap) none) head l := by
  intro idx y hy
  by_cases hidx : idx = (head + l.length) % cap
  · rw [hidx, update_self] at hy
    cases hy
  rw [update_of_ne hidx] at hy
  obtain ⟨j, hj, rfl⟩ := h idx y hy
  have hlt := (List.getElem?_eq_some_iff.1 hj).1
  rw [List.length_append, List.length_singleton] at hlt
  have hne : j ≠ l.length := fun hj => hidx (by rw [hj])
  rw [List.getElem?_append_left (by omega)] at hj
  exact ⟨j, hj, rfl⟩

end

end Ring
